import RealtimeAudio.Json.Reader
import RealtimeAudio.Binary.Format

/-! JSON numbers. A whole number that fits 64 bits is kept as it is. Any other
becomes a binary64 number: of its digits as many as fit 64 bits, multiplied or
divided by a power of ten in binary64, one rounding for each of the two. -/
namespace RealtimeAudio.Json

inductive Number where
  | natural (n : UInt64)
  /-- The number `-n`, with `n` in `1 .. 2 ^ 63`. -/
  | negative (n : UInt64)
  | decimal (x : Float)

namespace Number

def toSingle : Number → Float32
  | natural n => n.toFloat32
  | negative n => -n.toFloat32
  | decimal x => narrow x

def toDouble : Number → Float
  | natural n => n.toFloat
  | negative n => -n.toFloat
  | decimal x => x

end Number

/-- Digits taken so far, `significand * 10 ^ exponent`. -/
structure Significand where
  significand : Nat
  exponent : Int
deriving DecidableEq, Repr

namespace Significand

/-- Digits before the point. From the first one that no longer fits 64 bits on, they
only raise the exponent. -/
def wholeDigits (s : Significand) : List Char → Significand
  | [] => s
  | c :: rest =>
    let next := 10 * s.significand + digitValue c
    if next < UInt64.size then wholeDigits ⟨next, s.exponent⟩ rest
    else ⟨s.significand, s.exponent + (rest.length + 1 : Nat)⟩

/-- Digits after the point, up to the first one that no longer fits 64 bits. -/
def fractionDigits (s : Significand) : List Char → Significand
  | [] => s
  | c :: rest =>
    let next := 10 * s.significand + digitValue c
    if next < UInt64.size then fractionDigits ⟨next, s.exponent - 1⟩ rest else s

def powerOfTen (k : Nat) : Float := Float.ofScientific 1 false k

/-- `x / 10 ^ k`. The largest power of ten is divided off first, as often as needed
or until nothing is left of `x`. -/
def scaleDown (x : Float) (k : Nat) : Float :=
  go (k / 308) x k
where
  go : (steps : Nat) → Float → Nat → Float
    | 0, x, k => x / powerOfTen k
    | steps + 1, x, k =>
      if k ≤ 308 then x / powerOfTen k
      else if x == 0.0 then x
      else go steps (x / powerOfTen 308) (k - 308)

/-- The value in binary64; nothing if it is beyond the largest. -/
def toDouble? (s : Significand) : Option Float :=
  let x := (UInt64.ofNat s.significand).toFloat
  if s.exponent < 0 then some (scaleDown x s.exponent.natAbs)
  else if s.exponent ≤ 308 then
    let y := x * powerOfTen s.exponent.toNat
    if y.isInf then none else some y
  else if s.significand = 0 then some x
  else none

end Significand

namespace Reader

def someDigits : Reader (List Char) := do
  match ← digits with
  | [] => throw (if (← get).isEmpty then .truncated else .malformed)
  | c :: rest => return c :: rest

/-- The digits before the point: no zero in front of another digit. -/
def wholePart : Reader (List Char) := do
  match ← someDigits with
  | '0' :: _ :: _ => throw .malformed
  | text => return text

def exponentPart : Reader Int := do
  let sign ← peek
  if sign = some '+' || sign = some '-' then advance
  let magnitude := (← someDigits).foldl (fun n c => 10 * n + digitValue c) 0
  return if sign = some '-' then -magnitude else magnitude

def number : Reader Number := do
  let negative := (← peek) = some '-'
  if negative then advance
  let whole ← wholePart
  let taken := Significand.wholeDigits ⟨0, 0⟩ whole
  let point := (← peek) = some '.'
  let taken ← if point then do
      advance
      pure (taken.fractionDigits (← someDigits))
    else pure taken
  let next ← peek
  let power := next = some 'e' || next = some 'E'
  let taken ← if power then do
      advance
      pure { taken with exponent := taken.exponent + (← exponentPart) }
    else pure taken
  let n := UInt64.ofNat taken.significand
  if !point && !power && taken.exponent = 0 then
    if !negative then return .natural n
    if 0 < taken.significand && taken.significand ≤ UInt64.size / 2 then return .negative n
  match taken.toDouble? with
  | some x => return .decimal (if negative then -x else x)
  | none => throw .malformed

/-- Pass over a number: any fault of spelling is the same fault, the end of the text
in the middle included. -/
def passNumber : Reader Unit := do
  let whole ← digits
  if whole.isEmpty || (whole.length ≠ 1 && whole.head? = some '0') then throw .malformed
  if (← peek) = some '.' then
    advance
    if (← digits).isEmpty then throw .malformed
  let next ← peek
  if next = some 'e' || next = some 'E' then
    advance
    let sign ← peek
    if sign = some '+' || sign = some '-' then advance
    if (← digits).isEmpty then throw .malformed

end Reader

end RealtimeAudio.Json
