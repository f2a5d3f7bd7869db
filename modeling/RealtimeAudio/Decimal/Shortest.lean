import RealtimeAudio.Binary.Format

/-! The shortest decimal that reads back as a given binary value. A binary value
owns the interval of numbers that round to it. For one digit, two digits and so on,
the two neighbours of the value on that decimal grid are tried, and the first grid
with a neighbour inside the interval supplies the digits. -/
namespace RealtimeAudio

structure Decimal where
  digits : Nat
  exponent : Int
deriving DecidableEq, Repr

/-- Which neighbour is taken when both are equally near. -/
inductive Tie where
  | up
  | even
deriving DecidableEq, Repr

namespace Decimal

def digitCount (n : Nat) : Nat := (Nat.toDigits 10 n).length

def leading (d : Decimal) : Int := d.exponent + digitCount d.digits - 1

/-- The same number without zeros at the end, as long as `fuel` lasts. -/
def strip : (fuel : Nat) → Decimal → Decimal
  | 0, d => d
  | fuel + 1, d =>
    if d.digits ≠ 0 ∧ d.digits % 10 = 0 then strip fuel ⟨d.digits / 10, d.exponent + 1⟩ else d

end Decimal

/-- The numbers that round to one binary value: `value`, `low` and `high` share the
denominator `unit`, and the ends belong to the interval when `closed`. -/
structure RoundingInterval where
  low : Nat
  value : Nat
  high : Nat
  unit : Nat
  closed : Bool
deriving DecidableEq, Repr

namespace RoundingInterval

/-- The interval of `m * 2 ^ e` in format `f`. Below a power of two the spacing halves,
and an even significand wins both its ties. -/
def ofBinary (f : BinaryFormat) (m : Nat) (e : Int) : RoundingInterval :=
  let below := if m = Nat.pow 2 f.fractionBits ∧ f.lowestExponent < e then 1 else 2
  let scale := Nat.pow 2 (e - 2).toNat
  { low := (4 * m - below) * scale
    value := 4 * m * scale
    high := (4 * m + 2) * scale
    unit := Nat.pow 2 (2 - e).toNat
    closed := m % 2 = 0 }

def contains (i : RoundingInterval) (n : Nat) : Bool :=
  if i.closed then i.low ≤ n && n ≤ i.high else i.low < n && n < i.high

/-- The interval in units of `10 ^ g`. -/
def rescale (i : RoundingInterval) (g : Int) : RoundingInterval :=
  let up := Nat.pow 10 (-g).toNat
  { i with
    low := i.low * up
    value := i.value * up
    high := i.high * up
    unit := i.unit * Nat.pow 10 g.toNat }

/-- The whole number in the interval nearest to its value, among the value's two
neighbours. -/
def nearestWhole? (tie : Tie) (i : RoundingInterval) : Option Nat :=
  let floor := i.value / i.unit
  let twice := 2 * (i.value % i.unit)
  let lower := i.contains (floor * i.unit)
  let upper := i.contains ((floor + 1) * i.unit)
  let preferUpper := i.unit < twice || twice == i.unit && (tie == .up || floor % 2 == 1)
  if lower && !(upper && preferUpper) then some floor
  else if upper then some (floor + 1)
  else none

/-- The exponent of the leading decimal digit of the value. The scale `10 ^ 400`
lifts every finite value above 1. -/
def leading (i : RoundingInterval) : Int :=
  (Decimal.digitCount (i.value * Nat.pow 10 400 / i.unit) : Int) - 401

/-- Grids of `used + 1`, `used + 2`, … digits. -/
def search (tie : Tie) (i : RoundingInterval) : (grids : Nat) → (used : Nat) → Decimal
  | 0, _ => ⟨0, 0⟩
  | grids + 1, used =>
    let g := i.leading - used
    match (i.rescale g).nearestWhole? tie with
    | some n => Decimal.strip (used + 2) ⟨n, g⟩
    | none => search tie i grids (used + 1)

end RoundingInterval

namespace Decimal

/-- The shortest decimal of `m * 2 ^ e` in format `f`. Seventeen digits tell any two
binary64 values apart. -/
def shortest (tie : Tie) (f : BinaryFormat) (m : Nat) (e : Int) : Decimal :=
  if m = 0 then ⟨0, 0⟩ else (RoundingInterval.ofBinary f m e).search tie 17 0

end Decimal

end RealtimeAudio
