import RealtimeAudio.Json.Number
import RealtimeAudio.Json.Text

/-! Passing over a JSON value of any kind, nested to any depth, and refusing a value of
the wrong kind. Open brackets are kept on a list of their own, so depth is no limit. -/
namespace RealtimeAudio.Json

inductive Bracket where
  | array
  | object
deriving DecidableEq, Repr

namespace Bracket

def opening? : Char → Option Bracket
  | '[' => some array
  | '{' => some object
  | _ => none

def closing : Bracket → Char
  | array => ']'
  | object => '}'

end Bracket

namespace Reader

/-- Pass over a value without members, which starts with `c`. -/
def passScalar (c : Char) : Reader Unit := do
  match c with
  | 'n' => literal ['n', 'u', 'l', 'l']
  | 't' => literal ['t', 'r', 'u', 'e']
  | 'f' => literal ['f', 'a', 'l', 's', 'e']
  | '"' => advance; passString
  | '-' => advance; passNumber
  | _ => if isDigit c then passNumber else throw .malformed

/-- After a value: brackets that end here are closed. Those still open are returned,
and then a comma has been taken. -/
def close : List Bracket → Reader (List Bracket)
  | [] => return []
  | b :: outer => do
    let c ← upcoming
    if c = ',' then
      advance
      return b :: outer
    else if c = b.closing then
      advance
      close outer
    else throw .malformed

/-- After an opening bracket: it may close at once. -/
def enter (b : Bracket) (outer : List Bracket) : Reader (List Bracket) := do
  if (← upcoming) = b.closing then
    advance
    close outer
  else return b :: outer

def passName : Reader Unit := do
  mark '"'
  passString
  mark ':'

/-- Pass over values until all of `brackets` are closed. Each round takes a character,
so the text ahead is fuel enough. -/
def passLoop : (fuel : List Char) → (brackets : List Bracket) → Reader Unit
  | [], _ => throw .truncated
  | _ :: fuel, brackets => do
    let c ← upcoming
    let still ← match Bracket.opening? c with
      | some b => do
        advance
        enter b brackets
      | none => do
        passScalar c
        close brackets
    match still with
    | [] => return
    | .array :: _ => passLoop fuel still
    | .object :: _ => do
      passName
      passLoop fuel still

def passValue : Reader Unit := do
  passLoop (← get) []

/-- Refuse the value ahead, which is of the wrong kind. A fault in its spelling comes
first, as far as the value has no members. -/
def refuse {α : Type} : Reader α := do
  match ← upcoming with
  | 'n' => literal ['n', 'u', 'l', 'l']
  | 't' => literal ['t', 'r', 'u', 'e']
  | 'f' => literal ['f', 'a', 'l', 's', 'e']
  | '"' => do
    advance
    let _ ← string
  | '[' => pure ()
  | '{' => pure ()
  | c =>
    if c = '-' || isDigit c then
      let _ ← number
    else throw .malformed
  throw .mistyped

def wantedNumber : Reader Number := do
  let c ← upcoming
  if c = '-' || isDigit c then number else refuse

def wantedSingle : Reader Float32 := return (← wantedNumber).toSingle

def wantedDouble : Reader Float := return (← wantedNumber).toDouble

/-- A whole number of at most `limit`, written without sign, point or exponent. -/
def wantedNatural (limit : Nat) : Reader Nat := do
  match ← wantedNumber with
  | .natural n => if n.toNat ≤ limit then return n.toNat else throw .mistyped
  | _ => throw .mistyped

def wantedBool : Reader Bool := do
  match ← upcoming with
  | 't' =>
    literal ['t', 'r', 'u', 'e']
    return true
  | 'f' =>
    literal ['f', 'a', 'l', 's', 'e']
    return false
  | _ => refuse

end Reader

end RealtimeAudio.Json
