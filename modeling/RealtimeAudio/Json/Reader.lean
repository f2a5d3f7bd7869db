import RealtimeAudio.Json.Codec

/-! Reading JSON text from the front. A reader takes what it needs off the remaining
characters and stops at the first fault, so of two faults the earlier one is
reported, and nothing after it is looked at. -/
namespace RealtimeAudio.Json

/-- A computation on the characters that remain. -/
abbrev Reader := StateT (List Char) (Except ReadError)

def isBlank (c : Char) : Bool :=
  c == ' ' || c == '\n' || c == '\t' || c == '\r'

def isDigit (c : Char) : Bool := '0' ≤ c && c ≤ '9'

def digitValue (c : Char) : Nat := c.toNat - 48

namespace Reader

/-- The next character, if there is one; it stays. -/
def peek : Reader (Option Char) := return (← get).head?

def advance : Reader Unit := modify List.tail

/-- The next character past blanks; it stays. -/
def upcoming : Reader Char := do
  modify (List.dropWhile isBlank)
  match ← peek with
  | some c => return c
  | none => throw .truncated

def literal : (text : List Char) → Reader Unit
  | [] => return
  | c :: rest => do
    match ← peek with
    | none => throw .truncated
    | some d => if d = c then advance; literal rest else throw .malformed

/-- A mark such as a colon, after blanks. -/
def mark (c : Char) : Reader Unit := do
  if (← upcoming) = c then advance else throw .malformed

def digits : Reader (List Char) :=
  modifyGet fun text => (text.takeWhile isDigit, text.dropWhile isDigit)

/-- Read a whole text: nothing but blanks may follow. -/
def run (reader : Reader α) (text : List Char) : Except ReadError α := do
  let (a, rest) ← StateT.run reader text
  if rest.all isBlank then return a else throw .malformed

end Reader

end RealtimeAudio.Json
