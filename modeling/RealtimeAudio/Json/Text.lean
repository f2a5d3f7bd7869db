import RealtimeAudio.Json.Reader

/-! JSON strings, from the character after the opening quote to the closing quote.
A string that is wanted is decoded and its surrogates have to pair up; in one that is
passed over, an escaped code unit only needs its four digits. -/
namespace RealtimeAudio.Json.Reader

def hexValue? (c : Char) : Option Nat :=
  if isDigit c then some (digitValue c)
  else if 'a' ≤ c && c ≤ 'f' then some (c.toNat - 87)
  else if 'A' ≤ c && c ≤ 'F' then some (c.toNat - 55)
  else none

def hexNumber? (cs : List Char) : Option Nat :=
  cs.foldlM (fun n c => (hexValue? c).map (16 * n + ·)) 0

/-- The code unit after `\u`. The text counts as ended when fewer than four bytes of
it remain. -/
def codeUnit : Reader Nat := do
  let text ← get
  let taken := text.take 4
  if taken.foldl (fun n c => n + c.utf8Size) 0 < 4 then throw .truncated
  match hexNumber? taken with
  | some n =>
    set (text.drop 4)
    return n
  | none => throw .malformed

def escaped? : Char → Option Char
  | '"' => some '"'
  | '\\' => some '\\'
  | '/' => some '/'
  | 'b' => some '\x08'
  | 'f' => some '\x0c'
  | 'n' => some '\n'
  | 'r' => some '\r'
  | 't' => some '\t'
  | _ => none

/-- The next character, with no blanks skipped. -/
def following : Reader Char := do
  match ← peek with
  | some c => return c
  | none => throw .truncated

def exactly (c : Char) : Reader Unit := do
  if (← following) = c then advance else throw .malformed

/-- An escaped character beyond the one-letter escapes: one code unit, or two that
form a surrogate pair. -/
def codePoint : Reader Char := do
  let high ← codeUnit
  if 0xdc00 ≤ high && high ≤ 0xdfff then throw .malformed
  if high < 0xd800 || 0xdbff < high then return Char.ofNat high
  exactly '\\'
  exactly 'u'
  let low ← codeUnit
  if low < 0xdc00 || 0xdfff < low then throw .malformed
  return Char.ofNat (0x10000 + (high - 0xd800) * 0x400 + (low - 0xdc00))

/-- One character of a string, or nothing at its closing quote. `wide` reads what
follows `\u`. -/
def stringStep (wide : Reader Char) : Reader (Option Char) := do
  let c ← following
  advance
  if c = '"' then return none
  if c.toNat < 0x20 then throw .malformed
  if c ≠ '\\' then return some c
  let e ← following
  advance
  if e = 'u' then return some (← wide)
  match escaped? e with
  | some d => return some d
  | none => throw .malformed

/-- Steps up to the closing quote, in front of the characters `read` so far, latest
first. Each step takes a character, so the text ahead is fuel enough. -/
def stringLoop (wide : Reader Char) :
    (fuel : List Char) → (read : List Char) → Reader (List Char)
  | [], _ => throw .truncated
  | _ :: fuel, read => do
    match ← stringStep wide with
    | none => return read.reverse
    | some c => stringLoop wide fuel (c :: read)

def string : Reader (List Char) := do
  stringLoop codePoint (← get) []

def passString : Reader Unit := do
  let _ ← stringLoop (do let _ ← codeUnit; return ' ') (← get) []

end RealtimeAudio.Json.Reader
