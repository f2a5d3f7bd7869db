import Mathlib.Data.Int.Notation
import Mathlib.Data.List.Induction
import RealtimeAudio.Json.Text
import RealtimeAudio.Json.Value

/-! The grammar of JSON: which texts are values, and which are objects of some members. Blanks may
stand in front of every token, a character of a string has many spellings, and brackets may be
nested to any depth. -/
namespace RealtimeAudio.Json
open Reader

section Numbers

/-- The digits that a reader takes. -/
def Digits (cs : List Char) : Prop := ∀ c ∈ cs, isDigit c = true

/-- The texts of an integer: a sign or none, and digits. -/
inductive SpellsInteger : List Char → ℤ → Prop
  | plain {cs : List Char} : Digits cs → cs ≠ [] → SpellsInteger cs (Nat.ofDigitChars 10 cs 0)
  | plus {cs : List Char} : Digits cs → cs ≠ [] →
      SpellsInteger ('+' :: cs) (Nat.ofDigitChars 10 cs 0)
  | minus {cs : List Char} : Digits cs → cs ≠ [] →
      SpellsInteger ('-' :: cs) (-(Nat.ofDigitChars 10 cs 0))

/-- The texts of an exponent, or of none. -/
inductive SpellsPower : List Char → Option ℤ → Prop
  | none : SpellsPower [] .none
  | power {e : Char} {text : List Char} {k : ℤ} : e = 'e' ∨ e = 'E' → SpellsInteger text k →
      SpellsPower (e :: text) (.some k)

/-- Without a fraction there is no point, and without a power no exponent. -/
structure Numeral where
  negative : Bool
  whole : List Char
  fraction : List Char
  power : Option ℤ

namespace Numeral
variable (n : Numeral)

def signText : List Char := if n.negative then ['-'] else []

def pointText : List Char := if n.fraction = [] then [] else '.' :: n.fraction

/-- The texts of a numeral, which differ in how the exponent is spelled. -/
def SpelledBy (text : List Char) : Prop :=
  ∃ power, SpellsPower power n.power ∧ text = n.signText ++ n.whole ++ n.pointText ++ power

/-- No zero stands in front of another digit. -/
structure Sound : Prop where
  whole : Digits n.whole
  nonempty : n.whole ≠ []
  leads : n.whole.head? ≠ some '0' ∨ n.whole.length = 1
  fraction : Digits n.fraction

end Numeral

def SpellsNumber (text : List Char) : Prop := ∃ n : Numeral, n.Sound ∧ n.SpelledBy text

end Numbers

section Strings

/-- What may stand between tokens. -/
def Blanks (cs : List Char) : Prop := ∀ c ∈ cs, isBlank c = true

theorem blanks_nil : Blanks [] := List.forall_mem_nil _

/-- The four digits of a code unit. -/
def SpellsUnit (text : List Char) (n : ℕ) : Prop := text.length = 4 ∧ hexNumber? text = some n

/-- What follows `\u` for a character: one code unit, or two that form a surrogate pair. -/
inductive SpellsPoint : List Char → Char → Prop
  | unit {text : List Char} {n : ℕ} : SpellsUnit text n → n < 0xd800 ∨ 0xdfff < n →
      SpellsPoint text (Char.ofNat n)
  | pair {text other : List Char} {high low : ℕ} : SpellsUnit text high → SpellsUnit other low →
      0xd800 ≤ high ∧ high ≤ 0xdbff → 0xdc00 ≤ low ∧ low ≤ 0xdfff →
      SpellsPoint (text ++ '\\' :: 'u' :: other)
        (Char.ofNat (0x10000 + (high - 0xd800) * 0x400 + (low - 0xdc00)))

/-- What follows `\u` in a string that nobody decodes: any code unit. -/
def SpellsAny (text : List Char) (c : Char) : Prop := (∃ n, SpellsUnit text n) ∧ c = ' '

/-- The spellings of one character; `wide` has those after `\u`. -/
inductive SpellsChar (wide : List Char → Char → Prop) : List Char → Char → Prop
  | plain {c : Char} : c ≠ '"' → c ≠ '\\' → 0x20 ≤ c.toNat → SpellsChar wide [c] c
  | letter {e c : Char} : escaped? e = some c → SpellsChar wide ['\\', e] c
  | wide {text : List Char} {c : Char} : wide text c → SpellsChar wide ('\\' :: 'u' :: text) c

/-- The spellings of a string, without its quotes. -/
inductive SpellsString (wide : List Char → Char → Prop) : List Char → List Char → Prop
  | nil : SpellsString wide [] []
  | cons {text more : List Char} {c : Char} {cs : List Char} : SpellsChar wide text c →
      SpellsString wide more cs → SpellsString wide (text ++ more) (c :: cs)

/-- Characters that stand for themselves in a string. -/
def isPlainText (cs : List Char) : Bool :=
  cs.all fun c => c != '"' && c != '\\' && 0x20 ≤ c.toNat

theorem spellsString_plain {wide : List Char → Char → Prop} {cs : List Char}
    (plain : isPlainText cs = true) : SpellsString wide cs cs := by
  induction cs with
  | nil => exact .nil
  | cons c cs ih =>
    unfold isPlainText at plain
    simp only [List.all_cons, Bool.and_eq_true, bne_iff_ne, decide_eq_true_eq] at plain
    obtain ⟨⟨⟨quote, escape⟩, control⟩, plain⟩ := plain
    exact .cons (.plain quote escape control) (ih plain)

end Strings

section Values

def Bracket.opening : Bracket → Char
  | array => '['
  | object => '{'

/-- The parts of the grammar. What is still to come of a bracket after one of its items is its
`rest`, with what closes it. -/
inductive Part
  | value
  | item (b : Bracket)
  | rest (b : Bracket)

/-- The texts of a part. A value has no blanks around it. -/
inductive Spells : Part → List Char → Prop
  | null : Spells .value ['n', 'u', 'l', 'l']
  | true : Spells .value ['t', 'r', 'u', 'e']
  | false : Spells .value ['f', 'a', 'l', 's', 'e']
  | number {text : List Char} : SpellsNumber text → Spells .value text
  | string {text cs : List Char} : SpellsString SpellsAny text cs →
      Spells .value ('"' :: (text ++ ['"']))
  | empty {b : Bracket} {blanks : List Char} : Blanks blanks →
      Spells .value (b.opening :: (blanks ++ [b.closing]))
  | bracket {b : Bracket} {item rest : List Char} : Spells (.item b) item → Spells (.rest b) rest →
      Spells .value (b.opening :: (item ++ rest))
  | element {blanks text : List Char} : Blanks blanks → Spells .value text →
      Spells (.item .array) (blanks ++ text)
  | member {before name cs between after text : List Char} : Blanks before →
      SpellsString SpellsAny name cs → Blanks between → Blanks after → Spells .value text →
      Spells (.item .object)
        (before ++ '"' :: (name ++ '"' :: (between ++ ':' :: (after ++ text))))
  | close {b : Bracket} {blanks : List Char} : Blanks blanks →
      Spells (.rest b) (blanks ++ [b.closing])
  | next {b : Bracket} {blanks item rest : List Char} : Blanks blanks → Spells (.item b) item →
      Spells (.rest b) rest → Spells (.rest b) (blanks ++ ',' :: (item ++ rest))

end Values

section Objects

/-- The texts of a member, which is a name and the text of a value, with the blanks in front. -/
inductive SpellsMember : String × List Char → List Char → Prop
  | member {name : String} {before text between after value : List Char} : Blanks before →
      SpellsString SpellsPoint text name.toList → Blanks between → Blanks after →
      Spells .value value → SpellsMember (name, value)
        (before ++ '"' :: (text ++ '"' :: (between ++ ':' :: (after ++ value))))

/-- The texts of members up to the bracket that closes them. A comma stands in front of each but
the `first`. -/
inductive SpellsMembers : (first : Bool) → List (String × List Char) → List Char → Prop
  | close {first : Bool} {blanks : List Char} : Blanks blanks → SpellsMembers first [] blanks
  | first {m : String × List Char} {ms : List (String × List Char)} {text more : List Char} :
      SpellsMember m text → SpellsMembers false ms more →
      SpellsMembers true (m :: ms) (text ++ more)
  | next {m : String × List Char} {ms : List (String × List Char)}
      {blanks text more : List Char} : Blanks blanks → SpellsMember m text →
      SpellsMembers false ms more → SpellsMembers false (m :: ms) (blanks ++ ',' :: (text ++ more))

def SpellsObject (ms : List (String × List Char)) (text : List Char) : Prop :=
  ∃ inside, SpellsMembers true ms inside ∧ text = '{' :: (inside ++ ['}'])

/-- An object with blanks around it. -/
def SpellsDocument (ms : List (String × List Char)) (text : List Char) : Prop :=
  ∃ before object after, Blanks before ∧ SpellsObject ms object ∧ Blanks after ∧
    text = before ++ (object ++ after)

theorem spellsString_wide {text : List Char} {c : Char} (spelled : SpellsPoint text c)
    {more cs : List Char} (later : SpellsString SpellsAny more cs) :
    ∃ ds, SpellsString SpellsAny ('\\' :: 'u' :: text ++ more) ds := by
  cases spelled with
  | @unit _ n unit => exact ⟨_, .cons (.wide ⟨⟨n, unit⟩, rfl⟩) later⟩
  | @pair text other high low unit unit' =>
    have both := SpellsString.cons (.wide ⟨⟨high, unit⟩, rfl⟩)
      (.cons (.wide ⟨⟨low, unit'⟩, rfl⟩) later)
    exact ⟨_, by simpa using both⟩

/-- A string that is decoded is a string. -/
theorem spellsString_any {text cs : List Char} (spelled : SpellsString SpellsPoint text cs) :
    ∃ ds, SpellsString SpellsAny text ds := by
  induction spelled with
  | nil => exact ⟨[], .nil⟩
  | cons first _ ih =>
    obtain ⟨ds, later⟩ := ih
    cases first with
    | plain quote escape control => exact ⟨_, .cons (.plain quote escape control) later⟩
    | letter value => exact ⟨_, .cons (.letter value) later⟩
    | wide spelled => exact spellsString_wide spelled later

theorem SpellsMember.item {m : String × List Char} {text : List Char}
    (spelled : SpellsMember m text) : Spells (.item .object) text := by
  cases spelled with
  | member blank named between after value =>
    obtain ⟨ds, named⟩ := spellsString_any named
    exact .member blank named between after value

theorem SpellsMembers.rest {first : Bool} {ms : List (String × List Char)} {text : List Char}
    (spelled : SpellsMembers first ms text) (later : first = false) :
    Spells (.rest .object) (text ++ ['}']) := by
  induction spelled with
  | close blank => exact .close blank
  | first => cases later
  | next blank member _ ih =>
    rw [List.append_assoc, List.cons_append, List.append_assoc]
    exact .next blank member.item (ih rfl)

/-- An object is a value. -/
theorem SpellsObject.value {ms : List (String × List Char)} {text : List Char}
    (spelled : SpellsObject ms text) : Spells .value text := by
  obtain ⟨inside, spelled, rfl⟩ := spelled
  cases spelled with
  | close blank => exact .empty (b := .object) blank
  | first member later =>
    rw [List.append_assoc]
    exact .bracket member.item (later.rest rfl)

theorem SpellsObject.document {ms : List (String × List Char)} {text : List Char}
    (spelled : SpellsObject ms text) : SpellsDocument ms text :=
  ⟨[], text, [], blanks_nil, spelled, blanks_nil, (List.append_nil text).symm⟩

end Objects

end RealtimeAudio.Json
