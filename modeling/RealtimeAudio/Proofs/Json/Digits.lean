import Mathlib.Data.Nat.Digits.Lemmas
import RealtimeAudio.Json.Record
import RealtimeAudio.Proofs.Json.Grammar

/-! Digits, written and read. What a reader does on the text of a value is stated in front of what
may follow the value, which is nothing more, or a comma, a closing bracket or a blank: none of the
readers takes it. -/
namespace RealtimeAudio.Json

/-- A character that ends a value before it. -/
def isEnd (c : Char) : Bool := c == ',' || c == '}' || c == ']' || isBlank c

/-- What may follow a value. -/
def Ends (rest : List Char) : Prop := ∀ c tail, rest = c :: tail → isEnd c = true

theorem ends_nil : Ends [] := nofun

theorem ends_cons {c : Char} (mark : isEnd c = true) (tail : List Char) : Ends (c :: tail) := by
  rintro d _ same
  exact (List.cons.inj same).1 ▸ mark

theorem Ends.isEnd {c : Char} {tail : List Char} (ends : Ends (c :: tail)) : isEnd c = true :=
  ends c tail rfl

theorem digits_append {a b : List Char} (first : Digits a) (second : Digits b) :
    Digits (a ++ b) := fun c mem => (List.mem_append.mp mem).elim (first c) (second c)

theorem digits_zeros (k : ℕ) : Digits (List.replicate k '0') := fun c mem => by
  rw [List.eq_of_mem_replicate mem]
  rfl

theorem digits_natural (n : ℕ) : Digits (natural n) := fun _ mem =>
  Nat.isDigit_of_mem_toDigits (by norm_num) le_rfl mem

theorem natural_ne_nil (n : ℕ) : natural n ≠ [] := Nat.toDigits_ne_nil

/-- A number does not start with a zero. -/
theorem head_natural {n : ℕ} (some : 0 < n) : (natural n).head? ≠ .some '0' := by
  unfold natural
  induction n using Nat.strong_induction_on with
  | _ n ih =>
    rcases Nat.lt_or_ge n 10 with one | more
    · rw [Nat.toDigits_of_lt_base one, List.head?_cons, Ne, Option.some_inj, Nat.digitChar_eq_zero]
      exact some.ne'
    · rw [Nat.toDigits_of_base_le (by norm_num) more,
        List.head?_append_of_ne_nil _ Nat.toDigits_ne_nil]
      exact ih (n / 10) (by omega) (by omega)

theorem ofDigitChars_natural (n : ℕ) : Nat.ofDigitChars 10 (natural n) 0 = n :=
  Nat.ofDigitChars_ten_toDigits

theorem spellsInteger_signed (k : ℤ) : SpellsInteger (Layout.signed true k) k := by
  have digits := digits_natural k.natAbs
  have nonempty := natural_ne_nil k.natAbs
  have value := ofDigitChars_natural k.natAbs
  rcases Int.lt_or_le k 0 with below | above
  · have text : Layout.signed true k = '-' :: natural k.natAbs := by
      rw [Layout.signed, if_pos below]
      rfl
    have same : k = -(Nat.ofDigitChars 10 (natural k.natAbs) 0 : ℕ) := by omega
    rw [text]
    nth_rewrite 2 [same]
    exact .minus digits nonempty
  · have text : Layout.signed true k = '+' :: natural k.natAbs := by
      rw [Layout.signed, if_neg (not_lt.mpr above)]
      rfl
    have same : k = (Nat.ofDigitChars 10 (natural k.natAbs) 0 : ℕ) := by omega
    rw [text]
    nth_rewrite 2 [same]
    exact .plus digits nonempty

namespace Significand

theorem le_ofDigitChars (n : ℕ) (cs : List Char) : n ≤ Nat.ofDigitChars 10 cs n := by
  induction cs generalizing n with
  | nil => exact le_rfl
  | cons c cs ih =>
    rw [Nat.ofDigitChars_cons]
    exact (by omega : n ≤ 10 * n + (c.toNat - '0'.toNat)).trans (ih _)

/-- Digits that fit are all taken. -/
theorem wholeDigits_eq {cs : List Char} {n : ℕ} {g : ℤ}
    (fits : Nat.ofDigitChars 10 cs n < UInt64.size) :
    wholeDigits ⟨n, g⟩ cs = ⟨Nat.ofDigitChars 10 cs n, g⟩ := by
  induction cs generalizing n with
  | nil => rfl
  | cons c cs ih =>
    have next : 10 * n + digitValue c < UInt64.size := (le_ofDigitChars _ cs).trans_lt fits
    rw [wholeDigits]
    dsimp only
    rw [if_pos next]
    exact ih fits

theorem fractionDigits_eq {cs : List Char} {n : ℕ} {g : ℤ}
    (fits : Nat.ofDigitChars 10 cs n < UInt64.size) :
    fractionDigits ⟨n, g⟩ cs = ⟨Nat.ofDigitChars 10 cs n, g - cs.length⟩ := by
  induction cs generalizing n g with
  | nil => simp [fractionDigits, Nat.ofDigitChars]
  | cons c cs ih =>
    have next : 10 * n + digitValue c < UInt64.size := (le_ofDigitChars _ cs).trans_lt fits
    have count : g - 1 - cs.length = g - (c :: cs).length := by
      rw [List.length_cons]
      push_cast
      ring
    rw [fractionDigits]
    dsimp only
    rw [if_pos next, ← count]
    exact ih fits

end Significand

/-- A reader takes the front of a text and leaves the rest. -/
def Yields {α : Type} (reader : Reader α) (text : List Char) (a : α) (rest : List Char) : Prop :=
  StateT.run reader text = .ok (a, rest)

/-- A reader stops at a fault. -/
def Refuses {α : Type} (reader : Reader α) (text : List Char) (fault : ReadError) : Prop :=
  StateT.run reader text = .error fault

section Sequence
variable {α β : Type} {x : Reader α} {f : α → Reader β} {a : α} {b : β} {s t u : List Char}
  {fault : ReadError}

theorem Yields.run_bind (first : Yields x s a t) :
    StateT.run (x >>= f) s = StateT.run (f a) t := by
  unfold Yields at first
  rw [StateT.run_bind, first]
  rfl

theorem Yields.bind (first : Yields x s a t) (second : Yields (f a) t b u) :
    Yields (x >>= f) s b u := first.run_bind.trans second

theorem Yields.map (read : Yields x s a t) (g : α → β) : Yields (g <$> x) s (g a) t := by
  unfold Yields at *
  rw [StateT.run_map, read]
  rfl

theorem Refuses.bind (first : Refuses x s fault) : Refuses (x >>= f) s fault := by
  unfold Refuses at *
  rw [StateT.run_bind, first]
  rfl

theorem Refuses.map (refused : Refuses x s fault) (g : α → β) : Refuses (g <$> x) s fault := by
  unfold Refuses at *
  rw [StateT.run_map, refused]
  rfl

theorem Yields.refuses (first : Yields x s a t) (second : Refuses (f a) t fault) :
    Refuses (x >>= f) s fault := first.run_bind.trans second

end Sequence

namespace Reader
variable {rest : List Char}

theorem yields_pure {α : Type} (a : α) (text : List Char) : Yields (pure a) text a text := rfl

theorem yields_peek (text : List Char) : Yields peek text text.head? text := rfl

theorem yields_advance (c : Char) (rest : List Char) : Yields advance (c :: rest) () rest := rfl

theorem yields_get (text : List Char) : Yields get text text text := rfl

/-- Nothing for `digits` to take. -/
def Stops (rest : List Char) : Prop := ∀ c tail, rest = c :: tail → isDigit c = false

theorem not_digit_of_end {c : Char} (mark : isEnd c = true) : isDigit c = false := by
  unfold isEnd isBlank at mark
  simp only [Bool.or_eq_true, beq_iff_eq] at mark
  rcases mark with ((rfl | rfl) | rfl) | ((rfl | rfl) | rfl) | rfl <;> rfl

theorem stops_of_ends (ends : Ends rest) : Stops rest := fun c tail same =>
  not_digit_of_end (ends c tail same)

theorem yields_digits {cs : List Char} (some : Digits cs) (stops : Stops rest) :
    Yields digits (cs ++ rest) cs rest := by
  have taken : (cs ++ rest).takeWhile isDigit = cs := by
    rw [List.takeWhile_append_of_pos some]
    cases rest with
    | nil => simp
    | cons c tail => simp [stops c tail rfl]
  have left : (cs ++ rest).dropWhile isDigit = rest := by
    rw [List.dropWhile_append_of_pos some]
    cases rest with
    | nil => rfl
    | cons c tail => simp [stops c tail rfl]
  change Except.ok ((cs ++ rest).takeWhile isDigit, (cs ++ rest).dropWhile isDigit) = _
  rw [taken, left]

theorem yields_someDigits {cs : List Char} (some : Digits cs) (nonempty : cs ≠ [])
    (stops : Stops rest) : Yields someDigits (cs ++ rest) cs rest := by
  refine (yields_digits some stops).bind ?_
  cases cs with
  | nil => contradiction
  | cons c cs => rfl

theorem yields_wholePart {cs : List Char} (some : Digits cs) (nonempty : cs ≠ [])
    (leads : cs.head? ≠ .some '0' ∨ cs.length = 1) (stops : Stops rest) :
    Yields wholePart (cs ++ rest) cs rest := by
  refine (yields_someDigits some nonempty stops).bind ?_
  split
  · simp at leads
  · rfl

theorem head_digits {cs : List Char} (some : Digits cs) (nonempty : cs ≠ []) {c : Char}
    (other : isDigit c = false) (s : List Char) : (cs ++ s).head? ≠ .some c := by
  cases cs with
  | nil => contradiction
  | cons d cs =>
    rw [List.cons_append, List.head?_cons, Ne, Option.some_inj]
    rintro rfl
    exact absurd (some d List.mem_cons_self) (by simp [other])

theorem yields_exponentPart {text : List Char} {k : ℤ} (spelled : SpellsInteger text k)
    (stops : Stops rest) : Yields exponentPart (text ++ rest) k rest := by
  cases spelled with
  | @plain cs digits nonempty =>
    have plus : (text ++ rest).head? ≠ some '+' := head_digits digits nonempty rfl rest
    have minus : (text ++ rest).head? ≠ some '-' := head_digits digits nonempty rfl rest
    refine (yields_peek _).bind ?_
    rw [decide_eq_false plus, decide_eq_false minus]
    refine (yields_someDigits digits nonempty stops).bind ?_
    dsimp only
    rw [if_neg minus]
    exact yields_pure _ _
  | @plus cs digits nonempty =>
    exact (yields_peek _).bind ((yields_advance _ _).bind
      ((yields_someDigits digits nonempty stops).bind (yields_pure _ _)))
  | @minus cs digits nonempty =>
    exact (yields_peek _).bind ((yields_advance _ _).bind
      ((yields_someDigits digits nonempty stops).bind (yields_pure _ _)))

/-- The minus in front of a number. -/
def signPart : Reader Bool := do
  if (← peek) = some '-' then
    advance
    return true
  else return false

/-- The point and the digits after it. -/
def fractionPart (taken : Significand) : Reader (Bool × Significand) := do
  if (← peek) = some '.' then
    advance
    return (true, taken.fractionDigits (← someDigits))
  else return (false, taken)

def powerPart (taken : Significand) : Reader (Bool × Significand) := do
  let next ← peek
  if next = some 'e' || next = some 'E' then
    advance
    return (true, { taken with exponent := taken.exponent + (← exponentPart) })
  else return (false, taken)

def conclude (negative : Bool) (whole : Bool) (taken : Significand) : Reader Number := do
  let n := UInt64.ofNat taken.significand
  if whole && taken.exponent = 0 then
    if !negative then return .natural n
    if 0 < taken.significand && taken.significand ≤ UInt64.size / 2 then return .negative n
  match taken.toDouble? with
  | some x => return .decimal (if negative then -x else x)
  | none => throw .malformed

/-- A number is read part by part. -/
theorem number_eq : number = (do
    let negative ← signPart
    let whole ← wholePart
    let fraction ← fractionPart (Significand.wholeDigits ⟨0, 0⟩ whole)
    let power ← powerPart fraction.2
    conclude negative (!fraction.1 && !power.1) power.2) := by
  unfold number signPart fractionPart powerPart conclude
  simp only [bind_assoc]
  refine bind_congr fun sign => ?_
  by_cases minus : sign = some '-' <;>
    simp only [minus, if_true, if_false, bind_assoc, pure_bind]
  on_goal 1 => refine bind_congr fun _ => ?_
  all_goals
    refine bind_congr fun whole => bind_congr fun mark => ?_
    by_cases point : mark = some '.' <;>
      simp only [point, if_true, if_false, bind_assoc, pure_bind]
    on_goal 1 => refine bind_congr fun _ => bind_congr fun fraction => ?_
    all_goals
      refine bind_congr fun next => ?_
      by_cases power : (decide (next = some 'e') || decide (next = some 'E')) = true <;>
        simp only [power, if_true, bind_assoc, pure_bind] <;> rfl

theorem yields_signPart {s : List Char} (other : s.head? ≠ some '-') :
    Yields signPart s false s := by
  refine (yields_peek s).bind ?_
  rw [if_neg other]
  exact yields_pure _ _

theorem yields_signPart_minus (s : List Char) : Yields signPart ('-' :: s) true s := rfl

theorem yields_fractionPart {s : List Char} (taken : Significand) (other : s.head? ≠ some '.') :
    Yields (fractionPart taken) s (false, taken) s := by
  refine (yields_peek s).bind ?_
  rw [if_neg other]
  exact yields_pure _ _

theorem yields_fractionPart_point {cs : List Char} (taken : Significand) (some : Digits cs)
    (nonempty : cs ≠ []) (stops : Stops rest) :
    Yields (fractionPart taken) ('.' :: (cs ++ rest)) (true, taken.fractionDigits cs) rest :=
  (yields_peek _).bind ((yields_advance _ _).bind
    ((yields_someDigits some nonempty stops).bind (yields_pure _ _)))

theorem yields_powerPart {s : List Char} (taken : Significand) (other : s.head? ≠ some 'e')
    (capital : s.head? ≠ some 'E') : Yields (powerPart taken) s (false, taken) s := by
  refine (yields_peek s).bind ?_
  rw [if_neg (by simp [other, capital])]
  exact yields_pure _ _

theorem yields_powerPart_power {e : Char} {text : List Char} {k : ℤ} (taken : Significand)
    (mark : e = 'e' ∨ e = 'E') (spelled : SpellsInteger text k) (stops : Stops rest) :
    Yields (powerPart taken) (e :: (text ++ rest))
      (true, { taken with exponent := taken.exponent + k }) rest := by
  refine (yields_peek _).bind ?_
  rw [if_pos (by simpa using mark)]
  exact (yields_advance _ _).bind ((yields_exponentPart spelled stops).bind (yields_pure _ _))

end Reader

end RealtimeAudio.Json
