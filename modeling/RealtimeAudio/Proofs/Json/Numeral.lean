import RealtimeAudio.Proofs.Json.Digits

/-! The text of a number in its parts, and what reading it takes from them. -/
namespace RealtimeAudio.Json
open Reader

namespace Numeral
variable (n : Numeral)

def powerText : List Char :=
  match n.power with
  | none => []
  | some k => 'e' :: Layout.signed true k

def text : List Char := n.signText ++ n.whole ++ n.pointText ++ n.powerText

def isWhole : Bool := n.fraction.isEmpty && n.power.isNone

def mantissa : Significand := (Significand.wholeDigits ⟨0, 0⟩ n.whole).fractionDigits n.fraction

def taken : Significand := { n.mantissa with exponent := n.mantissa.exponent + n.power.getD 0 }

variable {n} {rest power text : List Char}

theorem spellsPower_powerText : SpellsPower n.powerText n.power := by
  unfold powerText
  cases n.power with
  | none => exact .none
  | some k => exact .power (.inl rfl) (spellsInteger_signed k)

theorem spelledBy_text : n.SpelledBy n.text := ⟨_, spellsPower_powerText, rfl⟩

/-- What follows a numeral, put behind its last part. -/
theorem SpelledBy.parts (spelled : n.SpelledBy text) (rest : List Char) :
    ∃ power, SpellsPower power n.power ∧
      text ++ rest = n.signText ++ (n.whole ++ (n.pointText ++ (power ++ rest))) := by
  obtain ⟨power, spelled, rfl⟩ := spelled
  exact ⟨power, spelled, by simp only [List.append_assoc]⟩

theorem head_of_ends {c : Char} (ends : Ends rest) (other : isEnd c = false) :
    rest.head? ≠ some c := by
  cases rest with
  | nil => simp
  | cons d tail =>
    rw [List.head?_cons, Ne, Option.some_inj]
    rintro rfl
    exact absurd ends.isEnd (by simp [other])

theorem yields_power (s : Significand) {k : Option ℤ} (spelled : SpellsPower power k)
    (ends : Ends rest) : Yields (powerPart s) (power ++ rest)
      (k.isSome, { s with exponent := s.exponent + k.getD 0 }) rest := by
  cases spelled with
  | none =>
    rw [Option.getD_none, add_zero]
    exact yields_powerPart s (head_of_ends ends rfl) (head_of_ends ends rfl)
  | power mark spelled => exact yields_powerPart_power s mark spelled (stops_of_ends ends)

theorem stops_power {k : Option ℤ} (spelled : SpellsPower power k) (ends : Ends rest) :
    Stops (power ++ rest) := by
  cases spelled with
  | none => exact stops_of_ends ends
  | power mark spelled =>
    rintro c tail same
    obtain ⟨rfl, -⟩ := List.cons.inj same
    rcases mark with rfl | rfl <;> rfl

theorem head_power {k : Option ℤ} (spelled : SpellsPower power k) (ends : Ends rest) :
    (power ++ rest).head? ≠ some '.' := by
  cases spelled with
  | none => exact head_of_ends ends rfl
  | power mark spelled => rcases mark with rfl | rfl <;> simp

theorem yields_fraction (s : Significand) (sound : n.Sound) (spelled : SpellsPower power n.power)
    (ends : Ends rest) : Yields (fractionPart s) (n.pointText ++ (power ++ rest))
      (!n.fraction.isEmpty, s.fractionDigits n.fraction) (power ++ rest) := by
  unfold pointText
  split
  · rename_i none
    rw [none, List.nil_append]
    exact yields_fractionPart s (head_power spelled ends)
  · rename_i more
    have nonempty : n.fraction.isEmpty = false := by simpa using more
    rw [nonempty]
    exact yields_fractionPart_point s sound.fraction more (stops_power spelled ends)

theorem stops_pointText (spelled : SpellsPower power n.power) (ends : Ends rest) :
    Stops (n.pointText ++ (power ++ rest)) := by
  unfold pointText
  split
  · rw [List.nil_append]
    exact stops_power spelled ends
  · rintro c tail same
    obtain ⟨rfl, -⟩ := List.cons.inj same
    rfl

theorem yields_sign (sound : n.Sound) (s : List Char) :
    Yields signPart (n.signText ++ (n.whole ++ s)) n.negative (n.whole ++ s) := by
  unfold signText
  split
  · rename_i minus
    rw [minus]
    exact yields_signPart_minus _
  · rename_i plus
    rw [Bool.not_eq_true] at plus
    rw [plus]
    exact yields_signPart (head_digits sound.whole sound.nonempty rfl s)

/-- The number that a numeral stands for, unless it is beyond every binary64 number. -/
def number? (n : Numeral) : Option Number :=
  let s := n.taken
  if n.isWhole && s.exponent = 0 && !n.negative then some (.natural (.ofNat s.significand))
  else if n.isWhole && s.exponent = 0 && (0 < s.significand && s.significand ≤ UInt64.size / 2) then
    some (.negative (.ofNat s.significand))
  else s.toDouble?.map fun x => .decimal (if n.negative then -x else x)

theorem yields_conclude {v : Number} (value : n.number? = some v) :
    Yields (conclude n.negative n.isWhole n.taken) rest v rest := by
  unfold number? at value
  unfold conclude
  dsimp only at value ⊢
  generalize (n.isWhole && decide (n.taken.exponent = 0)) = whole at *
  generalize (decide (0 < n.taken.significand) &&
    decide (n.taken.significand ≤ UInt64.size / 2)) = small at *
  generalize n.negative = negative at *
  generalize n.taken.toDouble? = x at *
  -- Both choose by the same conditions.
  cases whole <;> cases negative <;> cases small <;> cases x <;> cases value <;>
    exact yields_pure _ _

/-- A numeral is read as the number that it stands for, however it is spelled. -/
theorem yields_number {v : Number} (sound : n.Sound) (spelled : n.SpelledBy text)
    (value : n.number? = some v) (ends : Ends rest) : Yields number (text ++ rest) v rest := by
  obtain ⟨power, spelled, parts⟩ := spelled.parts rest
  rw [number_eq, parts]
  refine (yields_sign sound _).bind ?_
  refine (yields_wholePart sound.whole sound.nonempty sound.leads
    (stops_pointText spelled ends)).bind ?_
  refine (yields_fraction _ sound spelled ends).bind ((yields_power _ spelled ends).bind ?_)
  dsimp only
  rw [Bool.not_not, Option.not_isSome]
  exact yields_conclude value

/-- A number with a point or an exponent is read in binary64. -/
theorem yields_decimal {x : Float} (sound : n.Sound) (ends : Ends rest)
    (marked : n.isWhole = false) (read : n.taken.toDouble? = some x) :
    Yields number (n.text ++ rest) (.decimal (if n.negative then -x else x)) rest := by
  refine yields_number sound spelledBy_text ?_ ends
  unfold number?
  dsimp only
  rw [marked, read]
  rfl

end Numeral

theorem natural_sound (n : ℕ) : Numeral.Sound ⟨false, natural n, [], none⟩ := by
  refine ⟨digits_natural n, natural_ne_nil n, ?_, fun c mem => by cases mem⟩
  rcases Nat.eq_zero_or_pos n with rfl | some
  · exact Or.inr rfl
  · exact Or.inl (head_natural some)

theorem natural_text (n : ℕ) : Numeral.text ⟨false, natural n, [], none⟩ = natural n := by
  simp [Numeral.text, Numeral.signText, Numeral.pointText, Numeral.powerText]

/-- A whole number of 64 bits is read as it is. -/
theorem yields_natural {n : ℕ} {rest : List Char} (fits : n < UInt64.size) (ends : Ends rest) :
    Yields number (natural n ++ rest) (.natural (.ofNat n)) rest := by
  have value := ofDigitChars_natural n
  have taken : Numeral.taken ⟨false, natural n, [], none⟩ = ⟨n, 0⟩ := by
    unfold Numeral.taken Numeral.mantissa
    dsimp only
    rw [Significand.wholeDigits_eq (by rwa [value]), value]
    rfl
  rw [← natural_text]
  refine Numeral.yields_number (natural_sound n) Numeral.spelledBy_text ?_ ends
  unfold Numeral.number?
  rw [taken]
  rfl

end RealtimeAudio.Json
