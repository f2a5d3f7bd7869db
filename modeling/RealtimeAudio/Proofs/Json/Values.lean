import RealtimeAudio.Json.Record
import RealtimeAudio.Proofs.Json.Numeral
import RealtimeAudio.Proofs.Json.Strings

/-! Values of the plain kinds. Which kind a value has is told by its first character, and blanks in
front of it are no matter to any reader. -/
namespace RealtimeAudio.Json
open Reader

variable {rest : List Char}

/-- The first character of a numeral tells it from other values. -/
theorem Numeral.head_spelled {n : Numeral} {text : List Char} (sound : n.Sound)
    (spelled : n.SpelledBy text) (rest : List Char) :
    ∃ c tail, text ++ rest = c :: tail ∧ (c = '-' ∨ isDigit c = true) := by
  obtain ⟨power, -, parts⟩ := spelled.parts rest
  obtain ⟨c, cs, whole⟩ := List.exists_cons_of_ne_nil sound.nonempty
  have digit : isDigit c = true := sound.whole c (whole ▸ List.mem_cons_self)
  rw [parts, whole, Numeral.signText]
  split
  · exact ⟨'-', _, rfl, Or.inl rfl⟩
  · exact ⟨c, _, rfl, Or.inr digit⟩

theorem isBlank_of_number {c : Char} (starts : c = '-' ∨ isDigit c = true) : isBlank c = false := by
  rcases starts with rfl | digit
  · rfl
  · by_contra blank
    rw [Bool.not_eq_false] at blank
    unfold isBlank at blank
    simp only [Bool.or_eq_true, beq_iff_eq] at blank
    rcases blank with ((rfl | rfl) | rfl) | rfl <;> cases digit

theorem yields_wantedNumber {n : Numeral} {v : Number} {text : List Char} (sound : n.Sound)
    (spelled : n.SpelledBy text) (read : Yields number (text ++ rest) v rest) :
    Yields wantedNumber (text ++ rest) v rest := by
  obtain ⟨c, tail, text, starts⟩ := n.head_spelled sound spelled rest
  rw [text] at read ⊢
  refine (yields_upcoming (isBlank_of_number starts) tail).bind ?_
  rw [if_pos (by simpa using starts)]
  exact read

/-- A numeral is read as the binary32 number that it stands for. -/
theorem Numeral.yields_wantedSingle {n : Numeral} {v : Number} {text : List Char}
    (sound : n.Sound) (spelled : n.SpelledBy text) (value : n.number? = some v)
    (ends : Ends rest) : Yields wantedSingle (text ++ rest) v.toSingle rest :=
  (yields_wantedNumber sound spelled (Numeral.yields_number sound spelled value ends)).bind
    (yields_pure _ _)

/-- A value of the right kind for no number is refused. -/
theorem refuses_null : Refuses wantedSingle ('n' :: 'u' :: 'l' :: 'l' :: rest) .mistyped := rfl

theorem yields_wantedNatural {n limit : ℕ} (within : n ≤ limit) (fits : n < UInt64.size)
    (ends : Ends rest) : Yields (wantedNatural limit) (natural n ++ rest) n rest := by
  have sound : Numeral.Sound ⟨false, natural n, [], none⟩ := natural_sound n
  have read : Yields number (Numeral.text ⟨false, natural n, [], none⟩ ++ rest)
      (.natural (.ofNat n)) rest := by
    rw [natural_text]
    exact yields_natural fits ends
  have same : (UInt64.ofNat n).toNat = n := UInt64.toNat_ofNat_of_lt' fits
  rw [← natural_text]
  refine (yields_wantedNumber sound Numeral.spelledBy_text read).bind ?_
  dsimp only
  rw [same, if_pos within]
  exact yields_pure _ _

theorem skips_record {σ : Type} (fields : List (FieldReader σ)) (initial : σ) :
    Skips (record fields initial) := skips_upcoming.bind

theorem Kind.skips_reader {α : Type} (kind : Kind α) : Skips kind.reader := by
  cases kind with
  | bool => exact skips_upcoming.bind
  | natural => exact skips_upcoming.bind.bind
  | single => exact skips_upcoming.bind.bind
  | double => exact skips_upcoming.bind.bind
  | record fields initial => exact skips_record fields.readers initial

end RealtimeAudio.Json
