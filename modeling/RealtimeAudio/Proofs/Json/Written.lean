import RealtimeAudio.Proofs.Json.Numeral
import RealtimeAudio.Proofs.Decimal.Shortest

/-! The text of a decimal in JSON, part by part. Reading takes the digits and the exponent from it
again; of a whole number it takes the `0` after the point as one digit more. -/
namespace RealtimeAudio.Json
open Layout

/-- The parts of a decimal as `jsonSingle` writes it. -/
def numeral (negative : Bool) (d : Decimal) : Numeral :=
  let text := natural d.digits
  if jsonSingle.isPlain d then
    if 0 ≤ d.exponent then ⟨negative, text ++ List.replicate d.exponent.toNat '0', ['0'], none⟩
    else if 0 ≤ d.leading then
      ⟨negative, text.take (d.leading.toNat + 1), text.drop (d.leading.toNat + 1), none⟩
    else ⟨negative, ['0'], List.replicate (-d.leading - 1).toNat '0' ++ text, none⟩
  else ⟨negative, text.take 1, text.drop 1, some d.leading⟩

theorem leading_eq (d : Decimal) : d.leading = d.exponent + (natural d.digits).length - 1 := rfl

theorem length_natural_pos (n : ℕ) : 0 < (natural n).length := Nat.length_toDigits_pos

theorem text_of_fraction (negative : Bool) (whole : List Char) {fraction : List Char}
    (some : fraction ≠ []) : Numeral.text ⟨negative, whole, fraction, none⟩ =
      (if negative then ['-'] else []) ++ (whole ++ '.' :: fraction) := by
  simp [Numeral.text, Numeral.signText, Numeral.pointText, Numeral.powerText, some]

theorem text_of_power (negative : Bool) (whole fraction : List Char) (k : ℤ) :
    Numeral.text ⟨negative, whole, fraction, some k⟩ = (if negative then ['-'] else []) ++
      (whole ++ (if fraction = [] then [] else '.' :: fraction) ++ 'e' :: signed true k) := by
  simp [Numeral.text, Numeral.signText, Numeral.pointText, Numeral.powerText]

section Decimal
variable (negative : Bool) (d : Decimal)

/-- The digits after the point of a number between one and its last digit. -/
theorem fraction_ne_nil {d : Decimal} (down : d.exponent < 0) (above : 0 ≤ d.leading) :
    (natural d.digits).drop (d.leading.toNat + 1) ≠ [] := by
  have length := leading_eq d
  rw [Ne, List.drop_eq_nil_iff]
  omega

theorem numeral_text : (numeral negative d).text =
    (if negative then ['-'] else []) ++
      if jsonSingle.isPlain d then jsonSingle.plainText d else jsonSingle.exponentText d := by
  have positive := length_natural_pos d.digits
  unfold numeral plainText exponentText
  dsimp only
  split
  · split
    · exact text_of_fraction negative _ (by simp)
    · split
      · rename_i down above
        exact text_of_fraction negative _ (fraction_ne_nil (not_le.mp down) above)
      · refine text_of_fraction negative _ ?_
        simp [natural_ne_nil]
  · rw [text_of_power]
    have single : (natural d.digits).drop 1 = [] ↔ (natural d.digits).length = 1 := by
      rw [List.drop_eq_nil_iff]
      omega
    simp only [single]
    rfl

theorem numeral_negative : (numeral negative d).negative = negative := by
  unfold numeral
  dsimp only
  split
  · split
    · rfl
    · split <;> rfl
  · rfl

/-- Numbers are never written as whole numbers. -/
theorem numeral_isWhole : (numeral negative d).isWhole = false := by
  unfold numeral Numeral.isWhole
  dsimp only
  split
  · split
    · rfl
    · split
      · rename_i down above
        simp [fraction_ne_nil (not_le.mp down) above]
      · simp [natural_ne_nil]
  · simp

theorem digits_take {cs : List Char} (some : Digits cs) (k : ℕ) : Digits (cs.take k) :=
  fun c mem => some c (List.mem_of_mem_take mem)

theorem digits_drop {cs : List Char} (some : Digits cs) (k : ℕ) : Digits (cs.drop k) :=
  fun c mem => some c (List.mem_of_mem_drop mem)

theorem head_take {n : ℕ} (some : 0 < n) (k : ℕ) :
    ((natural n).take (k + 1)).head? ≠ .some '0' := by
  have other := head_natural some
  generalize natural n = cs at *
  cases cs with
  | nil => simp
  | cons c cs => simpa using other

theorem numeral_sound (whole : d.digits = 0 → d.exponent = 0) : (numeral negative d).Sound := by
  have digits := digits_natural d.digits
  have nonempty := natural_ne_nil d.digits
  rcases Nat.eq_zero_or_pos d.digits with zero | some
  · have exponent := whole zero
    have value : numeral negative d = ⟨negative, ['0'], ['0'], none⟩ := by
      obtain ⟨_, _⟩ := d
      subst zero exponent
      rfl
    rw [value]
    exact ⟨digits_zeros 1, by simp, Or.inr rfl, digits_zeros 1⟩
  · unfold numeral
    dsimp only
    split
    · split
      · refine ⟨digits_append digits (digits_zeros _), by simp [nonempty], Or.inl ?_, digits_zeros 1⟩
        dsimp only
        rw [List.head?_append_of_ne_nil _ nonempty]
        exact head_natural some
      · split
        · exact ⟨digits_take digits _, by simp [nonempty], Or.inl (head_take some _),
            digits_drop digits _⟩
        · exact ⟨digits_zeros 1, by simp, Or.inr rfl, digits_append (digits_zeros _) digits⟩
    · exact ⟨digits_take digits _, by simp [nonempty], Or.inl (head_take some 0),
        digits_drop digits _⟩

/-- All digits of a numeral are taken if they fit 64 bits. -/
theorem mantissa_eq {n : Numeral} (digits : ℕ)
    (value : Nat.ofDigitChars 10 (n.whole ++ n.fraction) 0 = digits) (fits : digits < UInt64.size) :
    n.mantissa = ⟨digits, -n.fraction.length⟩ := by
  rw [Nat.ofDigitChars_append] at value
  have first : Nat.ofDigitChars 10 n.whole 0 < UInt64.size :=
    (Significand.le_ofDigitChars _ n.fraction).trans_lt (value.trans_lt fits)
  rw [Numeral.mantissa, Significand.wholeDigits_eq first,
    Significand.fractionDigits_eq (value.trans_lt fits), value, zero_sub]

/-- A whole number is short enough to be written plain. -/
theorem digits_lt_of_isPlain {d : Decimal} {k : ℕ} (plain : jsonSingle.isPlain d = true)
    (exponent : d.exponent = k) : d.digits * 10 ^ (k + 1) < 2 ^ 53 := by
  rcases Nat.eq_zero_or_pos d.digits with zero | some
  · rw [zero]
    norm_num
  · have length := leading_eq d
    have small := (Decimal.digitCount_spec some).2.2
    have bound : d.leading ≤ 12 := by
      unfold isPlain jsonSingle at plain
      simp only [Bool.or_eq_true, Bool.and_eq_true, beq_iff_eq, decide_eq_true_eq] at plain
      exact (plain.resolve_left some.ne').2
    have count : Decimal.digitCount d.digits + (k + 1) ≤ 14 := by
      change (natural d.digits).length + (k + 1) ≤ 14
      omega
    calc
      d.digits * 10 ^ (k + 1) < 10 ^ Decimal.digitCount d.digits * 10 ^ (k + 1) := by gcongr
      _ = 10 ^ (Decimal.digitCount d.digits + (k + 1)) := (pow_add _ _ _).symm
      _ ≤ 10 ^ 14 := Nat.pow_le_pow_right (by norm_num) count
      _ < 2 ^ 53 := by norm_num

/-- What is read of a decimal: its digits and its exponent, or a whole number with one zero more. -/
theorem numeral_taken (few : d.digits ≤ 10 ^ 9) :
    (numeral negative d).taken = ⟨d.digits, d.exponent⟩ ∨
      ∃ k : ℕ, d.exponent = k ∧ d.digits * 10 ^ (k + 1) < 2 ^ 53 ∧
        (numeral negative d).taken = ⟨d.digits * 10 ^ (k + 1), -1⟩ := by
  have value := ofDigitChars_natural d.digits
  have length := leading_eq d
  have positive := length_natural_pos d.digits
  have fits : d.digits < UInt64.size := few.trans_lt (by decide)
  unfold numeral Numeral.taken
  dsimp only
  split
  · rename_i plain
    split
    · rename_i up
      obtain ⟨k, exponent⟩ := Int.eq_ofNat_of_zero_le up
      have small := digits_lt_of_isPlain plain exponent
      refine Or.inr ⟨k, exponent, small, ?_⟩
      rw [mantissa_eq (d.digits * 10 ^ (k + 1)) ?_ (small.trans (by decide))]
      · rfl
      · dsimp only
        rw [exponent, Int.toNat_natCast, Nat.ofDigitChars_append, Nat.ofDigitChars_append, value,
          Nat.ofDigitChars_replicate_zero, Nat.ofDigitChars_cons, Nat.ofDigitChars_nil]
        change 10 * (10 ^ k * d.digits) + 0 = _
        ring
    · rename_i down
      left
      split
      · rename_i above
        rw [mantissa_eq d.digits (by rw [List.take_append_drop, value]) fits]
        simp only [Option.getD_none, List.length_drop]
        congr 1
        omega
      · rename_i below
        rw [mantissa_eq d.digits ?_ fits]
        · simp only [Option.getD_none, List.length_append, List.length_replicate]
          congr 1
          omega
        · dsimp only
          rw [Nat.ofDigitChars_append, Nat.ofDigitChars_append, Nat.ofDigitChars_replicate_zero]
          exact value
  · left
    rw [mantissa_eq d.digits (by rw [List.take_append_drop, value]) fits]
    simp only [Option.getD_some, List.length_drop]
    congr 1
    omega

end Decimal

end RealtimeAudio.Json
