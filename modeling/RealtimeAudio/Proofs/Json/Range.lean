import RealtimeAudio.Proofs.Json.Rules
import RealtimeAudio.Proofs.Json.Numeral
import RealtimeAudio.Proofs.Json.Scaling

/-! Numbers that are not too large are read, whatever their digits. Digits are dropped where they do
not fit, which never more than doubles a number. -/
namespace RealtimeAudio.Json
open Binary Double
open Float.Model (Format UnpackedFloat)
open Float.Model.UnpackedFloat

section Digits
variable {cs : List Char} {n : ℕ} {g : ℤ}

theorem digitValue_le {c : Char} (digit : isDigit c = true) : digitValue c ≤ 9 := by
  unfold isDigit at digit
  simp only [Bool.and_eq_true, decide_eq_true_eq] at digit
  have most : c.toNat ≤ 57 := digit.2
  unfold digitValue
  omega

theorem mul_pow_le_ofDigitChars (n : ℕ) (cs : List Char) :
    n * 10 ^ cs.length ≤ Nat.ofDigitChars 10 cs n := by
  induction cs generalizing n with
  | nil => simp
  | cons c cs ih =>
    rw [Nat.ofDigitChars_cons, List.length_cons]
    calc
      n * 10 ^ (cs.length + 1) = 10 * n * 10 ^ cs.length := by ring
      _ ≤ (10 * n + (c.toNat - '0'.toNat)) * 10 ^ cs.length := by gcongr; omega
      _ ≤ _ := ih _

theorem ofDigitChars_le (digits : Digits cs) (n : ℕ) :
    Nat.ofDigitChars 10 cs n ≤ (n + 1) * 10 ^ cs.length := by
  induction cs generalizing n with
  | nil => simp
  | cons c cs ih =>
    have digit : c.toNat - '0'.toNat ≤ 9 := digitValue_le (digits c List.mem_cons_self)
    rw [Nat.ofDigitChars_cons, List.length_cons]
    calc
      _ ≤ (10 * n + (c.toNat - '0'.toNat) + 1) * 10 ^ cs.length :=
        ih (fun d listed => digits d (List.mem_cons_of_mem _ listed)) _
      _ ≤ (10 * n + 9 + 1) * 10 ^ cs.length := by gcongr
      _ = (n + 1) * 10 ^ (cs.length + 1) := by ring

namespace Significand

/-- Before the point, either all digits are taken, or some are and count in the exponent. -/
theorem wholeDigits_cases (digits : Digits cs) (fits : n < UInt64.size) :
    ∃ s e : ℕ, wholeDigits ⟨n, g⟩ cs = ⟨s, g + e⟩ ∧ s < UInt64.size ∧
      (e = 0 ∧ s = Nat.ofDigitChars 10 cs n ∨
        0 < s ∧ s * 10 ^ e ≤ Nat.ofDigitChars 10 cs n) := by
  induction cs generalizing n with
  | nil => exact ⟨n, 0, by simp [wholeDigits], fits, .inl ⟨rfl, rfl⟩⟩
  | cons c cs ih =>
    have digit := digitValue_le (digits c List.mem_cons_self)
    rw [wholeDigits]
    dsimp only
    split
    · rename_i next
      exact ih (fun d listed => digits d (List.mem_cons_of_mem _ listed)) next
    · rename_i full
      have some : 0 < n := by
        have size : UInt64.size = 18446744073709551616 := rfl
        omega
      exact ⟨n, cs.length + 1, rfl, fits, .inr ⟨some, mul_pow_le_ofDigitChars n (c :: cs)⟩⟩

/-- After the point, some digits are taken, and none that is not there. -/
theorem fractionDigits_cases (fits : n < UInt64.size) :
    ∃ s j : ℕ, fractionDigits ⟨n, g⟩ cs = ⟨s, g - j⟩ ∧ s < UInt64.size ∧ j ≤ cs.length ∧
      s * 10 ^ (cs.length - j) ≤ Nat.ofDigitChars 10 cs n := by
  induction cs generalizing n g with
  | nil => exact ⟨n, 0, by simp [fractionDigits], fits, le_rfl, by simp⟩
  | cons c cs ih =>
    rw [fractionDigits]
    dsimp only
    split
    · rename_i next
      obtain ⟨s, j, taken, fits, few, most⟩ := @ih _ (g - 1) next
      refine ⟨s, j + 1, ?_, fits, Nat.succ_le_succ few, ?_⟩
      · rw [taken]
        congr 1
        push_cast
        ring
      · rwa [List.length_cons, Nat.succ_sub_succ]
    · exact ⟨n, 0, by simp, fits, Nat.zero_le _, mul_pow_le_ofDigitChars n (c :: cs)⟩

end Significand

end Digits

namespace Numeral
variable {n : Numeral}

/-- What is taken of the digits of a numeral is at most twice their number. -/
theorem mantissa_cases (sound : n.Sound) : ∃ s e j : ℕ, n.mantissa = ⟨s, e - j⟩ ∧
    s < UInt64.size ∧ j ≤ n.fraction.length ∧ s * 10 ^ (n.fraction.length - j + e) ≤
      2 * Nat.ofDigitChars 10 (n.whole ++ n.fraction) 0 := by
  obtain ⟨s, e, whole, fits, value⟩ :=
    Significand.wholeDigits_cases (n := 0) (g := 0) sound.whole (by decide)
  obtain ⟨t, j, taken, fits', few, most⟩ :=
    @Significand.fractionDigits_cases n.fraction s e fits
  refine ⟨t, e, j, ?_, fits', few, ?_⟩
  · rw [mantissa, whole, zero_add, taken]
  rw [Nat.ofDigitChars_append]
  rcases value with ⟨rfl, rfl⟩ | ⟨some, least⟩
  · rw [add_zero]
    exact most.trans (Nat.le_mul_of_pos_left _ two_pos)
  · -- Digits that are dropped in front of the point are more than any that are taken after it.
    have whole_le := Nat.mul_le_mul_right (10 ^ n.fraction.length) least
    calc
      t * 10 ^ (n.fraction.length - j + e) = t * 10 ^ (n.fraction.length - j) * 10 ^ e := by
        rw [pow_add, mul_assoc]
      _ ≤ (s + 1) * 10 ^ n.fraction.length * 10 ^ e :=
        Nat.mul_le_mul_right _ (most.trans (ofDigitChars_le sound.fraction s))
      _ ≤ (s + s) * 10 ^ n.fraction.length * 10 ^ e := by gcongr; omega
      _ = 2 * (s * 10 ^ e * 10 ^ n.fraction.length) := by ring
      _ ≤ 2 * (Nat.ofDigitChars 10 n.whole 0 * 10 ^ n.fraction.length) := by gcongr
      _ ≤ _ := Nat.mul_le_mul_left 2 (mul_pow_le_ofDigitChars _ n.fraction)

theorem taken_le (sound : n.Sound) : n.taken.significand < UInt64.size ∧
    (n.taken.significand * 10 ^ n.taken.exponent : ℝ) ≤ 2 * n.magnitude := by
  obtain ⟨s, e, j, mantissa, fits, few, most⟩ := mantissa_cases sound
  have most : (s * 10 ^ (n.fraction.length - j + e) : ℝ) ≤
      2 * Nat.ofDigitChars 10 (n.whole ++ n.fraction) 0 := by exact_mod_cast most
  unfold taken
  rw [mantissa]
  refine ⟨fits, ?_⟩
  have split : (e : ℤ) - j + n.power.getD 0 =
      ((n.fraction.length - j + e : ℕ) : ℤ) + (n.power.getD 0 - n.fraction.length) := by
    push_cast [few]
    ring
  have ten : (10 : ℝ) ≠ 0 := by norm_num
  dsimp only
  rw [split, zpow_add₀ ten, zpow_natCast, ← mul_assoc, magnitude]
  push_cast
  rw [← mul_assoc]
  gcongr

end Numeral

namespace Significand

theorem round_bounds {x : ℝ} (one : 1 ≤ x) :
    1 / 2 ≤ Binary.round .binary64 x ∧ Binary.round .binary64 x ≤ 2 * x := by
  obtain ⟨low, high⟩ := abs_le.mp (Double.abs_round_sub_le (normal_of_one_le one))
  constructor <;> linarith

/-- A zero stays a zero, or becomes no number, whatever it is multiplied by. -/
theorem isInf_zero_mul (y : Float) : ((UInt64.ofNat 0).toFloat * y).isInf = false := by
  have zero : (UInt64.ofNat 0).toFloat.toModel.unpack = .zero .positive := rfl
  have packed : (UInt64.ofNat 0).toFloat * y =
      ⟨.pack (UnpackedFloat.mul .binary64 (.zero .positive) y.toModel.unpack)⟩ := by
    rw [← zero]
    rfl
  rw [packed]
  cases y.toModel.unpack with
  | notANumber => rfl
  | infinity s => cases s <;> rfl
  | zero s => cases s <;> rfl
  | finite s m e some =>
    have product : UnpackedFloat.mul .binary64 (.zero .positive) (.finite s m e some) =
      .zero (.positive * s) := rfl
    rw [product]
    cases s <;> rfl

theorem toDouble?_isSome {s : Significand} (fits : s.significand < UInt64.size)
    (most : (s.significand * 10 ^ s.exponent : ℝ) ≤ 2 * 10 ^ 300) : s.toDouble?.isSome = true := by
  obtain ⟨n, g⟩ := s
  dsimp only at fits most
  unfold toDouble?
  dsimp only
  split
  · rfl
  rename_i up
  obtain ⟨k, rfl⟩ := Int.eq_ofNat_of_zero_le (not_lt.mp up)
  rw [zpow_natCast] at most
  rcases Nat.eq_zero_or_pos n with rfl | some
  · split
    · rw [isInf_zero_mul]
      rfl
    · rfl
  have one : (1 : ℝ) ≤ n := by exact_mod_cast some
  have ten : (10 : ℝ) * 10 ^ 300 = 10 ^ 301 := (pow_succ' 10 300).symm
  have reach : k ≤ 300 := by
    by_contra far
    have less : (10 : ℝ) * 10 ^ 300 ≤ 2 * 10 ^ 300 := by
      calc
        (10 : ℝ) * 10 ^ 300 = 10 ^ 301 := ten
        _ ≤ 10 ^ k := pow_le_pow_right₀ (by norm_num) (by omega)
        _ ≤ n * 10 ^ k := le_mul_of_one_le_left (by positivity) one
        _ ≤ 2 * 10 ^ 300 := most
    exact absurd (le_of_mul_le_mul_right less (by positivity)) (by norm_num)
  obtain ⟨low, high⟩ := round_bounds one
  obtain ⟨low', high'⟩ := round_bounds (one_le_power k)
  have normal : 2 ^ (-1022 : ℤ) ≤
      Binary.round .binary64 (n : ℝ) * Binary.round .binary64 ((10 : ℝ) ^ k) := by
    calc
      (2 : ℝ) ^ (-1022 : ℤ) ≤ 2 ^ (-2 : ℤ) := zpow_le_zpow_right₀ one_le_two (by norm_num)
      _ = 1 / 2 * (1 / 2) := by norm_num
      _ ≤ _ := by gcongr
  have small : Binary.round .binary64 (n : ℝ) * Binary.round .binary64 ((10 : ℝ) ^ k) ≤
      10 ^ 301 := by
    calc
      _ ≤ 2 * (n : ℝ) * (2 * 10 ^ k) := by gcongr
      _ = 4 * (n * 10 ^ k) := by ring
      _ ≤ 4 * (2 * 10 ^ 300) := by gcongr
      _ = 8 * 10 ^ 300 := by rw [← mul_assoc]; norm_num
      _ ≤ 10 * 10 ^ 300 := by gcongr; norm_num
      _ = 10 ^ 301 := ten
  have product := (stands_ofNat_round some fits).mul (stands_powerOfTen reach) normal
    (small_of_le_huge small)
  have finite := product.isInf
  rw [if_pos (by omega), Int.toNat_natCast, finite]
  rfl

end Significand

namespace Numeral
variable {n : Numeral}

theorem number?_isSome (sound : n.Sound) (most : n.magnitude ≤ 10 ^ 300) :
    n.number?.isSome = true := by
  obtain ⟨fits, least⟩ := taken_le sound
  have most : (n.magnitude : ℝ) ≤ 10 ^ 300 := by exact_mod_cast most
  have some := Significand.toDouble?_isSome fits
    (least.trans (mul_le_mul_of_nonneg_left most zero_le_two))
  unfold number?
  dsimp only
  split
  · rfl
  split
  · rfl
  · rw [Option.isSome_map, some]

end Numeral

end RealtimeAudio.Json
