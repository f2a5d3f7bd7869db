import RealtimeAudio.Json.Number
import RealtimeAudio.Proofs.Double.Arithmetic

/-! Decimal significands in binary64. A significand is multiplied or divided by a power of ten that
is itself rounded, so the result is off by at most two roundings; up to the twenty-second power,
which is exact, it is the nearest number. -/
namespace RealtimeAudio.Json.Significand
open Binary Double
open Float.Model (Format UnpackedFloat)
open Float.Model.UnpackedFloat

/-- Whether a power of ten is held as it is. -/
def isExact (k : ℕ) : Bool :=
  match (powerOfTen k).toModel.unpack with
  | .finite .positive m (.ofNat e) _ => m * 2 ^ e == 10 ^ k
  | .finite .positive m (.negSucc e) _ => m == 10 ^ k * 2 ^ (e + 1)
  | _ => false

theorem isExact_of_le : ∀ k ≤ 22, isExact k = true := by decide +kernel

theorem stands_of_isExact {k : ℕ} (exact : isExact k = true) : Stands (powerOfTen k) (10 ^ k) := by
  unfold isExact at exact
  split at exact
  · rename_i m e some value
    refine ⟨m, e, some, value, ?_⟩
    have whole : m * 2 ^ e = 10 ^ k := by simpa using exact
    change (m * 2 ^ ((e : ℕ) : ℤ) : ℝ) = 10 ^ k
    rw [zpow_natCast]
    exact_mod_cast whole
  · rename_i m e some value
    refine ⟨m, .negSucc e, some, value, ?_⟩
    have whole : m = 10 ^ k * 2 ^ (e + 1) := by simpa using exact
    change (m * 2 ^ Int.negSucc e : ℝ) = 10 ^ k
    rw [zpow_negSucc, whole]
    push_cast
    field_simp
  · contradiction

theorem round_power_of_le {k : ℕ} (few : k ≤ 22) :
    Binary.round .binary64 (10 ^ k) = 10 ^ k := by
  have bits : 5 ^ k < 2 ^ (places .binary64 + 1) :=
    (Nat.pow_le_pow_right (by norm_num) few).trans_lt (by decide)
  have parts : ((5 ^ k : ℕ) : ℝ) * 2 ^ (k : ℤ) = 10 ^ k := by
    rw [zpow_natCast]
    push_cast
    rw [← mul_pow]
    norm_num
  rw [← parts]
  exact round_of_lt bits (by rw [Double.minExponent_eq]; omega)

theorem one_le_power (k : ℕ) : (1 : ℝ) ≤ 10 ^ k := one_le_pow₀ (by norm_num)

theorem power_le {k : ℕ} (reach : k ≤ 60) : (10 : ℝ) ^ k ≤ 10 ^ 60 :=
  pow_le_pow_right₀ (by norm_num) reach

theorem normal_of_one_le {x : ℝ} (least : 1 ≤ x) : 2 ^ (-1022 : ℤ) ≤ x :=
  (zpow_le_one_of_nonpos₀ one_le_two (by norm_num)).trans least

theorem small_of_le {x : ℝ} (most : x ≤ 10 ^ 80) : x ≤ 2 ^ (1000 : ℤ) := by
  calc
    x ≤ 10 ^ 80 := most
    _ ≤ (2 ^ 4) ^ 80 := pow_le_pow_left₀ (by norm_num) (by norm_num) 80
    _ = 2 ^ (320 : ℤ) := by rw [← pow_mul, ← zpow_natCast]; rfl
    _ ≤ 2 ^ (1000 : ℤ) := zpow_le_zpow_right₀ one_le_two (by norm_num)

theorem small_of_le_huge {x : ℝ} (most : x ≤ 10 ^ 301) : x ≤ 2 ^ (1000 : ℤ) := by
  have huge : 10 ^ 301 ≤ 2 ^ 1000 := by decide +kernel
  rw [zpow_ofNat]
  exact most.trans (by exact_mod_cast huge)

/-- A power of ten is the nearest binary64 number to it. -/
theorem stands_powerOfTen {k : ℕ} (reach : k ≤ 300) :
    Stands (powerOfTen k) (Binary.round .binary64 (10 ^ k)) := by
  by_cases few : k ≤ 22
  · rw [round_power_of_le few]
    exact stands_of_isExact (isExact_of_le k few)
  · have some : 0 < 10 ^ k := by positivity
    have product : powerOfTen k = ⟨.pack (UnpackedFloat.mul .binary64
        (.finite .positive (1 <<< 53) (-53) (by decide)) (.finite .positive (10 ^ k) 0 some))⟩ := by
      have scaled : powerOfTen k = ⟨Float.Model.ofScientific 1 k⟩ := dif_neg fun both => few both.2
      rw [scaled, Float.Model.ofScientific, UnpackedFloat.ofScientific, dif_neg one_ne_zero,
        if_neg (by change ¬(k : ℤ) > 2 ^ 11; omega),
        if_neg (by change ¬(k : ℤ) < -(2 ^ 11 + ((1 : ℕ).log2 : ℤ)); omega), if_pos (by omega)]
      rfl
    have bits : places .binary64 ≤ ((1 <<< 53) * 10 ^ k).log2 := by
      refine (Nat.le_log2 (Nat.mul_ne_zero (by decide) some.ne')).mpr ?_
      calc
        2 ^ places .binary64 ≤ (1 <<< 53) * 1 := by decide
        _ ≤ (1 <<< 53) * 10 ^ k := Nat.mul_le_mul_left _ some
    obtain ⟨canonical, finite, value⟩ := mul_finite .positive .positive (e := -53) (f := 0)
      (by decide : 0 < 1 <<< 53) some (Or.inl bits)
    have parts : (((1 <<< 53 : ℕ) : ℝ) * 2 ^ (-53 : ℤ)) * (((10 ^ k : ℕ) : ℝ) * 2 ^ (0 : ℤ)) =
        10 ^ k := by
      rw [Nat.shiftLeft_eq, zpow_neg, zpow_zero]
      push_cast
      norm_num
    rw [parts] at value
    have normal := normal_of_one_le (one_le_power k)
    have small : (10 : ℝ) ^ k ≤ 2 ^ (1000 : ℤ) :=
      small_of_le_huge (pow_le_pow_right₀ (by norm_num) (by omega))
    rw [product]
    exact stands_of_canonical canonical finite value (round_pos normal) (round_lt normal small)

theorem abs_round_power_sub_le (k : ℕ) :
    |Binary.round .binary64 (10 ^ k) - 10 ^ k| ≤ 10 ^ k / 2 ^ 53 :=
  Double.abs_round_sub_le (normal_of_one_le (one_le_power k))

/-- Half of the last of 53 bits, taken twice. -/
theorem abs_sub_le_of_twice {r a v : ℝ} (positive : 0 < v) (first : |a - v| ≤ v / 2 ^ 53 * (5 / 4))
    (second : |r - a| ≤ a / 2 ^ 53) : |r - v| ≤ v / 2 ^ 51 := by
  rw [abs_le] at first second ⊢
  constructor <;> linarith

theorem natCast_le {n : ℕ} (bits : n < 2 ^ 53) : (n : ℝ) ≤ 10 ^ 16 := by
  have cast : (n : ℝ) < 2 ^ 53 := by exact_mod_cast bits
  linarith

/-- Where a rounded power of ten lies. -/
theorem power_bounds (k : ℕ) (reach : k ≤ 60) :
    ∃ p, Binary.round .binary64 (10 ^ k) = p ∧ Stands (powerOfTen k) p ∧
      10 ^ k - 10 ^ k / 2 ^ 53 ≤ p ∧ p ≤ 10 ^ k + 10 ^ k / 2 ^ 53 := by
  obtain ⟨low, high⟩ := abs_le.mp (abs_round_power_sub_le k)
  exact ⟨_, rfl, stands_powerOfTen (by omega), by linarith, by linarith⟩

section Spec
variable {n k : ℕ}

theorem toDouble?_mul (some : 0 < n) (bits : n < 2 ^ 53) (reach : k ≤ 60) :
    ∃ x r, toDouble? ⟨n, k⟩ = .some x ∧ Stands x r ∧ |r - n * 10 ^ k| ≤ n * 10 ^ k / 2 ^ 51 ∧
      (k ≤ 22 → r = Binary.round .binary64 (n * 10 ^ k)) := by
  obtain ⟨p, power, stands, low, high⟩ := power_bounds k reach
  have least := one_le_power k
  have one : (1 : ℝ) ≤ n := by exact_mod_cast some
  have digits := natCast_le bits
  have most := power_le reach
  have product_low : n * 10 ^ k - n * 10 ^ k / 2 ^ 53 ≤ n * p := by
    calc
      (n * 10 ^ k - n * 10 ^ k / 2 ^ 53 : ℝ) = n * (10 ^ k - 10 ^ k / 2 ^ 53) := by ring
      _ ≤ n * p := by gcongr
  have product_high : n * p ≤ n * 10 ^ k + n * 10 ^ k / 2 ^ 53 := by
    calc
      (n * p : ℝ) ≤ n * (10 ^ k + 10 ^ k / 2 ^ 53) := by gcongr
      _ = n * 10 ^ k + n * 10 ^ k / 2 ^ 53 := by ring
  have value_least : (1 : ℝ) ≤ n * 10 ^ k := one_le_mul_of_one_le_of_one_le one least
  have value_most : (n * 10 ^ k : ℝ) ≤ 10 ^ 76 := by
    calc
      (n * 10 ^ k : ℝ) ≤ 10 ^ 16 * 10 ^ 60 := by gcongr
      _ = 10 ^ 76 := by norm_num
  have normal : 2 ^ (-1022 : ℤ) ≤ n * p := by
    calc
      (2 : ℝ) ^ (-1022 : ℤ) ≤ 2 ^ (-1 : ℤ) := zpow_le_zpow_right₀ one_le_two (by norm_num)
      _ ≤ n * p := by
        rw [zpow_neg_one]
        linarith
  have product := (stands_ofNat some bits).mul stands normal (small_of_le (by linarith))
  have near := Double.abs_round_sub_le normal
  refine ⟨_, _, ?_, product, abs_sub_le_of_twice (by linarith) ?_ near, ?_⟩
  · have finite := product.isInf
    unfold toDouble?
    dsimp only
    rw [if_neg (by omega), if_pos (by omega), Int.toNat_natCast, finite]
    rfl
  · rw [abs_le]
    constructor <;> linarith
  · intro few
    rw [← power, round_power_of_le few]

theorem toDouble?_div (some : 0 < n) (bits : n < 2 ^ 53) (down : 0 < k) (reach : k ≤ 60) :
    ∃ x r, toDouble? ⟨n, -k⟩ = .some x ∧ Stands x r ∧ |r - n / 10 ^ k| ≤ n / 10 ^ k / 2 ^ 51 ∧
      (k ≤ 22 → r = Binary.round .binary64 (n / 10 ^ k)) := by
  obtain ⟨p, power, stands, low, high⟩ := power_bounds k reach
  have least := one_le_power k
  have one : (1 : ℝ) ≤ n := by exact_mod_cast some
  have digits := natCast_le bits
  have most := power_le reach
  have positive : 0 < p := by linarith
  have scale : (0 : ℝ) < 10 ^ k := by linarith
  have whole : (n / p : ℝ) * p = n := div_mul_cancel₀ _ positive.ne'
  have exact : (n / 10 ^ k : ℝ) * 10 ^ k = n := div_mul_cancel₀ _ scale.ne'
  have quotient_pos : (0 : ℝ) < n / p := by positivity
  have quotient_low : (n / p - n / p / 2 ^ 53 : ℝ) ≤ n / 10 ^ k := by
    refine le_of_mul_le_mul_right ?_ scale
    calc
      (n / p - n / p / 2 ^ 53 : ℝ) * 10 ^ k = n / p * (10 ^ k - 10 ^ k / 2 ^ 53) := by ring
      _ ≤ n / p * p := by gcongr
      _ = n / 10 ^ k * 10 ^ k := whole.trans exact.symm
  have quotient_high : (n / 10 ^ k : ℝ) ≤ n / p + n / p / 2 ^ 53 := by
    refine le_of_mul_le_mul_right ?_ scale
    calc
      (n / 10 ^ k * 10 ^ k : ℝ) = n / p * p := exact.trans whole.symm
      _ ≤ n / p * (10 ^ k + 10 ^ k / 2 ^ 53) := by gcongr
      _ = (n / p + n / p / 2 ^ 53) * 10 ^ k := by ring
  have value_least : (1 / 10 ^ 60 : ℝ) ≤ n / 10 ^ k := by gcongr
  have value_most : (n / 10 ^ k : ℝ) ≤ 10 ^ 16 := (div_le_self (by linarith) least).trans digits
  have normal : 2 ^ (-1022 : ℤ) ≤ n / p := by
    calc
      (2 : ℝ) ^ (-1022 : ℤ) ≤ 2 ^ (-244 : ℤ) := zpow_le_zpow_right₀ one_le_two (by norm_num)
      _ ≤ 1 / 10 ^ 60 / 2 := by norm_num
      _ ≤ n / p := by linarith
  have quotient := (stands_ofNat some bits).div stands normal (small_of_le (by linarith))
  have near := Double.abs_round_sub_le normal
  refine ⟨_, _, ?_, quotient, abs_sub_le_of_twice (by positivity) ?_ near, ?_⟩
  · have steps : k / 308 = 0 := Nat.div_eq_of_lt (by omega)
    unfold toDouble? scaleDown
    dsimp only
    rw [if_pos (by omega), Int.natAbs_neg, Int.natAbs_natCast, steps]
    rfl
  · rw [abs_le]
    constructor <;> linarith
  · intro few
    rw [← power, round_power_of_le few]

end Spec

/-- A significand is read within two roundings of the number it writes, and as the nearest number
to it where the power of ten is exact. -/
theorem toDouble?_spec {n : ℕ} {g : ℤ} (some : 0 < n) (bits : n < 2 ^ 53) (reach : g.natAbs ≤ 60) :
    ∃ x r, toDouble? ⟨n, g⟩ = .some x ∧ Stands x r ∧ |r - n * 10 ^ g| ≤ n * 10 ^ g / 2 ^ 51 ∧
      (g.natAbs ≤ 22 → r = Binary.round .binary64 (n * 10 ^ g)) := by
  rcases Int.lt_or_le g 0 with down | up
  · obtain ⟨k, rfl⟩ : ∃ k : ℕ, g = -k := ⟨g.natAbs, by omega⟩
    have value : (n * 10 ^ (-(k : ℤ)) : ℝ) = n / 10 ^ k := by
      rw [zpow_neg, zpow_natCast, div_eq_mul_inv]
    rw [value, Int.natAbs_neg, Int.natAbs_natCast] at *
    exact toDouble?_div some bits (by omega) reach
  · obtain ⟨k, rfl⟩ := Int.eq_ofNat_of_zero_le up
    rw [zpow_natCast, Int.natAbs_natCast] at *
    exact toDouble?_mul some bits reach

end RealtimeAudio.Json.Significand
