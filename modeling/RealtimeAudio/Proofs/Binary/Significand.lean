import RealtimeAudio.Proofs.Binary.Value

/-! Rounding on significands. A significand with a round bit and a sticky bit says enough about a
number to round it: shifting keeps what it says, and rounding it in place gives the nearest point
of the grid. -/
namespace RealtimeAudio.Binary
open Float.Model (Format UnpackedFloat totalExponent)
open Float.Model.UnpackedFloat

namespace Describes
variable {em : ExtendedMantissa} {x : ℝ}

theorem shiftRightOne (describes : Describes em x) : Describes em.shiftRightOne (x / 2) := by
  obtain ⟨m, r, s⟩ := em
  obtain ⟨k, even | odd⟩ : ∃ k, m = 2 * k ∨ m = 2 * k + 1 := ⟨m / 2, by omega⟩
  · have half : m / 2 = k := by omega
    have last : (m % 2 != 0) = false := by simp [even]
    have cast : (m : ℝ) = 2 * k := by exact_mod_cast even
    cases r <;> cases s <;>
      simp only [Describes, ExtendedMantissa.shiftRightOne, half, last, cast, Bool.or_false,
        Bool.or_true] at * <;>
      first
      | linarith
      | constructor <;> linarith
  · have half : m / 2 = k := by omega
    have last : (m % 2 != 0) = true := by simp [odd]
    have cast : (m : ℝ) = 2 * k + 1 := by exact_mod_cast odd
    cases r <;> cases s <;>
      simp only [Describes, ExtendedMantissa.shiftRightOne, half, last, cast, Bool.or_false,
        Bool.or_true] at * <;>
      first
      | linarith
      | constructor <;> linarith

theorem shiftRight (describes : Describes em x) (n : ℕ) : Describes (em >>> n) (x / 2 ^ n) := by
  induction n with
  | zero =>
    rw [pow_zero, div_one]
    exact describes
  | succ n ih =>
    rw [pow_succ, ← div_div]
    exact ih.shiftRightOne

theorem bounds (describes : Describes em x) : (em.mantissa : ℝ) ≤ x ∧ x < em.mantissa + 1 := by
  obtain ⟨m, r, s⟩ := em
  cases r <;> cases s <;> simp only [Describes] at * <;> constructor <;> linarith

/-- Rounding in place goes to the nearest whole number. -/
theorem near (describes : Describes em x) : Near x (em.roundedMantissa : ℕ) := by
  obtain ⟨m, r, s⟩ := em
  cases r <;> cases s
  · have same : x = m := describes
    left
    simp [ExtendedMantissa.roundedMantissa, ExtendedMantissa.accuracy,
      Accuracy.roundToNearestEven, same]
  · obtain ⟨above, below⟩ : (m : ℝ) < x ∧ x < m + 1 / 2 := describes
    left
    change |x - ((m : ℕ) : ℤ)| < 1 / 2
    push_cast
    rw [abs_of_pos (by linarith)]
    linarith
  · have middle : x = m + 1 / 2 := describes
    right
    change |x - ((m + m % 2 : ℕ) : ℤ)| = 1 / 2 ∧ ((m + m % 2 : ℕ) : ℤ) % 2 = 0
    refine ⟨?_, by omega⟩
    rcases Nat.mod_two_eq_zero_or_one m with even | odd
    · rw [even, middle]
      push_cast
      norm_num
    · rw [odd, middle]
      push_cast
      norm_num
  · obtain ⟨above, below⟩ : (m : ℝ) + 1 / 2 < x ∧ x < m + 1 := describes
    left
    change |x - ((m + 1 : ℕ) : ℤ)| < 1 / 2
    push_cast
    rw [abs_of_neg (by linarith)]
    linarith

end Describes

variable {fmt : Format}

theorem targetExponent_eq (m : ℕ) (e : ℤ) :
    fmt.targetExponent (totalExponent m e) =
      max ((m.log2 : ℤ) + e - places fmt) fmt.minExponent := by
  rw [Format.targetExponent, mantissaBits_eq, totalExponent]
  congr 1
  ring

theorem mantissa_of (m : ℕ) (acc : Accuracy) :
    (ExtendedMantissa.ofMantissaAndAccuracy m acc).mantissa = m := by
  cases acc with
  | exact => rfl
  | inexact side => cases side <;> rfl

/-- The logarithm of a number is that of its significand. -/
theorem log_eq {m : ℕ} {e : ℤ} {x : ℝ} (positive : 0 < x) (some : m ≠ 0)
    (bounds : (m : ℝ) ≤ x / 2 ^ e ∧ x / 2 ^ e < m + 1) : Int.log 2 x = m.log2 + e := by
  have scale : (0 : ℝ) < 2 ^ e := by positivity
  have low : (2 : ℝ) ^ (m.log2 : ℤ) ≤ m := by
    rw [zpow_natCast]
    exact_mod_cast Nat.log2_self_le some
  have high : (m : ℝ) + 1 ≤ 2 ^ ((m.log2 : ℤ) + 1) := by
    have step : m + 1 ≤ 2 ^ (m.log2 + 1) := Nat.lt_log2_self
    exact_mod_cast step
  apply le_antisymm
  · have less : x < ((2 : ℕ) : ℝ) ^ ((m.log2 : ℤ) + 1 + e) := by
      push_cast
      rw [zpow_add₀ two_ne_zero, ← div_lt_iff₀ scale]
      exact bounds.2.trans_le high
    have := (Int.lt_zpow_iff_log_lt one_lt_two positive).mp less
    omega
  · apply (Int.zpow_le_iff_le_log one_lt_two positive).mp
    push_cast
    rw [zpow_add₀ two_ne_zero, ← le_div_iff₀ scale]
    exact low.trans bounds.1

/-- A significand no coarser than the grid is shifted to the grid. -/
theorem targetExponent_eq_grid {m : ℕ} {e : ℤ} {acc : Accuracy} {x : ℝ} (positive : 0 < x)
    (describes : Describes (.ofMantissaAndAccuracy m acc) (x / 2 ^ e)) (fine : e ≤ grid fmt x) :
    fmt.targetExponent (totalExponent m e) = grid fmt x := by
  have bounds := describes.bounds
  rw [mantissa_of] at bounds
  rw [targetExponent_eq, grid, abs_of_pos positive]
  by_cases none : m = 0
  · have scale : (0 : ℝ) < 2 ^ e := by positivity
    have below : x < ((2 : ℕ) : ℝ) ^ e := by
      have less := (div_lt_iff₀ scale).mp bounds.2
      simpa [none] using less
    have log := (Int.lt_zpow_iff_log_lt one_lt_two positive).mp below
    rw [grid, abs_of_pos positive] at fine
    have zero : m.log2 = 0 := by rw [none]; rfl
    omega
  · rw [log_eq positive none bounds]

/-- A significand of as many bits as the format has stays as it is; one that rounding has carried
to a bit more loses its last bit, which is zero. -/
theorem carry_spec {r : ℕ} {e : ℤ} (size : r ≤ 2 ^ (places fmt + 1)) (least : fmt.minExponent ≤ e)
    (full : e = fmt.minExponent ∨ 2 ^ places fmt ≤ r) :
    ∃ m f, shiftToTargetExponent fmt r e .exact = (⟨m, false, false⟩, f) ∧
      m < 2 ^ (places fmt + 1) ∧ fmt.minExponent ≤ f ∧
      (f = fmt.minExponent ∨ 2 ^ places fmt ≤ m) ∧ (m : ℝ) * 2 ^ f = r * 2 ^ e := by
  have double : 2 ^ (places fmt + 1) = 2 ^ places fmt * 2 := pow_succ _ _
  unfold shiftToTargetExponent shiftToExponent
  rw [targetExponent_eq]
  dsimp only
  by_cases carried : r = 2 ^ (places fmt + 1)
  · have log : r.log2 = places fmt + 1 := by rw [carried, Nat.log2_two_pow]
    have once : (max ((r.log2 : ℤ) + e - places fmt) fmt.minExponent - e).toNat = 1 := by
      rw [log]
      push_cast
      omega
    rw [once]
    refine ⟨2 ^ places fmt, e + 1, ?_, by have := Nat.two_pow_pos (places fmt); omega, by omega,
      Or.inr (Nat.le_refl _), ?_⟩
    · have half : r / 2 = 2 ^ places fmt := by omega
      have even : r % 2 = 0 := by omega
      change (ExtendedMantissa.shiftRightOne ⟨r, false, false⟩, _) = _
      simp [ExtendedMantissa.shiftRightOne, half, even]
    · rw [zpow_add₀ two_ne_zero, carried]
      push_cast
      ring
  · have log : r.log2 ≤ places fmt := by
      by_cases none : r = 0
      · rw [none]
        exact Nat.zero_le _
      · have := (Nat.log2_lt none).mpr (show r < 2 ^ (places fmt + 1) by omega)
        omega
    have still : (max ((r.log2 : ℤ) + e - places fmt) fmt.minExponent - e).toNat = 0 := by omega
    rw [still]
    refine ⟨r, e, ?_, by omega, least, full, rfl⟩
    rw [Nat.cast_zero, add_zero]
    rfl

/-- Rounding a significand rounds the number it describes. -/
theorem roundWithAccuracy_spec (s : Sign) {m : ℕ} {e : ℤ} {acc : Accuracy} {x : ℝ}
    (positive : 0 < x) (describes : Describes (.ofMantissaAndAccuracy m acc) (x / 2 ^ e))
    (fine : e ≤ grid fmt x) :
    Canonical fmt (roundWithAccuracy fmt s m e acc) ∧
      (roundWithAccuracy fmt s m e acc).isFinite = true ∧
      real (roundWithAccuracy fmt s m e acc) = signed s (round fmt x) := by
  have shift : e + ((grid fmt x - e).toNat : ℤ) = grid fmt x := by omega
  have shifted := describes.shiftRight (grid fmt x - e).toNat
  have scaled : x / 2 ^ e / 2 ^ (grid fmt x - e).toNat = x / 2 ^ grid fmt x := by
    rw [div_div, ← zpow_natCast, ← zpow_add₀ two_ne_zero, shift]
  rw [scaled] at shifted
  have first : shiftToTargetExponent fmt m e acc =
      (ExtendedMantissa.ofMantissaAndAccuracy m acc >>> (grid fmt x - e).toNat, grid fmt x) := by
    unfold shiftToTargetExponent shiftToExponent
    rw [targetExponent_eq_grid positive describes fine]
    dsimp only
    rw [shift]
  unfold roundWithAccuracy
  rw [first]
  dsimp only
  have rounded := shifted.near.eq
  generalize (ExtendedMantissa.ofMantissaAndAccuracy m acc >>>
    (grid fmt x - e).toNat).roundedMantissa = r at rounded ⊢
  have size : r ≤ 2 ^ (places fmt + 1) := by
    have top : nearest (x / 2 ^ grid fmt x) ≤ 2 ^ (places fmt + 1) := nearest_grid_le positive
    rw [rounded] at top
    exact_mod_cast top
  have lowest : fmt.minExponent ≤ grid fmt x := le_max_right _ _
  have full : grid fmt x = fmt.minExponent ∨ 2 ^ places fmt ≤ r := by
    rcases lowest.eq_or_lt with least | normal
    · exact Or.inl least.symm
    · have bottom := le_nearest_grid positive normal
      rw [rounded] at bottom
      exact Or.inr (by exact_mod_cast bottom)
  obtain ⟨n, f, second, small, least, filled, same⟩ := carry_spec size lowest full
  have magnitude : (n : ℝ) * 2 ^ f = round fmt x := by
    rw [same, round, rounded]
    push_cast
    rfl
  rw [second]
  dsimp only
  split
  · rename_i zero
    refine ⟨trivial, rfl, ?_⟩
    have none : round fmt x = 0 := by rw [← magnitude, zero]; simp
    rw [none]
    cases s <;> simp [real, signed]
  · refine ⟨⟨small, least, filled⟩, rfl, ?_⟩
    rw [← magnitude]
    rfl

end RealtimeAudio.Binary
