import RealtimeAudio.Proofs.Binary.Value

/-! The numbers that round to a value. They reach half a last place to each side, and below a power
of two, where the grid is twice as fine, half as far. The ends belong to a value with an even
significand. -/
namespace RealtimeAudio.Binary
open Float.Model (Format UnpackedFloat)

variable {fmt : Format}

theorem grid_eq {x : ℝ} {g : ℤ} (positive : 0 < x) (least : fmt.minExponent ≤ g)
    (below : x < 2 ^ (places fmt + 1) * 2 ^ g)
    (above : g = fmt.minExponent ∨ 2 ^ places fmt * 2 ^ g ≤ x) : grid fmt x = g := by
  rw [← zpow_natCast, ← zpow_add₀ two_ne_zero] at below
  have high : x < ((2 : ℕ) : ℝ) ^ (((places fmt + 1 : ℕ) : ℤ) + g) := by exact_mod_cast below
  have log := (Int.lt_zpow_iff_log_lt one_lt_two positive).mp high
  rw [grid, abs_of_pos positive]
  rcases above with rfl | reaches
  · omega
  · rw [← zpow_natCast, ← zpow_add₀ two_ne_zero] at reaches
    have low : ((2 : ℕ) : ℝ) ^ ((places fmt : ℤ) + g) ≤ x := by exact_mod_cast reaches
    have := (Int.zpow_le_iff_le_log one_lt_two positive).mp low
    omega

theorem round_of_near {x : ℝ} {n : ℕ} {g : ℤ} (same : grid fmt x = g) (near : Near (x / 2 ^ g) n) :
    round fmt x = n * 2 ^ g := by
  rw [round, same, near.eq]
  rfl

/-- In units of the last place. -/
theorem upper_eq (n : ℕ) (g : ℤ) : upper n g = (n + 1 / 2) * 2 ^ g := by
  rw [upper, zpow_sub₀ two_ne_zero]
  norm_num
  ring

theorem lower_eq (n : ℕ) (g : ℤ) : lower fmt n g = (n - reach fmt n g / 4) * 2 ^ g := by
  rw [lower, zpow_sub₀ two_ne_zero]
  norm_num
  ring

theorem Between.pos {n : ℕ} {g : ℤ} {x : ℝ} (some : 0 < n) (between : Between fmt n g x) :
    0 < x := by
  have cast : (1 : ℝ) ≤ n := by exact_mod_cast some
  have most : (reach fmt n g : ℝ) ≤ 2 := by
    unfold reach
    split <;> norm_num
  have first : 0 < lower fmt n g := by
    rw [lower_eq]
    exact mul_pos (by linarith) (by positivity)
  rcases between.1 with less | ⟨rfl, -⟩
  · exact first.trans less
  · exact first

theorem near_of_half {y : ℝ} {n : ℕ} (even : n % 2 = 0 ∨ |y - n| ≠ 1 / 2)
    (within : |y - n| ≤ 1 / 2) : Near y n := by
  rcases within.lt_or_eq with less | tie
  · exact Or.inl less
  · exact Or.inr ⟨tie, by have := even.resolve_right (not_not.mpr tie); omega⟩

/-- Just below a power of two the grid is finer, and rounding goes up to twice the significand. -/
theorem round_eq_under {n : ℕ} {g : ℤ} {y : ℝ} (power : n = 2 ^ places fmt)
    (normal : fmt.minExponent < g) (least : (n : ℝ) - 1 / 4 ≤ y) (under : y < n) :
    round fmt (y * 2 ^ g) = n * 2 ^ g := by
  have half (x : ℝ) : x * 2 ^ g = x * 2 * 2 ^ (g - 1) := by
    rw [zpow_sub_one₀ two_ne_zero]
    ring
  have cast : (n : ℝ) = 2 ^ places fmt := by exact_mod_cast power
  have some : (1 : ℝ) ≤ 2 ^ places fmt := one_le_pow₀ one_le_two
  have positive : 0 < y * 2 ^ g := mul_pos (by linarith) (by positivity)
  have finer : grid fmt (y * 2 ^ g) = g - 1 := by
    refine grid_eq positive (by omega) ?_ (Or.inr ?_)
    · rw [half, pow_succ, ← cast]
      gcongr
    · rw [half, ← cast]
      gcongr
      linarith
  have near : Near (y * 2 ^ g / 2 ^ (g - 1)) (2 * n : ℕ) := by
    rw [half, mul_div_cancel_right₀ _ (by positivity)]
    refine near_of_half (Or.inl (by omega)) ?_
    push_cast
    rw [abs_le]
    constructor <;> linarith
  rw [round_of_near finer near, half]
  push_cast
  ring

/-- What lies between the ends of a value rounds to it. -/
theorem Between.round_eq {n : ℕ} {g : ℤ} {x : ℝ} (some : 0 < n) (between : Between fmt n g x)
    (bits : n < 2 ^ (places fmt + 1)) (least : fmt.minExponent ≤ g)
    (full : g = fmt.minExponent ∨ 2 ^ places fmt ≤ n) : round fmt x = n * 2 ^ g := by
  have positive := between.pos some
  obtain ⟨low, high⟩ := between
  have scale : (0 : ℝ) < 2 ^ g := by positivity
  have size : (n : ℝ) + 1 ≤ 2 ^ (places fmt + 1) := by exact_mod_cast bits
  rw [upper_eq] at high
  rw [lower_eq] at low
  -- In units of the last place.
  obtain ⟨y, rfl⟩ : ∃ y, x = y * 2 ^ g := ⟨x / 2 ^ g, by field_simp⟩
  have above : (n : ℝ) - reach fmt n g / 4 < y ∨ (n : ℝ) - reach fmt n g / 4 = y ∧ n % 2 = 0 :=
    low.imp (fun less => lt_of_mul_lt_mul_right less scale.le)
      fun tie => ⟨mul_right_cancel₀ scale.ne' tie.1, tie.2⟩
  have below : y < (n : ℝ) + 1 / 2 ∨ y = (n : ℝ) + 1 / 2 ∧ n % 2 = 0 :=
    high.imp (fun less => lt_of_mul_lt_mul_right less scale.le)
      fun tie => ⟨mul_right_cancel₀ scale.ne' tie.1, tie.2⟩
  have least' : (n : ℝ) - reach fmt n g / 4 ≤ y := above.elim le_of_lt fun tie => tie.1.le
  have most : y ≤ (n : ℝ) + 1 / 2 := below.elim le_of_lt fun tie => tie.1.le
  by_cases turn : (n = 2 ^ places fmt ∧ fmt.minExponent < g) ∧ y < n
  · obtain ⟨power, under⟩ := turn
    have quarter : reach fmt n g = 1 := if_pos power
    rw [quarter, Nat.cast_one] at least'
    exact round_eq_under power.1 power.2 least' under
  · have most' : (reach fmt n g : ℝ) ≤ 2 := by
      unfold reach
      split <;> norm_num
    have same : grid fmt (y * 2 ^ g) = g := by
      refine grid_eq positive least ?_ ?_
      · gcongr
        linarith
      · rcases least.eq_or_lt with lowest | normal
        · exact Or.inl lowest.symm
        · right
          gcongr
          rcases (full.resolve_left normal.ne').eq_or_lt with power | more
          · have reached := not_lt.mp (not_and.mp turn ⟨power.symm, normal⟩)
            have cast : (n : ℝ) = 2 ^ places fmt := by exact_mod_cast power.symm
            rwa [← cast]
          · have cast : (2 : ℝ) ^ places fmt + 1 ≤ n := by exact_mod_cast more
            linarith
    refine round_of_near same ?_
    rw [mul_div_cancel_right₀ _ scale.ne']
    refine near_of_half ?_ ?_
    · by_cases even : n % 2 = 0
      · exact Or.inl even
      · have low := above.resolve_right fun tie => even tie.2
        have high := below.resolve_right fun tie => even tie.2
        refine Or.inr (ne_of_lt ?_)
        rw [abs_lt]
        constructor <;> linarith
    · rw [abs_le]
      constructor <;> linarith

end RealtimeAudio.Binary
