import RealtimeAudio.Proofs.Binary.Interval

/-! Mixing two numbers with every step rounded. The three roundings may carry the result past both
numbers, but not past a power of two that neither exceeds: what the difference gains by rounding is
at most half of the last place above that power, and half a place is rounded away. -/
namespace RealtimeAudio.Binary
open Float.Model (Format)

variable {fmt : Format} {a b t x : ℝ} {k : ℤ}

/-- What a number above zero is rounded to, as a significand on its grid. -/
theorem exists_round_eq_mul (fmt : Format) (positive : 0 < x) :
    ∃ n ≤ 2 ^ (places fmt + 1), round fmt x = (n : ℕ) * 2 ^ grid fmt x := by
  have whole : 0 ≤ nearest (x / 2 ^ grid fmt x) := le_nearest (by push_cast; positivity)
  obtain ⟨n, same⟩ : ∃ n : ℕ, nearest (x / 2 ^ grid fmt x) = n :=
    ⟨_, (Int.toNat_of_nonneg whole).symm⟩
  have size : nearest (x / 2 ^ grid fmt x) ≤ 2 ^ (places fmt + 1) := nearest_grid_le positive
  rw [same] at size
  refine ⟨n, by exact_mod_cast size, ?_⟩
  rw [round, same]
  rfl

theorem round_round_of_pos (positive : 0 < x) : round fmt (round fmt x) = round fmt x := by
  obtain ⟨n, size, value⟩ := exists_round_eq_mul fmt positive
  rw [value]
  exact round_of_le size (le_max_right _ _)

/-- What is rounded stays as it is. -/
theorem round_round (x : ℝ) : round fmt (round fmt x) = round fmt x := by
  rcases lt_trichotomy x 0 with below | rfl | above
  · have flipped : round fmt (round fmt (-x)) = round fmt (-x) :=
      round_round_of_pos (neg_pos.mpr below)
    rwa [round_neg, round_neg, neg_inj] at flipped
  · rw [round_zero, round_zero]
  · exact round_round_of_pos above

/-- A power of two times a number of the format, however large, is not changed either. -/
theorem round_two_pow_mul (j : ℕ) (positive : 0 < x) (held : round fmt x = x) :
    round fmt (2 ^ j * x) = 2 ^ j * x := by
  have least : fmt.minExponent ≤ grid fmt x := le_max_right _ _
  obtain ⟨n, size, significand⟩ := exists_round_eq_mul fmt positive
  have value : 2 ^ j * x = n * 2 ^ (grid fmt x + j) := by
    conv_lhs => rw [← held, significand]
    rw [zpow_add₀ two_ne_zero, zpow_natCast]
    ring
  rw [value]
  exact round_of_le size (by omega)

/-- A power of two and half of the last place above it. -/
theorem round_le_zpow (normal : fmt.minExponent + places fmt ≤ k)
    (below : x ≤ 2 ^ k + 2 ^ (k - places fmt) / 2) : round fmt x ≤ 2 ^ k := by
  have scale : ((2 ^ places fmt : ℕ) : ℝ) * 2 ^ (k - places fmt) = 2 ^ k := by
    rw [zpow_sub₀ two_ne_zero, zpow_natCast]
    push_cast
    field_simp
  have ends : upper (2 ^ places fmt) (k - places fmt) = 2 ^ k + 2 ^ (k - places fmt) / 2 := by
    rw [upper_eq, add_mul, scale]
    ring
  have even : 2 ^ places fmt % 2 = 0 := by
    obtain ⟨j, more⟩ : ∃ j, places fmt = j + 1 := Nat.exists_eq_succ_of_ne_zero fmt.hm.ne'
    rw [more, pow_succ]
    omega
  have bits : 2 ^ places fmt < 2 ^ (places fmt + 1) := by
    rw [pow_succ]
    have := Nat.two_pow_pos (places fmt)
    omega
  have last : (0 : ℝ) < 2 ^ (k - places fmt) := by positivity
  have inside : Between fmt (2 ^ places fmt) (k - places fmt)
      (2 ^ k + 2 ^ (k - places fmt) / 2) := by
    refine ⟨Or.inl ?_, Or.inr ⟨ends.symm, even⟩⟩
    calc
      lower fmt (2 ^ places fmt) (k - places fmt) ≤ 2 ^ k := by
        rw [lower_eq, sub_mul, scale]
        have : (0 : ℝ) ≤ reach fmt (2 ^ places fmt) (k - places fmt) / 4 * 2 ^ (k - places fmt) := by
          positivity
        linarith
      _ < 2 ^ k + 2 ^ (k - places fmt) / 2 := by linarith
  calc
    round fmt x ≤ round fmt (2 ^ k + 2 ^ (k - places fmt) / 2) := round_mono below
    _ = (2 ^ places fmt : ℕ) * 2 ^ (k - places fmt) :=
      inside.round_eq (Nat.two_pow_pos _) bits (by omega) (Or.inr le_rfl)
    _ = 2 ^ k := scale

/-- Below a power of two, rounding changes a number by at most half of the last place there. -/
theorem round_le_add (normal : fmt.minExponent + places fmt ≤ k) (nonneg : 0 ≤ x)
    (below : x < 2 ^ (k + 1)) : round fmt x ≤ x + 2 ^ (k - places fmt) / 2 := by
  rcases nonneg.eq_or_lt with rfl | positive
  · rw [round_zero, zero_add]
    positivity
  · have log := (Int.lt_zpow_iff_log_lt (b := 2) one_lt_two positive).mp (by exact_mod_cast below)
    have fine : (2 : ℝ) ^ grid fmt x ≤ 2 ^ (k - places fmt) := by
      refine zpow_le_zpow_right₀ one_le_two ?_
      rw [grid, abs_of_pos positive]
      omega
    have near : round fmt x - x ≤ 2 ^ grid fmt x / 2 := (abs_le.mp (abs_round_sub x)).2
    linarith

/-- The way from a number to a power of two, rounded, does not lead beyond it. -/
theorem round_add_round_sub_le (normal : fmt.minExponent + places fmt ≤ k) (low : -2 ^ k ≤ a)
    (high : a ≤ 2 ^ k) : round fmt (a + round fmt (2 ^ k - a)) ≤ 2 ^ k := by
  have double : (2 : ℝ) ^ (k + 1) = 2 ^ k + 2 ^ k := by
    rw [zpow_add_one₀ two_ne_zero, mul_two]
  apply round_le_zpow normal
  rcases low.eq_or_lt with rfl | above
  · have power : (2 : ℝ) ^ k - -2 ^ k = (2 ^ places fmt : ℕ) * 2 ^ (k + 1 - places fmt) := by
      rw [sub_neg_eq_add, ← double, zpow_sub₀ two_ne_zero, zpow_natCast]
      push_cast
      field_simp
    have small : 2 ^ places fmt ≤ 2 ^ (places fmt + 1) := Nat.pow_le_pow_right two_pos (by omega)
    rw [power, round_of_le small (by omega), ← power]
    have : (0 : ℝ) < 2 ^ (k - places fmt) := by positivity
    linarith
  · have near := round_le_add normal (sub_nonneg.mpr high) (by linarith)
    linarith

/-- A mixture with each of the three steps rounded. -/
noncomputable def mixed (fmt : Format) (a b t : ℝ) : ℝ :=
  round fmt (a + round fmt (t * round fmt (b - a)))

theorem mixed_neg (a b t : ℝ) : mixed fmt (-a) (-b) t = -mixed fmt a b t := by
  have difference : -b - -a = -(b - a) := by ring
  unfold mixed
  rw [difference, round_neg, mul_neg, round_neg, ← neg_add, round_neg]

theorem mixed_le (normal : fmt.minExponent + places fmt ≤ k) (low : -2 ^ k ≤ a) (high : a ≤ 2 ^ k)
    (other : b ≤ 2 ^ k) (nonneg : 0 ≤ t) (most : t ≤ 1) : mixed fmt a b t ≤ 2 ^ k := by
  have room : 0 ≤ round fmt (2 ^ k - a) := round_nonneg (sub_nonneg.mpr high)
  have distance : round fmt (b - a) ≤ round fmt (2 ^ k - a) := round_mono (by linarith)
  have part : t * round fmt (b - a) ≤ round fmt (2 ^ k - a) := by
    calc
      t * round fmt (b - a) ≤ t * round fmt (2 ^ k - a) := by gcongr
      _ ≤ round fmt (2 ^ k - a) := mul_le_of_le_one_left room most
  calc
    mixed fmt a b t ≤ round fmt (a + round fmt (2 ^ k - a)) := by
      refine round_mono (add_le_add le_rfl ?_)
      rw [← round_round (2 ^ k - a)]
      exact round_mono part
    _ ≤ 2 ^ k := round_add_round_sub_le normal low high

/-- Rounding keeps the order of what is mixed in. -/
theorem mixed_mono {c : ℝ} (nonneg : 0 ≤ t) (below : b ≤ c) : mixed fmt a b t ≤ mixed fmt a c t := by
  have distance : round fmt (b - a) ≤ round fmt (c - a) := round_mono (sub_le_sub_right below a)
  have part : round fmt (t * round fmt (b - a)) ≤ round fmt (t * round fmt (c - a)) :=
    round_mono (mul_le_mul_of_nonneg_left distance nonneg)
  exact round_mono (add_le_add le_rfl part)

/-- Numbers within a power of two mix to a number within it. -/
theorem abs_mixed_le (normal : fmt.minExponent + places fmt ≤ k) (first : |a| ≤ 2 ^ k)
    (second : |b| ≤ 2 ^ k) (nonneg : 0 ≤ t) (most : t ≤ 1) : |mixed fmt a b t| ≤ 2 ^ k := by
  obtain ⟨low, high⟩ := abs_le.mp first
  obtain ⟨least, greatest⟩ := abs_le.mp second
  refine abs_le.mpr ⟨?_, mixed_le normal low high greatest nonneg most⟩
  have flipped := mixed_le (a := -a) (b := -b) normal (by linarith) (by linarith) (by linarith)
    nonneg most
  rw [mixed_neg] at flipped
  linarith

/-- The step from a number of the format towards one that is not negative keeps it from becoming
negative. -/
theorem neg_le_part (held : round fmt a = a) (first : 0 ≤ a) (second : 0 ≤ b) (nonneg : 0 ≤ t)
    (most : t ≤ 1) : -a ≤ round fmt (t * round fmt (b - a)) := by
  have back : round fmt (-a) = -a := by rw [round_neg, held]
  have distance : -a ≤ round fmt (b - a) := by
    rw [← back]
    exact round_mono (by linarith)
  rw [← back]
  refine round_mono ?_
  calc
    -a = 1 * -a := (one_mul _).symm
    _ ≤ t * -a := mul_le_mul_of_nonpos_right most (neg_nonpos.mpr first)
    _ ≤ t * round fmt (b - a) := by gcongr

end RealtimeAudio.Binary
