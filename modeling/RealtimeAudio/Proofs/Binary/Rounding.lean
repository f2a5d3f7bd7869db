import Mathlib.Algebra.Order.Archimedean.Real.Basic
import Mathlib.Data.EReal.Basic
import Mathlib.Data.Int.Log
import Mathlib.Tactic

/-! Rounding of real numbers to a binary format. A number goes to the nearest point of the grid
that its magnitude selects, of two equally near points to the even one. Rounding is monotone. What
is rounded is the number that an exact result stands for, of which a significand and two more bits
say enough. -/
namespace RealtimeAudio.Binary
open Float.Model (Format UnpackedFloat)
open Float.Model.UnpackedFloat

noncomputable def signed (s : Sign) (x : ℝ) : ℝ :=
  match s with
  | .negative => -x
  | .positive => x

/-- The real number that a finite value stands for. -/
noncomputable def real : UnpackedFloat → ℝ
  | .finite s m e _ => signed s (m * 2 ^ e)
  | _ => 0

/-- Where a number lies between a significand and the next. -/
def Describes (em : ExtendedMantissa) (x : ℝ) : Prop :=
  match em.roundBit, em.stickyBit with
  | false, false => x = em.mantissa
  | false, true => em.mantissa < x ∧ x < em.mantissa + 1 / 2
  | true, false => x = em.mantissa + 1 / 2
  | true, true => em.mantissa + 1 / 2 < x ∧ x < em.mantissa + 1

/-- A whole number nearest to `x`, the even one where two are. -/
def Near (x : ℝ) (n : ℤ) : Prop := |x - n| < 1 / 2 ∨ |x - n| = 1 / 2 ∧ n % 2 = 0

theorem Near.le {x y : ℝ} {n m : ℤ} (first : Near x n) (second : Near y m) (below : x ≤ y) :
    n ≤ m := by
  by_contra above
  have apart : (m : ℝ) + 1 ≤ n := by exact_mod_cast not_le.mp above
  have low : |x - n| ≤ 1 / 2 := first.elim le_of_lt fun tie => le_of_eq tie.1
  have high : |y - m| ≤ 1 / 2 := second.elim le_of_lt fun tie => le_of_eq tie.1
  have left := abs_le.mp low
  have right := abs_le.mp high
  rcases first with less | ⟨-, evenFirst⟩
  · have := abs_lt.mp less
    linarith
  · rcases second with less | ⟨-, evenSecond⟩
    · have := abs_lt.mp less
      linarith
    · have adjacent : (n : ℝ) = m + 1 := by linarith
      have whole : n = m + 1 := by exact_mod_cast adjacent
      omega

noncomputable def nearest (x : ℝ) : ℤ :=
  if x - ⌊x⌋ < 1 / 2 ∨ x - ⌊x⌋ = 1 / 2 ∧ ⌊x⌋ % 2 = 0 then ⌊x⌋ else ⌊x⌋ + 1

theorem near_nearest (x : ℝ) : Near x (nearest x) := by
  have low := Int.floor_le x
  have high := Int.lt_floor_add_one x
  unfold nearest Near
  split
  · rename_i down
    rwa [abs_of_nonneg (by linarith)]
  · rename_i up
    push_cast
    rw [abs_of_nonpos (by linarith)]
    by_cases middle : x - ⌊x⌋ = 1 / 2
    · have odd : ¬⌊x⌋ % 2 = 0 := fun even => up (Or.inr ⟨middle, even⟩)
      exact Or.inr ⟨by linarith, by omega⟩
    · have more : 1 / 2 < x - ⌊x⌋ :=
        lt_of_le_of_ne (not_lt.mp fun less => up (Or.inl less)) (Ne.symm middle)
      left
      linarith

theorem Near.eq {x : ℝ} {n : ℤ} (near : Near x n) : nearest x = n :=
  le_antisymm ((near_nearest x).le near le_rfl) (near.le (near_nearest x) le_rfl)

theorem nearest_mono : Monotone nearest := fun x y below =>
  (near_nearest x).le (near_nearest y) below

theorem nearest_intCast (n : ℤ) : nearest n = n := by
  apply Near.eq
  left
  simp

theorem nearest_neg (x : ℝ) : nearest (-x) = -nearest x := by
  apply Near.eq
  have distance : |-x - ((-nearest x : ℤ) : ℝ)| = |x - nearest x| := by
    rw [← abs_neg]
    push_cast
    congr 1
    ring
  rcases near_nearest x with less | ⟨tie, even⟩
  · exact Or.inl (distance ▸ less)
  · exact Or.inr ⟨distance ▸ tie, by omega⟩

section Grid
variable (fmt : Format)

/-- The bits of a significand after its first. -/
def places : ℕ := fmt.mantissaBitsWithoutImplicit

theorem mantissaBits_eq : (fmt.mantissaBits : ℤ) = places fmt + 1 := by
  change ((1 + places fmt : ℕ) : ℤ) = places fmt + 1
  rw [Nat.add_comm, Nat.cast_add_one]

/-- The exponent of the grid around a number: as fine as the significand allows, and no finer than
the least exponent. -/
noncomputable def grid (x : ℝ) : ℤ := max (Int.log 2 |x| - places fmt) fmt.minExponent

noncomputable def round (x : ℝ) : ℝ := nearest (x / 2 ^ grid fmt x) * 2 ^ grid fmt x

/-- The largest exponent. -/
def highest : ℤ := 2 ^ fmt.exponentBits - 2 - fmt.exponentBias - places fmt

/-- A rounded number as the format stores it: beyond the largest exponent it is infinite. -/
noncomputable def clip (x : ℝ) : EReal :=
  if 2 ^ (highest fmt + places fmt + 1) ≤ x then ⊤
  else if x ≤ -2 ^ (highest fmt + places fmt + 1) then ⊥ else x

/-- How many quarters of the last place the numbers reach below a value that round to it. -/
def reach (n : ℕ) (g : ℤ) : ℕ := if n = 2 ^ places fmt ∧ fmt.minExponent < g then 1 else 2

noncomputable def lower (n : ℕ) (g : ℤ) : ℝ := (4 * n - reach fmt n g) * 2 ^ (g - 2)

noncomputable def upper (n : ℕ) (g : ℤ) : ℝ := (4 * n + 2) * 2 ^ (g - 2)

/-- Between the ends, and at an end only if the significand is even. -/
def Between (n : ℕ) (g : ℤ) (x : ℝ) : Prop :=
  (lower fmt n g < x ∨ lower fmt n g = x ∧ n % 2 = 0) ∧
    (x < upper n g ∨ x = upper n g ∧ n % 2 = 0)

end Grid

variable {fmt : Format}

theorem round_neg (x : ℝ) : round fmt (-x) = -round fmt x := by
  have same : grid fmt (-x) = grid fmt x := by rw [grid, grid, abs_neg]
  rw [round, round, same, neg_div, nearest_neg]
  push_cast
  ring

theorem round_zero : round fmt 0 = 0 := by
  have zero : nearest 0 = 0 := by exact_mod_cast nearest_intCast 0
  simp [round, zero]

theorem nearest_le {x : ℝ} {n : ℤ} (below : x ≤ n) : nearest x ≤ n :=
  (nearest_mono below).trans_eq (nearest_intCast n)

theorem le_nearest {x : ℝ} {n : ℤ} (above : (n : ℝ) ≤ x) : n ≤ nearest x :=
  (nearest_intCast n).symm.trans_le (nearest_mono above)

theorem round_nonneg {x : ℝ} (nonneg : 0 ≤ x) : 0 ≤ round fmt x := by
  have whole : 0 ≤ nearest (x / 2 ^ grid fmt x) := le_nearest (by push_cast; positivity)
  unfold round
  positivity

/-- On its grid a number has no more bits than a significand. -/
theorem nearest_grid_le {x : ℝ} (positive : 0 < x) :
    nearest (x / 2 ^ grid fmt x) ≤ 2 ^ (places fmt + 1) := by
  have log : Int.log 2 x + 1 ≤ (places fmt + 1 : ℕ) + grid fmt x := by
    rw [grid, abs_of_pos positive]
    omega
  have below : x < 2 ^ (((places fmt + 1 : ℕ) : ℤ) + grid fmt x) :=
    (Int.lt_zpow_succ_log_self one_lt_two x).trans_le (zpow_le_zpow_right₀ one_le_two log)
  rw [zpow_add₀ two_ne_zero, zpow_natCast] at below
  refine nearest_le ?_
  rw [div_le_iff₀ (by positivity)]
  exact_mod_cast below.le

theorem le_nearest_grid {x : ℝ} (positive : 0 < x) (normal : fmt.minExponent < grid fmt x) :
    2 ^ places fmt ≤ nearest (x / 2 ^ grid fmt x) := by
  have log : places fmt + grid fmt x = Int.log 2 x := by
    rw [grid, abs_of_pos positive] at normal ⊢
    omega
  have above : (2 : ℝ) ^ ((places fmt : ℤ) + grid fmt x) ≤ x := by
    rw [log]
    exact_mod_cast Int.zpow_log_le_self one_lt_two positive
  rw [zpow_add₀ two_ne_zero, zpow_natCast] at above
  refine le_nearest ?_
  rw [le_div_iff₀ (by positivity)]
  exact_mod_cast above

theorem round_le_top {x : ℝ} (positive : 0 < x) :
    round fmt x ≤ 2 ^ (places fmt + 1 + grid fmt x) := by
  have cast : (nearest (x / 2 ^ grid fmt x) : ℝ) ≤ 2 ^ (places fmt + 1 : ℕ) := by
    exact_mod_cast nearest_grid_le positive
  rw [zpow_add₀ two_ne_zero, ← Nat.cast_add_one, zpow_natCast]
  exact mul_le_mul_of_nonneg_right cast (by positivity)

theorem bottom_le_round {x : ℝ} (positive : 0 < x) (normal : fmt.minExponent < grid fmt x) :
    2 ^ (places fmt + grid fmt x) ≤ round fmt x := by
  have cast : (2 : ℝ) ^ places fmt ≤ nearest (x / 2 ^ grid fmt x) := by
    exact_mod_cast le_nearest_grid positive normal
  rw [zpow_add₀ two_ne_zero, zpow_natCast]
  exact mul_le_mul_of_nonneg_right cast (by positivity)

theorem grid_mono {x y : ℝ} (positive : 0 < x) (below : x ≤ y) : grid fmt x ≤ grid fmt y := by
  have log := Int.log_mono_right (b := 2) positive below
  rw [grid, grid, abs_of_pos positive, abs_of_pos (positive.trans_le below)]
  omega

theorem round_mono_of_pos {x y : ℝ} (positive : 0 < x) (below : x ≤ y) :
    round fmt x ≤ round fmt y := by
  have other := positive.trans_le below
  rcases (grid_mono positive below).lt_or_eq with less | same
  · calc round fmt x ≤ 2 ^ (places fmt + 1 + grid fmt x) := round_le_top positive
      _ ≤ 2 ^ (places fmt + grid fmt y) := zpow_le_zpow_right₀ one_le_two (by omega)
      _ ≤ round fmt y := bottom_le_round other (lt_of_le_of_lt (le_max_right _ _) less)
  · unfold round
    rw [same]
    have scaled : x / 2 ^ grid fmt y ≤ y / 2 ^ grid fmt y :=
      div_le_div_of_nonneg_right below (by positivity)
    have cast : (nearest (x / 2 ^ grid fmt y) : ℝ) ≤ nearest (y / 2 ^ grid fmt y) := by
      exact_mod_cast nearest_mono scaled
    exact mul_le_mul_of_nonneg_right cast (by positivity)

theorem round_mono_of_nonneg {x y : ℝ} (nonneg : 0 ≤ x) (below : x ≤ y) :
    round fmt x ≤ round fmt y := by
  rcases nonneg.eq_or_lt with rfl | positive
  · rw [round_zero]
    exact round_nonneg below
  · exact round_mono_of_pos positive below

theorem round_mono : Monotone (round fmt) := by
  intro x y below
  rcases le_total 0 x with nonneg | negative
  · exact round_mono_of_nonneg nonneg below
  · rcases le_total 0 y with nonneg | other
    · have left : 0 ≤ round fmt (-x) := round_nonneg (neg_nonneg.mpr negative)
      rw [round_neg] at left
      exact (neg_nonneg.mp left).trans (round_nonneg nonneg)
    · have flipped : round fmt (-y) ≤ round fmt (-x) :=
        round_mono_of_nonneg (neg_nonneg.mpr other) (neg_le_neg below)
      rw [round_neg, round_neg] at flipped
      exact neg_le_neg_iff.mp flipped

theorem grid_le {n : ℕ} {e : ℤ} (some : 0 < n) (size : n < 2 ^ (places fmt + 1))
    (least : fmt.minExponent ≤ e) : grid fmt (n * 2 ^ e) ≤ e := by
  have positive : (0 : ℝ) < n * 2 ^ e := by positivity
  have cast : (n : ℝ) < 2 ^ ((places fmt : ℤ) + 1) := by exact_mod_cast size
  have below : (n * 2 ^ e : ℝ) < ((2 : ℕ) : ℝ) ^ ((places fmt : ℤ) + 1 + e) := by
    push_cast
    rw [zpow_add₀ two_ne_zero]
    gcongr
  have log := (Int.lt_zpow_iff_log_lt one_lt_two positive).mp below
  rw [grid, abs_of_pos positive]
  omega

/-- A number that a significand holds is not changed. -/
theorem round_of_lt {n : ℕ} {e : ℤ} (size : n < 2 ^ (places fmt + 1))
    (least : fmt.minExponent ≤ e) : round fmt (n * 2 ^ e) = n * 2 ^ e := by
  rcases Nat.eq_zero_or_pos n with rfl | some
  · simp [round_zero]
  · have fine := grid_le some size least
    obtain ⟨j, apart⟩ : ∃ j : ℕ, e - grid fmt (n * 2 ^ e) = j :=
      ⟨(e - grid fmt (n * 2 ^ e)).toNat, by omega⟩
    have whole : (n * 2 ^ e : ℝ) / 2 ^ grid fmt (n * 2 ^ e) = ((n * 2 ^ j : ℤ) : ℝ) := by
      rw [mul_div_assoc, ← zpow_sub₀ two_ne_zero, apart, zpow_natCast]
      push_cast
      rfl
    rw [round, whole, nearest_intCast, ← whole, div_mul_cancel₀]
    positivity

/-- So is a number of one bit more whose last bit is zero. -/
theorem round_of_le {n : ℕ} {e : ℤ} (size : n ≤ 2 ^ (places fmt + 1))
    (least : fmt.minExponent ≤ e) : round fmt (n * 2 ^ e) = n * 2 ^ e := by
  rcases size.lt_or_eq with less | rfl
  · exact round_of_lt less least
  · have half : (2 : ℕ) ^ places fmt < 2 ^ (places fmt + 1) := by
      rw [pow_succ]
      have := Nat.two_pow_pos (places fmt)
      omega
    have same : ((2 ^ (places fmt + 1) : ℕ) : ℝ) * 2 ^ e =
        ((2 ^ places fmt : ℕ) : ℝ) * 2 ^ (e + 1) := by
      rw [zpow_add₀ two_ne_zero]
      push_cast
      ring
    rw [same]
    exact round_of_lt half (by omega)

theorem abs_round_sub (x : ℝ) : |round fmt x - x| ≤ 2 ^ grid fmt x / 2 := by
  have scale : (0 : ℝ) < 2 ^ grid fmt x := by positivity
  have near : |x / 2 ^ grid fmt x - nearest (x / 2 ^ grid fmt x)| ≤ 1 / 2 :=
    (near_nearest _).elim le_of_lt fun tie => le_of_eq tie.1
  have apart : round fmt x - x =
      -((x / 2 ^ grid fmt x - nearest (x / 2 ^ grid fmt x)) * 2 ^ grid fmt x) := by
    rw [round]
    field_simp
    ring
  rw [apart, abs_neg, abs_mul, abs_of_pos scale]
  linarith [mul_le_mul_of_nonneg_right near scale.le]

/-- Above the least exponent rounding changes a number by no more than half of its last place. -/
theorem abs_round_sub_le {x : ℝ} (normal : 2 ^ (fmt.minExponent + places fmt) ≤ x) :
    |round fmt x - x| ≤ x / 2 ^ (places fmt + 1) := by
  have positive : 0 < x := lt_of_lt_of_le (by positivity) normal
  have reaches : fmt.minExponent + places fmt ≤ Int.log 2 x := by
    apply (Int.zpow_le_iff_le_log one_lt_two positive).mp
    exact_mod_cast normal
  have exponent : grid fmt x = Int.log 2 x - places fmt := by
    rw [grid, abs_of_pos positive]
    omega
  have low : (2 : ℝ) ^ Int.log 2 x ≤ x := by
    exact_mod_cast Int.zpow_log_le_self one_lt_two positive
  calc
    |round fmt x - x| ≤ 2 ^ grid fmt x / 2 := abs_round_sub x
    _ = 2 ^ Int.log 2 x / 2 ^ (places fmt + 1) := by
      rw [exponent, zpow_sub₀ two_ne_zero, zpow_natCast, div_div, pow_succ]
    _ ≤ x / 2 ^ (places fmt + 1) := by gcongr

end RealtimeAudio.Binary
