import RealtimeAudio.Proofs.Binary.Significand

/-! Products and whole numbers in a binary format: the exact number, rounded. -/
namespace RealtimeAudio.Binary
open Float.Model (Format UnpackedFloat totalExponent)
open Float.Model.UnpackedFloat

variable {fmt : Format}

theorem describes_exact (m : ℕ) : Describes (.ofMantissaAndAccuracy m .exact) (m : ℝ) := rfl

theorem le_log {m : ℕ} {e : ℤ} (some : 0 < m) :
    (m.log2 : ℤ) + e ≤ Int.log 2 (m * 2 ^ e : ℝ) := by
  have low : (2 : ℝ) ^ (m.log2 : ℤ) ≤ m := by
    rw [zpow_natCast]
    exact_mod_cast Nat.log2_self_le some.ne'
  apply (Int.zpow_le_iff_le_log one_lt_two (magnitude_pos some)).mp
  push_cast
  rw [zpow_add₀ two_ne_zero]
  gcongr

/-- An exact significand, once it is no coarser than the grid, is rounded as a number. -/
theorem roundWithAccuracy_exact (s : Sign) {m : ℕ} {e : ℤ} (some : 0 < m)
    (fine : e ≤ grid fmt (m * 2 ^ e)) :
    Canonical fmt (roundWithAccuracy fmt s m e .exact) ∧
      (roundWithAccuracy fmt s m e .exact).isFinite = true ∧
      real (roundWithAccuracy fmt s m e .exact) = signed s (Binary.round fmt (m * 2 ^ e)) := by
  refine roundWithAccuracy_spec s (magnitude_pos some) ?_ fine
  rw [mul_div_cancel_right₀ _ (by positivity)]
  exact describes_exact m

/-- A whole number with an exponent is rounded as it is, however few bits it has. -/
theorem round_finite (s : Sign) {m : ℕ} {e : ℤ} (some : 0 < m) :
    Canonical fmt (UnpackedFloat.round fmt s m e) ∧
      (UnpackedFloat.round fmt s m e).isFinite = true ∧
      real (UnpackedFloat.round fmt s m e) = signed s (Binary.round fmt (m * 2 ^ e)) := by
  unfold UnpackedFloat.round decreaseExponent
  rw [targetExponent_eq]
  dsimp only
  generalize target : max ((m.log2 : ℤ) + e - places fmt) fmt.minExponent = t
  have shifted : ((m <<< (e - t).toNat : ℕ) : ℝ) * 2 ^ (e - ((e - t).toNat : ℤ)) = m * 2 ^ e := by
    rw [Nat.shiftLeft_eq, zpow_sub₀ two_ne_zero, zpow_natCast]
    push_cast
    field_simp
  have more : 0 < m <<< (e - t).toNat := by
    rw [Nat.shiftLeft_eq]
    positivity
  have log := le_log (e := e) some
  rw [← shifted]
  refine roundWithAccuracy_exact s more ?_
  rw [shifted, grid, abs_of_pos (magnitude_pos some)]
  omega

theorem mul_finite (s t : Sign) {m n : ℕ} {e f : ℤ} (hm : 0 < m) (hn : 0 < n)
    (fine : places fmt ≤ (m * n).log2 ∨ e + f ≤ fmt.minExponent) :
    let product := mul fmt (.finite s m e hm) (.finite t n f hn)
    Canonical fmt product ∧ product.isFinite = true ∧
      real product = signed (s * t) (Binary.round fmt ((m * 2 ^ e : ℝ) * (n * 2 ^ f))) := by
  have joined : ((m * n : ℕ) : ℝ) * 2 ^ (e + f) = (m * 2 ^ e : ℝ) * (n * 2 ^ f) := by
    rw [zpow_add₀ two_ne_zero]
    push_cast
    ring
  have some : 0 < m * n := Nat.mul_pos hm hn
  have log := le_log (e := e + f) some
  dsimp only [mul]
  rw [← joined]
  refine roundWithAccuracy_exact (s * t) some ?_
  rw [grid, abs_of_pos (magnitude_pos some)]
  omega

/-- Stored significands leave their product fine enough. -/
theorem fine_of_canonical {s t : Sign} {m n : ℕ} {e f : ℤ} {hm : 0 < m} {hn : 0 < n}
    (subnormal : fmt.minExponent ≤ 0) (left : Canonical fmt (.finite s m e hm))
    (right : Canonical fmt (.finite t n f hn)) :
    places fmt ≤ (m * n).log2 ∨ e + f ≤ fmt.minExponent := by
  have some : m * n ≠ 0 := (Nat.mul_pos hm hn).ne'
  rcases left.2.2 with least | full
  · rcases right.2.2 with other | full
    · right
      omega
    · left
      exact (Nat.le_log2 some).mpr (full.trans (Nat.le_mul_of_pos_left n hm))
  · left
    exact (Nat.le_log2 some).mpr (full.trans (Nat.le_mul_of_pos_right m hn))

/-- The sign of a product. -/
theorem signed_mul (s t : Sign) (x y : ℝ) : signed (s * t) (x * y) = signed s x * signed t y := by
  cases s <;> cases t
  · exact (neg_mul_neg x y).symm
  · exact (neg_mul x y).symm
  · exact (mul_neg x y).symm
  · rfl

theorem signed_round (s : Sign) (x : ℝ) :
    signed s (Binary.round fmt x) = Binary.round fmt (signed s x) := by
  cases s with
  | negative => exact (round_neg x).symm
  | positive => rfl

/-- The product of finite values is the exact one, rounded. -/
theorem mul_real {u v : UnpackedFloat} (subnormal : fmt.minExponent ≤ 0) (left : Canonical fmt u)
    (right : Canonical fmt v) (first : u.isFinite = true) (second : v.isFinite = true) :
    Canonical fmt (mul fmt u v) ∧ (mul fmt u v).isFinite = true ∧
      real (mul fmt u v) = Binary.round fmt (real u * real v) := by
  have none (x : ℝ) : Binary.round fmt (0 * x) = 0 := by rw [zero_mul, round_zero]
  cases u with
  | notANumber => cases first
  | infinity s => cases first
  | zero s =>
    cases v with
    | notANumber => cases second
    | infinity t => cases second
    | zero t => exact ⟨trivial, rfl, (none _).symm⟩
    | finite t n f hn => exact ⟨trivial, rfl, (none _).symm⟩
  | finite s m e hm =>
    cases v with
    | notANumber => cases second
    | infinity t => cases second
    | zero t =>
      refine ⟨trivial, rfl, ?_⟩
      rw [mul_comm]
      exact (none _).symm
    | finite t n f hn =>
      obtain ⟨canonical, finite, value⟩ :=
        mul_finite s t hm hn (fine_of_canonical subnormal left right)
      refine ⟨canonical, finite, value.trans ?_⟩
      rw [signed_round, signed_mul]
      rfl

theorem canonical_mul {u v : UnpackedFloat} (subnormal : fmt.minExponent ≤ 0)
    (left : Canonical fmt u) (right : Canonical fmt v) : Canonical fmt (mul fmt u v) := by
  cases u with
  | finite s m e hm =>
    cases v with
    | finite t n f hn => exact (mul_finite s t hm hn (fine_of_canonical subnormal left right)).1
    | _ => trivial
  | _ => cases v <;> trivial

theorem ofNat_finite {n : ℕ} (some : 0 < n) :
    Canonical fmt (UnpackedFloat.ofNat fmt n) ∧ (UnpackedFloat.ofNat fmt n).isFinite = true ∧
      real (UnpackedFloat.ofNat fmt n) = Binary.round fmt n := by
  have above : compare (n : ℤ) 0 = .gt := by
    rw [compare_gt_iff_gt]
    exact_mod_cast some
  have same : UnpackedFloat.ofNat fmt n = UnpackedFloat.round fmt .positive n 0 := by
    unfold UnpackedFloat.ofNat ofInt UnpackedFloat.normalize
    rw [above]
    rfl
  have whole : (n : ℝ) * 2 ^ (0 : ℤ) = n := by rw [zpow_zero, mul_one]
  rw [same, ← whole]
  exact round_finite .positive some

end RealtimeAudio.Binary
