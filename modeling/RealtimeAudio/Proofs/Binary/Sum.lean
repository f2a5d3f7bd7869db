import RealtimeAudio.Proofs.Binary.Product

/-! Sums and differences in a binary format: the exact number, rounded. A difference is a sum with
the second value negated. -/
namespace RealtimeAudio.Binary
open Float.Model (Format UnpackedFloat)
open Float.Model.UnpackedFloat

variable {fmt : Format}

theorem real_neg (u : UnpackedFloat) : real u.neg = -real u := by
  cases u with
  | finite s m e some =>
    cases s with
    | negative => exact (neg_neg _).symm
    | positive => rfl
  | _ => exact neg_zero.symm

/-- A value of the format is not changed by rounding. -/
theorem round_real {u : UnpackedFloat} (canonical : Canonical fmt u) :
    Binary.round fmt (real u) = real u := by
  cases u with
  | finite s m e some =>
    obtain ⟨bits, least, -⟩ := canonical
    have held : Binary.round fmt (m * 2 ^ e) = m * 2 ^ e := round_of_lt bits least
    cases s with
    | positive => exact held
    | negative =>
      change Binary.round fmt (-(m * 2 ^ e)) = -(m * 2 ^ e)
      rw [round_neg, held]
  | _ => exact round_zero

/-- A whole number of either sign with an exponent is rounded. -/
theorem normalize_finite (fmt : Format) (k e : ℤ) :
    let u := UnpackedFloat.normalize fmt k e .positive
    Canonical fmt u ∧ u.isFinite = true ∧ real u = Binary.round fmt (k * 2 ^ e) := by
  unfold UnpackedFloat.normalize
  rcases lt_trichotomy k 0 with below | rfl | above
  · rw [compare_lt_iff_lt.mpr below]
    obtain ⟨n, rfl⟩ : ∃ n : ℕ, k = -n := ⟨(-k).toNat, by omega⟩
    have some : 0 < (- -(n : ℤ)).toNat := by omega
    obtain ⟨canonical, finite, value⟩ := @round_finite fmt .negative _ e some
    refine ⟨canonical, finite, value.trans ?_⟩
    have same : (- -(n : ℤ)).toNat = n := by omega
    rw [same]
    push_cast
    rw [neg_mul, round_neg]
    rfl
  · have zero : ((0 : ℤ) : ℝ) * 2 ^ e = 0 := by simp
    rw [zero, round_zero]
    exact ⟨trivial, rfl, rfl⟩
  · rw [compare_gt_iff_gt.mpr above]
    obtain ⟨n, rfl⟩ : ∃ n : ℕ, k = n := ⟨k.toNat, by omega⟩
    have some : 0 < ((n : ℤ)).toNat := by omega
    exact round_finite .positive some

/-- A significand brought to a lower exponent. -/
theorem real_decreased (s : Sign) (m : ℕ) {e t : ℤ} (below : t ≤ e) :
    ((s.apply ((UnpackedFloat.decreaseExponent m e t).1 : ℤ) : ℤ) : ℝ) * 2 ^ t =
      signed s (m * 2 ^ e) := by
  have shift : ((e - t).toNat : ℤ) = e - t := by omega
  have lowered : ((m <<< (e - t).toNat : ℕ) : ℝ) * 2 ^ t = m * 2 ^ e := by
    rw [Nat.shiftLeft_eq]
    push_cast
    rw [← zpow_natCast, shift, mul_assoc, ← zpow_add₀ two_ne_zero, sub_add_cancel]
  unfold UnpackedFloat.decreaseExponent
  cases s with
  | positive => exact_mod_cast lowered
  | negative =>
    simp only [Sign.apply, signed, Int.cast_neg, Int.cast_natCast, neg_mul]
    rw [lowered]

theorem add_finite {u v : UnpackedFloat} (left : Canonical fmt u) (right : Canonical fmt v)
    (first : u.isFinite = true) (second : v.isFinite = true) :
    let sum := UnpackedFloat.add fmt u v
    Canonical fmt sum ∧ sum.isFinite = true ∧ real sum = Binary.round fmt (real u + real v) := by
  cases u with
  | notANumber => cases first
  | infinity s => cases first
  | zero s =>
    cases v with
    | notANumber => cases second
    | infinity t => cases second
    | zero t =>
      have none : real (.zero s) + real (.zero t) = 0 := add_zero 0
      rw [none, round_zero]
      unfold UnpackedFloat.add
      dsimp only
      split <;> exact ⟨trivial, rfl, rfl⟩
    | finite t n f some =>
      have same : real (.zero s) + real (.finite t n f some) = real (.finite t n f some) :=
        zero_add _
      rw [same, round_real right]
      exact ⟨right, rfl, rfl⟩
  | finite s m e hm =>
    cases v with
    | notANumber => cases second
    | infinity t => cases second
    | zero t =>
      have same : real (.finite s m e hm) + real (.zero t) = real (.finite s m e hm) :=
        add_zero _
      rw [same, round_real left]
      exact ⟨left, rfl, rfl⟩
    | finite t n f hn =>
      have exact := normalize_finite fmt
        (s.apply (UnpackedFloat.decreaseExponent m e (min e f)).1 +
          t.apply (UnpackedFloat.decreaseExponent n f (min e f)).1) (min e f)
      rw [Int.cast_add, add_mul, real_decreased s m (min_le_left e f),
        real_decreased t n (min_le_right e f)] at exact
      exact exact

theorem canonical_add {u v : UnpackedFloat} (left : Canonical fmt u) (right : Canonical fmt v) :
    Canonical fmt (UnpackedFloat.add fmt u v) := by
  by_cases first : u.isFinite = true
  · by_cases second : v.isFinite = true
    · exact (add_finite left right first second).1
    · cases u <;> cases v <;> trivial
  · cases u <;> cases v <;>
      first
      | exact absurd rfl first
      | trivial
      | (unfold UnpackedFloat.add; dsimp only; split <;> trivial)

theorem sub_eq (u v : UnpackedFloat) :
    UnpackedFloat.sub fmt u v = UnpackedFloat.add fmt u v.neg := by
  cases u <;> cases v <;> try rfl
  case finite.finite s m e hm t n f hn =>
    have turned (k : ℤ) : Sign.apply (-t) k = -Sign.apply t k := by
      cases t
      · exact (neg_neg k).symm
      · rfl
    simp only [UnpackedFloat.sub, UnpackedFloat.add, UnpackedFloat.neg, turned, sub_eq_add_neg]

end RealtimeAudio.Binary
