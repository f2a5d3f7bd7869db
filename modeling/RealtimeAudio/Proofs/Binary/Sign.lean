import RealtimeAudio.Proofs.Binary.Sum

/-! Signs of results, those of zeros and infinities included. Rounding keeps the sign, a quotient
has that of its terms, and a sum that is not negative has no minus sign unless both terms are
zero. -/
namespace RealtimeAudio.Binary
open Float.Model (Format UnpackedFloat)
open Float.Model.UnpackedFloat

/-- A number, with that sign. -/
def HasSign (s : Sign) : UnpackedFloat → Prop
  | .infinity t | .zero t | .finite t _ _ _ => t = s
  | .notANumber => False

variable {fmt : Format} {s t : Sign} {u v : UnpackedFloat}

theorem HasSign.number (signed : HasSign s u) : u.isNaN = false := by
  cases u with
  | notANumber => cases signed
  | _ => rfl

theorem HasSign.stored (signed : HasSign s u) : HasSign s (stored fmt u) := by
  cases u with
  | finite t m e some =>
    rw [Binary.stored]
    split <;> exact signed
  | _ => exact signed

theorem hasSign_roundWithAccuracy (s : Sign) (m : ℕ) (e : ℤ) (acc : Accuracy) :
    HasSign s (roundWithAccuracy fmt s m e acc) := by
  unfold roundWithAccuracy
  dsimp only
  split <;> rfl

/-- A finite number other than zero divided by a number. -/
theorem hasSign_div {m : ℕ} {e : ℤ} (some : 0 < m) (divisor : HasSign t v) :
    HasSign (s / t) (div fmt (.finite s m e some) v) := by
  cases v with
  | notANumber => cases divisor
  | infinity r => cases divisor; rfl
  | zero r => cases divisor; rfl
  | finite r n f hn =>
    cases divisor
    exact hasSign_roundWithAccuracy _ _ _ _

theorem hasSign_mul {m : ℕ} {e : ℤ} (some : 0 < m) (factor : HasSign t v) :
    HasSign (s * t) (mul fmt (.finite s m e some) v) := by
  cases v with
  | notANumber => cases factor
  | infinity r => cases factor; rfl
  | zero r => cases factor; rfl
  | finite r n f hn =>
    cases factor
    exact hasSign_roundWithAccuracy _ _ _ _

theorem hasSign_add {m : ℕ} {e : ℤ} (some : 0 < m) (finite : v.isFinite = true)
    (nonneg : 0 ≤ real (.finite .positive m e some) + real v) :
    HasSign .positive (add fmt (.finite .positive m e some) v) := by
  cases v with
  | notANumber => cases finite
  | infinity r => cases finite
  | zero r => rfl
  | finite r n f hn =>
    have exact : real (.finite .positive m e some) + real (.finite r n f hn) =
        ((Sign.positive.apply (decreaseExponent m e (min e f)).1 +
          r.apply (decreaseExponent n f (min e f)).1 : ℤ) : ℝ) * 2 ^ min e f := by
      rw [Int.cast_add, add_mul, real_decreased _ m (min_le_left e f),
        real_decreased r n (min_le_right e f)]
      rfl
    rw [exact] at nonneg
    have whole := nonneg_of_mul_nonneg_left nonneg (by positivity)
    unfold UnpackedFloat.add
    dsimp only
    generalize Sign.positive.apply (decreaseExponent m e (min e f)).1 +
      r.apply (decreaseExponent n f (min e f)).1 = k at whole ⊢
    have least : 0 ≤ k := by exact_mod_cast whole
    unfold UnpackedFloat.normalize
    rcases least.eq_or_lt with rfl | above
    · rfl
    · rw [compare_gt_iff_gt.mpr above]
      exact hasSign_roundWithAccuracy _ _ _ _

end RealtimeAudio.Binary
