import Mathlib.Algebra.Order.Floor.Semifield
import RealtimeAudio.Proofs.Single.Arithmetic

/-! Binary32 numbers as counts. A value becomes the nearest whole number, halves away from zero, and
is brought between zero and a limit; infinities go to the ends and what is no number to zero. -/
namespace RealtimeAudio
open Arithmetic Binary Single
open Float.Model (Format UnpackedFloat)
open Float.Model.UnpackedFloat

/-- `n` is the count that `x` stands for, at most `limit`. -/
structure Counts (limit : ℕ) (x : Float32) (n : ℕ) : Prop where
  finite : Finite x → n = min limit ⌊toReal x + 1 / 2⌋₊
  top : x = top → n = limit
  bottom : x = Arithmetic.bottom → n = 0
  undefined : ¬Number x → n = 0

theorem Counts.le {limit n : ℕ} {x : Float32} (counts : Counts limit x n) : n ≤ limit := by
  by_cases number : Number x
  · rcases infinite_or_finite number with low | high | ⟨finite, -⟩
    · have same : x = Arithmetic.bottom := eq_of_unpack (low.trans bottom_unpack.symm)
      exact (counts.bottom same).trans_le (Nat.zero_le limit)
    · exact (counts.top (eq_top_iff.mpr high)).le
    · exact (counts.finite finite).trans_le (Nat.min_le_left _ _)
  · exact (counts.undefined number).trans_le (Nat.zero_le limit)

theorem BinaryValue.wholeUpTo_finite (limit m : ℕ) (e : ℤ) :
    (BinaryValue.finite false m e).wholeUpTo limit = min limit ⌊(m : ℝ) * 2 ^ e + 1 / 2⌋₊ := by
  simp only [BinaryValue.wholeUpTo, Bool.false_eq_true, if_false]
  split
  · rename_i whole
    obtain ⟨k, rfl⟩ := Int.eq_ofNat_of_zero_le whole
    have exact : (m : ℝ) * 2 ^ (k : ℤ) = ((m * 2 ^ k : ℕ) : ℝ) := by push_cast; rfl
    have half : ⌊((m * 2 ^ k : ℕ) : ℝ) + 1 / 2⌋₊ = m * 2 ^ k := by
      rw [Nat.floor_eq_iff (by positivity)]
      constructor <;> linarith
    rw [exact, half]
    rfl
  · rename_i fraction
    obtain ⟨k, rfl⟩ : ∃ k : ℕ, e = -k := ⟨(-e).toNat, by omega⟩
    have half : (m : ℝ) * 2 ^ (-(k : ℤ)) + 1 / 2 = ((2 * m + 2 ^ k : ℕ) : ℝ) / (2 * 2 ^ k : ℕ) := by
      rw [zpow_neg, zpow_natCast]
      push_cast
      field_simp
    rw [half, Nat.floor_div_eq_div, neg_neg]
    rfl

/-- A number that is not above zero is no more than half of one. -/
theorem floor_add_half_eq_zero {r : ℝ} (below : r ≤ 0) : ⌊r + 1 / 2⌋₊ = 0 :=
  Nat.floor_eq_zero.mpr (by linarith)

theorem counts_wholeUpTo (limit : ℕ) (x : Float32) : Counts limit x (wholeUpTo limit x) := by
  have decodes : wholeUpTo limit x = (decoded .binary32 x.toModel.unpack).wholeUpTo limit :=
    congrArg (BinaryValue.wholeUpTo limit) (decode_toBits x)
  rw [decodes]
  constructor
  case finite =>
    intro finite
    unfold toReal
    rcases unpack_of_finite finite with ⟨s, known⟩ | ⟨s, m, e, some, known⟩ <;> rw [known]
    · have zero : ⌊real (.zero s) + 1 / 2⌋₊ = 0 := floor_add_half_eq_zero le_rfl
      rw [zero, Nat.min_zero]
      cases s with
      | negative => rfl
      | positive => simp [decoded, negative, BinaryValue.wholeUpTo]
    · cases s with
      | negative =>
        rw [floor_add_half_eq_zero (real_negative some).le, Nat.min_zero]
        rfl
      | positive => exact BinaryValue.wholeUpTo_finite limit m e
  case top =>
    rintro rfl
    rfl
  case bottom =>
    rintro rfl
    rfl
  case undefined =>
    intro undefined
    rw [not_number_iff.mp undefined]
    rfl

end RealtimeAudio
