import RealtimeAudio.Proofs.Binary.Division
import RealtimeAudio.Proofs.Single.Order

/-! Division of binary32 numbers by a positive number is monotone, infinities included. -/
namespace RealtimeAudio.Single
open Binary
open Float.Model (Format UnpackedFloat)
open Float.Model.UnpackedFloat

/-- The number that a binary32 value stands for. -/
noncomputable def value (x : Float32) : EReal := extended x.toModel.unpack

theorem le_iff_value {x y : Float32} : x ≤ y ↔ Number x ∧ Number y ∧ value x ≤ value y := by
  rw [le_iff, rank_le_iff]
  · rfl
  · exact canonical_of_storable (storable_unpack _ (by decide))
  · exact canonical_of_storable (storable_unpack _ (by decide))

theorem unpack_div (x d : Float32) : (x / d).toModel.unpack =
    stored Format.binary32 (div Format.binary32 x.toModel.unpack d.toModel.unpack) :=
  unpack_pack (canonical_div _ _)

theorem number_div {x d : Float32} {n : ℕ} {f : ℤ} {hn : 0 < n}
    (divisor : d.toModel.unpack = .finite .positive n f hn) (number : Number x) :
    Number (x / d) := by
  change (x / d).toModel.unpack.isNaN = false
  rw [unpack_div, divisor, isNaN_stored]
  exact div_number hn number

theorem div_mono {x y d : Float32} {n : ℕ} {f : ℤ} {hn : 0 < n}
    (divisor : d.toModel.unpack = .finite .positive n f hn) (below : x ≤ y) : x / d ≤ y / d := by
  obtain ⟨left, right, values⟩ := le_iff_value.mp below
  refine le_iff_value.mpr ⟨number_div divisor left, number_div divisor right, ?_⟩
  rw [value, value, unpack_div, unpack_div, divisor]
  exact extended_div_mono (by decide) hn left right values

end RealtimeAudio.Single
