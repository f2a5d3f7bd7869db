import RealtimeAudio.Proofs.Binary.Packing
import RealtimeAudio.Proofs.Single.Order

/-! Magnitudes of binary32 numbers. A magnitude has no sign, not even that of a negative zero, so
magnitudes that are equal as numbers are the same value. -/
namespace RealtimeAudio.Single
open Binary
open Float.Model (Format UnpackedFloat)
open Float.Model.UnpackedFloat

theorem storable_abs {fmt : Format} {u : UnpackedFloat} (storable : Storable fmt u) :
    Storable fmt u.abs := by
  cases u with
  | finite s m e positive => exact storable
  | _ => trivial

theorem unpack_abs (x : Float32) : x.abs.toModel.unpack = x.toModel.unpack.abs := by
  have storable : Storable Format.binary32 x.toModel.unpack.abs :=
    storable_abs (storable_unpack _ (by decide))
  have packed : x.abs.toModel.unpack =
      unpack Format.binary32 (pack Format.binary32 x.toModel.unpack.abs) := rfl
  rw [packed, unpack_pack (canonical_of_storable storable), stored_eq storable]

theorem number_abs (x : Float32) : Number x.abs ↔ Number x := by
  change x.abs.toModel.unpack.isNaN = false ↔ x.toModel.unpack.isNaN = false
  rw [unpack_abs]
  cases x.toModel.unpack <;> rfl

theorem abs_congr {x y : Float32} (same : x.toModel.unpack.abs = y.toModel.unpack.abs) :
    x.abs = y.abs :=
  congrArg (fun u => Float32.ofModel (.pack u)) same

theorem abs_abs (x : Float32) : x.abs.abs = x.abs := by
  apply abs_congr
  rw [unpack_abs]
  cases x.toModel.unpack <;> rfl

/-- Among values without a sign, each number is its own rank. -/
theorem abs_eq_of_rank {a b : UnpackedFloat} (left : a.isNaN = false) (right : b.isNaN = false)
    (same : rank a.abs = rank b.abs) : a.abs = b.abs := by
  cases a <;> cases b <;> first
    | contradiction
    | rfl
    | (simp [UnpackedFloat.abs, rank] at same; done)
    | (simp [UnpackedFloat.abs, rank] at same ⊢; grind)

theorem abs_eq_of_le {x y : Float32} (left : x.abs = x) (right : y.abs = y) (below : x ≤ y)
    (above : y ≤ x) : x = y := by
  obtain ⟨number, other, less⟩ := le_iff.mp below
  have greater := (le_iff.mp above).2.2
  rw [← left, ← right] at less greater ⊢
  rw [unpack_abs, unpack_abs] at less greater
  exact abs_congr (abs_eq_of_rank number other (le_antisymm less greater))

end RealtimeAudio.Single
