import RealtimeAudio.Arithmetic.Single
import RealtimeAudio.Proofs.Arithmetic.Order
import RealtimeAudio.Proofs.Binary.Order

/-! The order of binary32 numbers, which is that of their ranks. Nothing is below the bottom. -/
namespace RealtimeAudio.Single
open Binary

def Number (x : Float32) : Prop := x.isNaN = false

instance : DecidablePred Number := fun x => inferInstanceAs (Decidable (x.isNaN = false))

theorem le_iff {x y : Float32} :
    x ≤ y ↔ Number x ∧ Number y ∧ rank x.toModel.unpack ≤ rank y.toModel.unpack :=
  decide_eq_true_iff.trans (le_iff_rank x.toModel.unpack y.toModel.unpack)

theorem lt_iff {x y : Float32} :
    x < y ↔ Number x ∧ Number y ∧ rank x.toModel.unpack < rank y.toModel.unpack :=
  decide_eq_true_iff.trans (lt_iff_rank x.toModel.unpack y.toModel.unpack)

theorem bottom_unpack : (Arithmetic.bottom : Float32).toModel.unpack = .infinity .negative := rfl

theorem ordered : Arithmetic.Ordered Float32 Number where
  le_self_iff x := le_iff.trans ⟨fun h => h.1, fun h => ⟨h, h, le_rfl⟩⟩
  numbers h := ⟨(le_iff.mp h).1, (le_iff.mp h).2.1⟩
  trans h₁ h₂ := by
    obtain ⟨left, -, first⟩ := le_iff.mp h₁
    obtain ⟨-, right, second⟩ := le_iff.mp h₂
    exact le_iff.mpr ⟨left, right, first.trans second⟩
  total left right := (le_total _ _).imp (fun h => le_iff.mpr ⟨left, right, h⟩)
    fun h => le_iff.mpr ⟨right, left, h⟩
  lt_iff x y := by
    rw [lt_iff]
    refine and_congr_right fun left => and_congr_right fun right => ?_
    rw [le_iff, ← not_le]
    exact not_congr ⟨fun h => ⟨right, left, h⟩, fun h => h.2.2⟩
  bottom_le {x} number := by
    refine le_iff.mpr ⟨by decide +kernel, number, ?_⟩
    rw [bottom_unpack]
    exact rank_infinity_le _

end RealtimeAudio.Single
