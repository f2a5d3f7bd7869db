import RealtimeAudio.Proofs.Single.Arithmetic

/-! The two zeros of binary32. Operations may turn one into the other, but a sum, a mixture or a
finite multiple of zeros is a zero, and taking a zero away changes no other number. -/
namespace RealtimeAudio.Single
open Arithmetic Binary
open Float.Model (Format UnpackedFloat)
open Float.Model.UnpackedFloat

/-- A zero of either sign. -/
def IsZero (x : Float32) : Prop := x = 0.0 ∨ x = -0.0

instance : DecidablePred IsZero := fun x => inferInstanceAs (Decidable (x = 0.0 ∨ x = -0.0))

variable {a b t x y z : Float32}

theorem isZero_iff : IsZero x ↔ ∃ s, x.toModel.unpack = .zero s := by
  constructor
  · rintro (rfl | rfl)
    · exact ⟨.positive, rfl⟩
    · exact ⟨.negative, rfl⟩
  · rintro ⟨s, known⟩
    cases s with
    | positive => exact Or.inl (eq_of_unpack known)
    | negative => exact Or.inr (eq_of_unpack known)

theorem isZero_zero : IsZero 0.0 := Or.inl rfl

theorem IsZero.neg (zero : IsZero x) : IsZero (-x) := by
  rw [isZero_iff] at zero ⊢
  obtain ⟨s, known⟩ := zero
  rw [unpack_neg, known]
  exact ⟨-s, rfl⟩

theorem IsZero.add (first : IsZero x) (second : IsZero y) : IsZero (x + y) := by
  rw [isZero_iff] at first second ⊢
  obtain ⟨s, left⟩ := first
  obtain ⟨u, right⟩ := second
  rw [unpack_add, left, right]
  cases s <;> cases u <;> exact ⟨_, rfl⟩

theorem IsZero.sub (first : IsZero x) (second : IsZero y) : IsZero (x - y) := by
  rw [sub_eq]
  exact first.add second.neg

theorem IsZero.mul (finite : Finite t) (zero : IsZero x) : IsZero (t * x) := by
  rw [isZero_iff] at zero ⊢
  obtain ⟨s, known⟩ := zero
  rw [unpack_mul, known]
  rcases unpack_of_finite finite with ⟨u, factor⟩ | ⟨u, m, e, some, factor⟩ <;> rw [factor] <;>
    exact ⟨_, rfl⟩

theorem IsZero.div {n : ℕ} {f : ℤ} {some : 0 < n}
    (divisor : y.toModel.unpack = .finite .positive n f some) (zero : IsZero x) :
    IsZero (x / y) := by
  rw [isZero_iff] at zero ⊢
  obtain ⟨s, known⟩ := zero
  rw [unpack_div, known, divisor]
  exact ⟨_, rfl⟩

theorem IsZero.larger (first : IsZero x) (second : IsZero y) : IsZero (larger x y) := by
  rcases Ordered.larger_eq x y with same | same
  · rwa [same]
  · rwa [same]

theorem IsZero.mix (first : IsZero a) (second : IsZero b) (finite : Finite t) :
    IsZero (mix a b t) :=
  first.add (.mul finite (second.sub first))

/-- What a zero is taken away from stays the same to the last bit, but for a zero's sign. -/
theorem sub_isZero (zero : IsZero z) : x - z = x ∨ IsZero x ∧ IsZero (x - z) := by
  by_cases same : IsZero x
  · exact Or.inr ⟨same, same.sub zero⟩
  · left
    obtain ⟨s, known⟩ := isZero_iff.mp zero.neg
    apply eq_of_unpack
    rw [isZero_iff] at same
    have storable : Storable .binary32 x.toModel.unpack := storable_unpack _ (by decide)
    rw [sub_eq, unpack_add, known]
    cases whole : x.toModel.unpack with
    | zero u => exact absurd ⟨u, whole⟩ same
    | notANumber => rfl
    | infinity u => rfl
    | finite u m e some =>
      rw [whole] at storable
      exact stored_eq storable

end RealtimeAudio.Single
