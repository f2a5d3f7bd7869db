import RealtimeAudio.Proofs.Single.Arithmetic

/-! Binary32 numbers whose exact results may be too large. Then the value is infinite, so that where
a result is finite, so are the operands, and it is the exact one rounded. Products keep the order of
magnitudes, also where the larger is infinite. -/
namespace RealtimeAudio.Single
open Binary
open Float.Model (Format UnpackedFloat)
open Float.Model.UnpackedFloat

variable {x y z : Float32} {r : ℝ}

section Operands

theorem not_finite_mul_left (unbounded : ¬Finite x) : ¬Finite (x * y) := by
  rw [Finite, unpack_mul]
  rcases special_of_not_finite unbounded with known | ⟨s, known⟩ <;> rw [known] <;>
    cases y.toModel.unpack <;> exact Bool.false_ne_true

theorem not_finite_add (unbounded : ¬Finite y) : ¬Finite (x + y) := by
  rw [Finite, unpack_add]
  rcases special_of_not_finite unbounded with known | ⟨s, known⟩ <;> rw [known]
  · cases x.toModel.unpack <;> exact Bool.false_ne_true
  · cases x.toModel.unpack with
    | infinity t => cases s <;> cases t <;> exact Bool.false_ne_true
    | _ => exact Bool.false_ne_true

theorem not_finite_div (unbounded : ¬Finite x) : ¬Finite (x / y) := by
  rw [Finite, unpack_div]
  rcases special_of_not_finite unbounded with known | ⟨s, known⟩ <;> rw [known] <;>
    cases y.toModel.unpack <;> exact Bool.false_ne_true

theorem Finite.factors (product : Finite (x * y)) : Finite x ∧ Finite y :=
  ⟨Decidable.byContradiction fun unbounded => not_finite_mul_left unbounded product,
    Decidable.byContradiction fun unbounded => not_finite_mul unbounded product⟩

theorem Finite.addend (sum : Finite (x + y)) : Finite y :=
  Decidable.byContradiction fun unbounded => not_finite_add unbounded sum

theorem Finite.dividend (quotient : Finite (x / y)) : Finite x :=
  Decidable.byContradiction fun unbounded => not_finite_div unbounded quotient

end Operands

section Values

theorem abs_toReal_lt (finite : Finite x) : |toReal x| < 2 ^ 128 := by
  have storable : Storable .binary32 x.toModel.unpack := storable_unpack _ (by decide)
  unfold toReal
  rcases unpack_of_finite finite with ⟨s, known⟩ | ⟨s, m, e, some, known⟩ <;> rw [known]
  · change |(0 : ℝ)| < 2 ^ 128
    rw [abs_zero]
    positivity
  · rw [known] at storable
    obtain ⟨small, -, -, fits⟩ := storable
    have below := magnitude_lt_top small fits
    rw [top_eq] at below
    have size : |signed s ((m : ℝ) * 2 ^ e)| = m * 2 ^ e := by
      cases s with
      | negative => exact (abs_neg _).trans (abs_of_pos (magnitude_pos some))
      | positive => exact abs_of_pos (magnitude_pos some)
    exact size.trans_lt below

/-- The format holds what it stores. -/
theorem fixed_toReal (finite : Finite x) : Fixed (toReal x) := by
  obtain ⟨above, below⟩ := abs_lt.mp (abs_toReal_lt finite)
  exact ⟨round_toReal x, clip_of_lt (by rwa [top_eq]) (by rwa [top_eq])⟩

/-- A finite value is the one that was to be stored. -/
theorem toReal_of_value (finite : Finite x) (known : value x = clip .binary32 r) : toReal x = r := by
  rw [value_eq finite, clip] at known
  split at known
  · exact absurd known (EReal.coe_ne_top _)
  · split at known
    · exact absurd known (EReal.coe_ne_bot _)
    · exact EReal.coe_injective known

theorem value_add (first : Finite x) (second : Finite y) :
    value (x + y) = clip .binary32 (Binary.round .binary32 (toReal x + toReal y)) := by
  obtain ⟨canonical, finite, exact⟩ :=
    add_finite (canonical_unpack x) (canonical_unpack y) first second
  rw [value, unpack_add, extended_stored (by decide) canonical finite, exact]
  rfl

/-- A sum that the format reaches is no more below zero than the exact one. -/
theorem toReal_add_nonneg (first : Finite x) (second : Finite y) (sum : Finite (x + y))
    (exact : 0 ≤ toReal x + toReal y) : 0 ≤ toReal (x + y) := by
  rw [toReal_of_value sum (value_add first second)]
  exact round_nonneg exact

theorem value_mul (first : Finite x) (second : Finite y) : Number (x * y) ∧
    value (x * y) = clip .binary32 (Binary.round .binary32 (toReal x * toReal y)) := by
  obtain ⟨canonical, finite, exact⟩ :=
    mul_real (by decide) (canonical_unpack x) (canonical_unpack y) first second
  constructor
  · change (x * y).toModel.unpack.isNaN = false
    rw [unpack_mul, isNaN_stored]
    exact isNaN_of_isFinite finite
  · rw [value, unpack_mul, extended_stored (by decide) canonical finite, exact]
    rfl

theorem toReal_mul (product : Finite (x * y)) :
    toReal (x * y) = Binary.round .binary32 (toReal x * toReal y) :=
  toReal_of_value product (value_mul product.factors.1 product.factors.2).2

theorem zero_le_mul (first : Finite x) (second : Finite y) (exact : 0 ≤ toReal x * toReal y) :
    0.0 ≤ x * y := by
  obtain ⟨number, product⟩ := value_mul first second
  have zero : value 0.0 = clip .binary32 (Binary.round .binary32 0) := by
    rw [fixed_zero.1, fixed_zero.2]
    rfl
  refine le_iff_value.mpr ⟨by decide +kernel, number, ?_⟩
  rw [zero, product]
  exact clip_mono (round_mono exact)

theorem div_top (finite : Finite x) : Finite (x / top) ∧ toReal (x / top) = 0 := by
  unfold Finite toReal
  rw [unpack_div, top_unpack]
  rcases unpack_of_finite finite with ⟨s, known⟩ | ⟨s, m, e, some, known⟩ <;> rw [known] <;>
    exact ⟨rfl, rfl⟩

end Values

section Magnitudes

theorem abs_eq (x : Float32) : x.abs = x ∨ x.abs = -x := by
  have parts : x.abs.toModel.unpack = x.toModel.unpack ∨
      x.abs.toModel.unpack = (-x).toModel.unpack := by
    rw [unpack_abs, unpack_neg]
    rcases x.toModel.unpack with (_ | _) | _ | (_ | _) | ⟨(_ | _), m, e, some⟩ <;>
      first | exact Or.inl rfl | exact Or.inr rfl
  exact parts.imp eq_of_unpack eq_of_unpack

theorem abs_le_of_le (above : x ≤ y) (below : -x ≤ y) : x.abs ≤ y := by
  rcases abs_eq x with same | turned
  · rwa [same]
  · rwa [turned]

theorem value_neg (number : Number x) : value (-x) = -value x := by
  rcases infinite_or_finite number with known | known | ⟨finite, -⟩
  · rw [value, value, unpack_neg, known]
    exact EReal.neg_bot.symm
  · rw [value, value, unpack_neg, known]
    exact EReal.neg_top.symm
  · obtain ⟨opposite, turned⟩ := neg_finite finite
    rw [value_eq opposite, value_eq finite, turned, EReal.coe_neg]

/-- By a larger factor nothing comes out smaller, even where it is too large for the format. -/
theorem abs_mul_le (first : Finite x) (second : Finite y) (third : Finite z)
    (nonneg : 0 ≤ toReal y) (below : toReal y ≤ toReal z) : (x * y).abs ≤ x.abs * z := by
  obtain ⟨size, magnitude⟩ := abs_finite first
  obtain ⟨number, product⟩ := value_mul first second
  obtain ⟨other, larger⟩ := value_mul size third
  have exact : |toReal x * toReal y| ≤ toReal x.abs * toReal z := by
    rw [abs_mul, abs_of_nonneg nonneg, magnitude]
    exact mul_le_mul_of_nonneg_left below (abs_nonneg _)
  obtain ⟨low, high⟩ := abs_le.mp exact
  apply abs_le_of_le
  · refine le_iff_value.mpr ⟨number, other, ?_⟩
    rw [product, larger]
    exact clip_mono (round_mono high)
  · have turned : Number (-(x * y)) := Decidable.byContradiction fun lost =>
      not_number_neg.mp lost number
    refine le_iff_value.mpr ⟨turned, other, ?_⟩
    rw [value_neg number, product, larger, ← clip_neg, ← round_neg]
    exact clip_mono (round_mono (neg_le.mp low))

end Magnitudes

end RealtimeAudio.Single
