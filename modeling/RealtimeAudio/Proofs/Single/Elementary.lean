import RealtimeAudio.Decibel
import RealtimeAudio.Proofs.Single.Mixing

/-! Exponentials and logarithms of binary32 numbers, as far as the platform documents them: their
range, and what they make of infinity and of what is not a number. With that a time that has no
minus sign gives a smoothing coefficient from 0 to 1, and a level gives a logarithm. -/
namespace RealtimeAudio
open Arithmetic Binary Single
open Float.Model (Format UnpackedFloat)
open Float.Model.UnpackedFloat

/-- What smoothing relies on: up to zero, the exponential lies between 0 and 1. -/
structure Elementary.Damped [Elementary Float32] : Prop where
  exp_unit : ∀ {x : Float32}, x ≤ 0.0 → 0.0 ≤ Elementary.exp x ∧ Elementary.exp x ≤ 1.0

/-- What is documented of the exponential and the natural logarithm. -/
structure Elementary.Documented [Elementary Float32] : Prop where
  exp_undefined : ∀ {x : Float32}, ¬Number x → ¬Number (Elementary.exp x)
  exp_nonneg : ∀ {x : Float32}, Number x → 0.0 ≤ Elementary.exp x
  exp_le_one : ∀ {x : Float32}, x ≤ 0.0 → Elementary.exp x ≤ 1.0
  ln_top : Elementary.ln top = top
  ln_range : ∀ {x : Float32}, Level.amplitudeFloor ≤ x → Finite x →
    -128.0 ≤ Elementary.ln x ∧ Elementary.ln x ≤ 128.0

/-- What that says of times, and of levels as they are before any sum. -/
structure Elementary.Ranged [Elementary Float32] : Prop where
  exp_unit : ∀ {x : Float32}, x ≤ 0.0 → 0.0 ≤ Elementary.exp x ∧ Elementary.exp x ≤ 1.0
  ln_top : Elementary.ln top = top
  ln_range : ∀ {x : Float32}, Level.amplitudeFloor ≤ x → Finite x →
    -128.0 ≤ Elementary.ln x ∧ Elementary.ln x ≤ 128.0

theorem Elementary.Documented.ranged [Elementary Float32] (documented : Elementary.Documented) :
    Elementary.Ranged where
  exp_unit below := ⟨documented.exp_nonneg (ordered.numbers below).1, documented.exp_le_one below⟩
  ln_top := documented.ln_top
  ln_range := documented.ln_range

theorem Elementary.Ranged.damped [Elementary Float32] (ranged : Elementary.Ranged) :
    Elementary.Damped where
  exp_unit := ranged.exp_unit

namespace Single
variable {x y : Float32} {l h : ℝ}

theorem toReal_of_unpack {s : Sign} {m : ℕ} {e : ℤ} {some : 0 < m}
    (known : x.toModel.unpack = .finite s m e some) : toReal x = signed s (m * 2 ^ e) := by
  rw [toReal, known]
  rfl

/-- What lies between finite numbers is finite. -/
theorem spans_of_le {low high : Float32} (least : low ≤ x) (most : x ≤ high)
    (left : Finite low) (right : Finite high) : Spans (toReal low) (toReal high) x := by
  have number := (ordered.numbers least).2
  have bottom := (le_iff_value.mp least).2.2
  have above := (le_iff_value.mp most).2.2
  rw [value_eq left] at bottom
  rw [value_eq right] at above
  rcases infinite_or_finite number with known | known | ⟨finite, -⟩
  · rw [value, known] at bottom
    exact absurd bottom (not_le.mpr (EReal.bot_lt_coe _))
  · rw [value, known] at above
    exact absurd above (not_le.mpr (EReal.coe_lt_top _))
  · exact ⟨finite, (le_iff_toReal left finite).mp least, (le_iff_toReal finite right).mp most⟩

theorem Spans.between {low high : Float32} (spans : Spans (toReal low) (toReal high) x)
    (left : Finite low) (right : Finite high) : low ≤ x ∧ x ≤ high :=
  ⟨(le_iff_toReal left spans.finite).mpr spans.least,
    (le_iff_toReal spans.finite right).mpr spans.most⟩

/-- What is above a finite number is finite or the positive infinity. -/
theorem finite_or_top {low : Float32} (least : low ≤ x) (left : Finite low) :
    Finite x ∨ x = top := by
  have bottom := (le_iff_value.mp least).2.2
  rw [value_eq left] at bottom
  rcases infinite_or_finite (ordered.numbers least).2 with known | known | ⟨finite, -⟩
  · rw [value, known] at bottom
    exact absurd bottom (not_le.mpr (EReal.bot_lt_coe _))
  · exact Or.inr (eq_top_iff.mpr known)
  · exact Or.inl finite

theorem zero_finite : Finite 0.0 := by decide +kernel

theorem one_finite : Finite 1.0 := by decide +kernel

theorem toReal_zero : toReal 0.0 = 0 := rfl

theorem toReal_one : toReal 1.0 = 1 := by
  have known : (1.0 : Float32).toModel.unpack = .finite .positive 8388608 (-23) (by decide) := rfl
  rw [toReal_of_unpack known]
  norm_num [signed]

theorem Spans.unit (spans : Spans 0 1 x) : 0.0 ≤ x ∧ x ≤ 1.0 := by
  rw [← toReal_zero, ← toReal_one] at spans
  exact spans.between zero_finite one_finite

theorem toReal_half : toReal 0.5 = 1 / 2 := by
  have known : (0.5 : Float32).toModel.unpack = .finite .positive 8388608 (-24) (by decide) := rfl
  rw [toReal_of_unpack known]
  norm_num [signed]

theorem toReal_two : toReal 2.0 = 2 := by
  have known : (2.0 : Float32).toModel.unpack = .finite .positive 8388608 (-22) (by decide) := rfl
  rw [toReal_of_unpack known]
  norm_num [signed]

theorem fixed_one : Fixed 1 := by
  have fixed := fixed_two_pow (k := 0) (by norm_num)
  rwa [pow_zero] at fixed

theorem larger_spans (first : Spans l h x) (second : Spans l h y) : Spans l h (larger x y) := by
  rcases Ordered.larger_eq x y with same | same
  · rwa [same]
  · rwa [same]

theorem larger_zero_spans (spans : Spans l h x) (nonneg : 0 ≤ h) : Spans 0 h (larger x 0.0) := by
  have above := ordered.le_larger_right (x := x) zero_finite.number
  rcases Ordered.larger_eq x 0.0 with same | same
  · rw [same] at above ⊢
    exact ⟨spans.finite, (le_iff_toReal zero_finite spans.finite).mp above, spans.most⟩
  · rw [same]
    exact ⟨zero_finite, le_rfl, nonneg⟩

theorem le_zero_of_hasSign (sign : HasSign .negative x.toModel.unpack) : x ≤ 0.0 := by
  have zero : (0.0 : Float32).toModel.unpack = .zero .positive := rfl
  refine le_iff.mpr ⟨sign.number, by decide +kernel, ?_⟩
  rw [zero]
  generalize x.toModel.unpack = u at sign
  rcases u with (_ | _) | _ | s | ⟨(_ | _), m, e, some⟩ <;>
    first
    | cases sign; done
    | simp [rank, Prod.Lex.toLex_le_toLex]

theorem hasSign_of_pos (finite : Finite x) (positive : 0 < toReal x) :
    HasSign .positive x.toModel.unpack := by
  obtain ⟨m, e, some, known⟩ := unpack_of_pos finite positive
  rw [known]
  rfl

/-- Nothing from 1.0 on has a minus sign. -/
theorem hasSign_of_one_le (above : 1.0 ≤ x) : HasSign .positive x.toModel.unpack := by
  rcases finite_or_infinite (ordered.numbers above).2 with finite | infinite
  · refine hasSign_of_pos finite ?_
    have least := (le_iff_toReal one_finite finite).mp above
    rw [toReal_one] at least
    linarith
  · obtain ⟨s, known⟩ := infinite_iff.mp infinite
    have ranks := (le_iff.mp above).2.2
    rw [known] at ranks ⊢
    cases s with
    | positive => rfl
    | negative =>
      have : (1.0 : Float32).toModel.unpack = .finite .positive 8388608 (-23) (by decide) := rfl
      rw [this] at ranks
      simp [rank, Prod.Lex.toLex_le_toLex] at ranks

theorem hasSign_quotient (finite : Finite x) (positive : 0 < toReal x)
    (divisor : HasSign .positive y.toModel.unpack) : HasSign .positive (x / y).toModel.unpack := by
  obtain ⟨m, e, some, known⟩ := unpack_of_pos finite positive
  rw [unpack_div, known]
  exact (hasSign_div some divisor).stored

/-- What is divided by no less than one does not grow. -/
theorem quotient_spans (finite : Finite x) (nonneg : 0 ≤ toReal x) (above : 1.0 ≤ y) :
    Spans 0 (toReal x) (x / y) := by
  rcases finite_or_top above one_finite with second | rfl
  · have least := (le_iff_toReal one_finite second).mp above
    rw [toReal_one] at least
    exact (div_spans finite second (by linarith) fixed_zero (fixed_toReal finite)
      (div_nonneg nonneg (by linarith)) (div_le_self nonneg least)).1
  · obtain ⟨kept, none⟩ := div_top finite
    exact ⟨kept, none.ge, none.trans_le nonneg⟩

/-- A number by one that is not larger, be it zero, is no less than one. -/
theorem one_le_quotient (first : Finite x) (positive : 0 < toReal x) (second : Finite y)
    (sign : HasSign .positive y.toModel.unpack) (below : y ≤ x) : 1.0 ≤ x / y := by
  rcases unpack_of_finite second with ⟨s, known⟩ | ⟨s, n, f, some, known⟩
  · rw [known] at sign
    obtain rfl : s = .positive := sign
    obtain ⟨m, e, some, dividend⟩ := unpack_of_pos first positive
    have infinite : x / y = top := eq_top_iff.mpr (by rw [unpack_div, dividend, known]; rfl)
    rw [infinite]
    exact le_top one_finite.number
  · rw [known] at sign
    obtain rfl : s = .positive := sign
    have divisor : 0 < toReal y := by
      rw [toReal_of_unpack known]
      exact magnitude_pos some
    have whole : toReal y / toReal y = 1 := div_self divisor.ne'
    obtain ⟨same, -⟩ := div_spans second second divisor fixed_one fixed_one whole.ge whole.le
    have one : 1.0 ≤ y / y :=
      (le_iff_toReal one_finite same.finite).mpr (toReal_one.trans_le same.least)
    exact ordered.trans one (div_mono known below)

end Single

variable [Elementary Float32]

theorem Time.not_smoothing_neg (documented : Elementary.Documented) (samples : Float32) :
    ¬Time.smoothing samples < 0.0 := by
  intro below
  obtain ⟨number, -, less⟩ := (ordered.lt_iff _ _).mp below
  by_cases quotient : Number (-1.0 / samples)
  · exact less (documented.exp_nonneg quotient)
  · exact documented.exp_undefined quotient number

theorem Elementary.Damped.smoothing_spans (damped : Elementary.Damped) {samples : Float32}
    (sign : HasSign .positive samples.toModel.unpack) : Spans 0 1 (Time.smoothing samples) := by
  have minus : (-1.0 : Float32).toModel.unpack = .finite .negative 8388608 (-23) (by decide) := rfl
  have below : -1.0 / samples ≤ 0.0 := by
    apply le_zero_of_hasSign
    rw [unpack_div, minus]
    exact (hasSign_div (s := .negative) (by decide) sign).stored
  obtain ⟨least, most⟩ := damped.exp_unit below
  have spans := spans_of_le least most zero_finite one_finite
  rwa [toReal_zero, toReal_one] at spans

variable (ranged : Elementary.Ranged)
include ranged

namespace Level

theorem amplitudeToLog_top : amplitudeToLog top = top := by
  have raised : larger top amplitudeFloor = top := by decide +kernel
  rw [amplitudeToLog, raised, ranged.ln_top]

theorem amplitudeToLog_spans {level : Float32} (bounded : level ≠ top) :
    Spans (-2 ^ 7) (2 ^ 7) (amplitudeToLog level) := by
  have floor : Finite amplitudeFloor := by decide +kernel
  have above : amplitudeFloor ≤ larger level amplitudeFloor :=
    ordered.le_larger_right floor.number
  have finite : Finite (larger level amplitudeFloor) := by
    refine (finite_or_top above floor).resolve_right fun infinite => ?_
    rcases Ordered.larger_eq level amplitudeFloor with same | same
    · exact bounded (same.symm.trans infinite)
    · rw [← same, infinite] at floor
      exact absurd floor (by decide +kernel)
  obtain ⟨low, high⟩ := ranged.ln_range above finite
  have bottom : (-128.0 : Float32).toModel.unpack = .finite .negative 8388608 (-16) (by decide) :=
    rfl
  have most : (128.0 : Float32).toModel.unpack = .finite .positive 8388608 (-16) (by decide) := rfl
  have spans := spans_of_le low high (by decide +kernel) (by decide +kernel)
  rw [toReal_of_unpack bottom, toReal_of_unpack most] at spans
  norm_num [signed] at spans ⊢
  exact spans

theorem number_amplitudeToLog (level : Float32) : Number (amplitudeToLog level) := by
  by_cases infinite : level = top
  · rw [infinite, amplitudeToLog_top ranged]
    exact rfl
  · exact (amplitudeToLog_spans ranged infinite).finite.number

end Level

end RealtimeAudio
