import RealtimeAudio.Proofs.Compressor.Infinity

/-! Attenuation on binary32 numbers is never below zero. The static curve asks for nothing below zero,
and what it asks for, where it is finite at all, is so far below the largest number that smoothing
cannot overflow. So without make-up gain nothing is amplified beyond the fixed post-gain. -/
namespace RealtimeAudio
open Arithmetic Binary Single
open Float.Model (Format UnpackedFloat)
open Float.Model.UnpackedFloat

/-- Parameters that the format reaches, the attack time also when doubled. -/
structure Parameters.Representable (p : Parameters Float32) : Prop where
  threshold : Finite p.threshold
  postGain : Finite p.postGain
  attack : Single.Finite (2.0 * p.attack)

theorem fixed_logarithm : Fixed (119 * 2 ^ 118) := by
  have fixed := fixed_scaled 119 118 (by norm_num) (by norm_num) (by norm_num)
  norm_num at fixed ⊢
  exact fixed

/-- Decibels in log units are at most about a ninth of the largest number. -/
theorem Level.decibelToLog_spans {x : Float32} (finite : Finite (Level.decibelToLog x)) :
    Spans (-(119 * 2 ^ 118)) (119 * 2 ^ 118) (Level.decibelToLog x) := by
  unfold Level.decibelToLog at *
  have known : (Level.lnPerDecibel : Float32).toModel.unpack =
      .finite .positive 15452387 (-27) (by decide) := rfl
  obtain ⟨first, second⟩ := finite.factors
  obtain ⟨above, below⟩ := abs_lt.mp (abs_toReal_lt first)
  have factor := toReal_of_unpack known
  norm_num [signed] at factor
  refine (mul_spans first second fixed_logarithm.neg fixed_logarithm ?_ ?_).1
  · rw [factor]
    norm_num at above ⊢
    linarith
  · rw [factor]
    norm_num at below ⊢
    linarith

namespace Parameters
variable {p : Parameters Float32} {knee level deviation crest : Float32}

theorem half_nonneg (wide : 0.0 ≤ knee) : 0.0 ≤ 0.5 * knee := by
  rcases finite_or_top wide zero_finite with finite | infinite
  · have least := (le_iff_toReal zero_finite finite).mp wide
    rw [toReal_zero] at least
    refine zero_le_mul (by decide +kernel) finite ?_
    rw [toReal_half]
    positivity
  · rw [infinite]
    decide +kernel

/-- The parabola within a knee that is not narrow, where it is finite. -/
theorem parabola_spans_of_wide {excess half : Float32} (bounded : Finite knee)
    (normal : 4 ≤ toReal knee)
    (finite : Single.Finite ((excess + half) * (excess + half) / (2.0 * knee))) :
    Spans 0 (2 ^ 125) ((excess + half) * (excess + half) / (2.0 * knee)) := by
  have product := finite.dividend
  have square : 0 ≤ toReal ((excess + half) * (excess + half)) := by
    rw [toReal_mul product]
    exact round_nonneg (mul_self_nonneg _)
  have below := (abs_lt.mp (abs_toReal_lt product)).2
  have two : Finite 2.0 := by decide +kernel
  by_cases reached : Single.Finite (2.0 * knee)
  · have eight := (fixed_two_pow (k := 3) (by norm_num)).1
    have divisor : 2 ^ 3 ≤ toReal (2.0 * knee) := by
      rw [toReal_mul reached, toReal_two, ← eight]
      exact round_mono (by linarith)
    have positive : 0 < toReal (2.0 * knee) := by linarith
    refine (div_spans product reached positive fixed_zero (fixed_two_pow (by norm_num)) ?_ ?_).1
    · exact div_nonneg square positive.le
    · rw [div_le_iff₀ positive]
      linarith
  · have above : 0.0 ≤ 2.0 * knee := zero_le_mul two bounded (by rw [toReal_two]; linarith)
    have infinite := (finite_or_top above zero_finite).resolve_left reached
    rw [infinite]
    obtain ⟨kept, none⟩ := div_top product
    exact ⟨kept, none.ge, by rw [none]; positivity⟩

/-- A finite overshoot is not below zero, whatever the knee. -/
theorem overshoot_spans_of_finite
    (threshold : Spans (-(119 * 2 ^ 118)) (119 * 2 ^ 118) p.threshold) (wide : 0.0 ≤ knee)
    (seen : Spans (-2 ^ 7) (2 ^ 7) level) (finite : Finite (p.overshoot knee level)) :
    Spans 0 (2 ^ 125) (p.overshoot knee level) := by
  have fixed : Fixed (2 ^ 125) := fixed_two_pow (by norm_num)
  obtain ⟨excess, -⟩ := sub_spans seen.finite threshold.finite fixed.neg fixed
    (by linarith [seen.least, threshold.most]) (by linarith [seen.most, threshold.least])
  obtain ⟨size, distance⟩ := abs_finite excess.finite
  have least := half_nonneg wide
  unfold overshoot at finite ⊢
  dsimp only at finite ⊢
  split_ifs at finite ⊢ with below within
  · exact ⟨zero_finite, le_rfl, by rw [toReal_zero]; positivity⟩
  · have half : Single.Finite (0.5 * knee) := finite.dividend.factors.1.addend
    have bounded := half.factors.2
    change (level - p.threshold).abs < 0.5 * knee at within
    rw [lt_iff_toReal size half, distance] at within
    by_cases narrow : toReal knee ≤ 4
    · have positive := (le_iff_toReal zero_finite bounded).mp wide
      rw [toReal_zero] at positive
      have middle := toReal_mul half
      rw [toReal_half, one_div, inv_mul_eq_div] at middle
      have most : toReal (0.5 * knee) ≤ 2 ^ 1 := by
        rw [middle, ← (fixed_two_pow (k := 1) (by norm_num)).1]
        exact round_mono (by linarith)
      have small := (abs_lt.mp within).2
      exact (parabola_spans ⟨bounded, positive, by linarith⟩ excess.finite half middle within
        (by linarith)).mono le_rfl (by norm_num)
    · exact parabola_spans_of_wide bounded (not_le.mp narrow).le finite
  · change ¬(level - p.threshold).abs < 0.5 * knee at within
    have outside := ordered.le_of_not_lt (ordered.numbers least).2 size.number within
    have half : Single.Finite (0.5 * knee) := (spans_of_le least outside zero_finite size).finite
    rw [le_iff_toReal half size, distance] at outside
    obtain ⟨opposite, turned⟩ := neg_finite half
    rw [le_iff_toReal excess.finite opposite, turned, not_le] at below
    rw [le_iff_toReal zero_finite half, toReal_zero] at least
    exact ⟨excess.finite, nonneg_of_outside least below outside, excess.most⟩

/-- What bounds the attenuation, once the parameters are finite. -/
structure Tame (p : Parameters Float32) : Prop where
  threshold : Spans (-(119 * 2 ^ 118)) (119 * 2 ^ 118) p.threshold
  slope : Spans (-1) 0 p.slope
  knee : 0.0 ≤ p.knee
  attack : 1.0 ≤ p.attack
  doubled : Single.Finite (2.0 * p.attack)
  postGain : Spans (-(119 * 2 ^ 118)) (119 * 2 ^ 118) p.postGain

/-- The static curve, where it is finite, asks for no attenuation below zero. -/
theorem demand_spans_of_finite (tame : p.Tame) (seen : Spans (-2 ^ 7) (2 ^ 7) level)
    (finite : Finite (p.demand deviation level)) : Spans 0 (2 ^ 125) (p.demand deviation level) := by
  have wide : 0.0 ≤ p.kneeWidth deviation := by
    unfold kneeWidth
    split
    · exact ordered.le_larger_right zero_finite.number
    · exact tame.knee
  exact steepened_spans tame.slope (by norm_num)
    (overshoot_spans_of_finite tame.threshold wide seen finite.factors.2)

theorem ofPreset_tame [Elementary Float32] {preset : Preset Float32}
    (representable : (ofPreset preset).Representable) : (ofPreset preset).Tame where
  threshold := Level.decibelToLog_spans representable.threshold
  slope := slopeOf_spans preset.auto.effective preset.ratio
  knee := ordered.le_larger_right zero_finite.number
  attack := ordered.le_larger_right one_finite.number
  doubled := representable.attack
  postGain := Level.decibelToLog_spans representable.postGain

end Parameters

/-- Besides its range, that the exponential is monotone. -/
structure Elementary.Monotone [Elementary Float32] : Prop extends Elementary.Ranged where
  exp_mono : ∀ {x y : Float32}, x ≤ y → Elementary.exp x ≤ Elementary.exp y

theorem Elementary.Monotone.exp_nonneg [Elementary Float32] (monotone : Elementary.Monotone)
    {x : Float32} (number : Number x) : 0.0 ≤ Elementary.exp x := by
  rcases ordered.total number zero_finite.number with below | above
  · exact (monotone.exp_unit below).1
  · have least := (monotone.exp_unit (ordered.refl zero_finite.number)).1
    exact ordered.trans least (monotone.exp_mono above)

theorem GainState.gain_eq [Elementary Float32] {p : Parameters Float32} {s : GainState Float32}
    (fixed : p.auto.postGain = false) :
    s.gain p = Elementary.exp (p.postGain - s.attenuation) := by
  rw [gain, Parameters.makeUp, fixed]
  rfl

/-- Attenuations are not below zero, nor near the largest number. -/
structure GainState.Attenuating (s : GainState Float32) : Prop where
  released : Spans 0 (2 ^ 125) s.released
  attenuation : Spans 0 (2 ^ 125) s.attenuation

namespace GainState.Attenuating
variable {p : Parameters Float32} {s : GainState Float32} {x : Sight Float32}

theorem still : Attenuating .still := by
  have zero : Spans 0 (2 ^ 125) 0.0 := ⟨zero_finite, le_rfl, by rw [toReal_zero]; positivity⟩
  exact ⟨zero, zero⟩

theorem nonneg (attenuating : s.Attenuating) : 0.0 ≤ s.released ∧ 0.0 ≤ s.attenuation := by
  obtain ⟨released, attenuation⟩ := attenuating
  rw [le_iff_toReal zero_finite released.finite, le_iff_toReal zero_finite attenuation.finite]
  exact ⟨released.least, attenuation.least⟩

variable [Elementary Float32]

/-- One sample for which the curve asks for something finite. -/
theorem step (attenuating : s.Attenuating) (ranged : Elementary.Ranged) (tame : p.Tame)
    (seen : Spans (-2 ^ 7) (2 ^ 7) x.entering)
    (sign : p.auto.attack = true → HasSign .positive x.crest.toModel.unpack)
    (finite : Finite (p.demand s.deviation x.entering)) : (s.step p x).Attenuating := by
  have demand := Parameters.demand_spans_of_finite tame seen finite
  have released := larger_spans demand (mix_nonneg_spans (by norm_num) demand attenuating.released
    (ranged.damped.smoothing_spans (p.releaseTime_sign x.crest)))
  exact ⟨released, mix_nonneg_spans (by norm_num) released attenuating.attenuation
    (ranged.damped.smoothing_spans (Parameters.attackTime_sign tame.attack tame.doubled sign))⟩

theorem gain_le (attenuating : s.Attenuating) (monotone : Elementary.Monotone) (tame : p.Tame)
    (fixed : p.auto.postGain = false) :
    0.0 ≤ s.gain p ∧ s.gain p ≤ Elementary.exp p.postGain := by
  have attenuation := attenuating.attenuation
  have postGain := tame.postGain
  have low : Fixed (-2 ^ 127) := (fixed_two_pow (by norm_num)).neg
  obtain ⟨exponent, -⟩ := sub_spans postGain.finite attenuation.finite low
    (fixed_toReal postGain.finite) (by linarith [postGain.least, attenuation.most])
    (by linarith [attenuation.least])
  rw [gain_eq fixed]
  exact ⟨monotone.exp_nonneg exponent.finite.number,
    monotone.exp_mono ((le_iff_toReal exponent.finite postGain.finite).mpr exponent.most)⟩

end GainState.Attenuating

namespace Flow
variable [Elementary Float32] {p : Parameters Float32} {levels : List Float32} {t : Nat}

/-- The levels detected and what the curve asks for at them are finite. -/
def Reaches (p : Parameters Float32) (levels : List Float32) : Prop :=
  ∀ t < levels.length, Finite (sightAt p levels t).entering ∧
    Finite (p.demand (computer p (levels.take t)).deviation (sightAt p levels t).entering)

theorem entering_spans (ranged : Elementary.Ranged) (inside : t < levels.length)
    (finite : Finite (sightAt p levels t).entering) :
    Spans (-2 ^ 7) (2 ^ 7) (sightAt p levels t).entering := by
  obtain ⟨level, -, same, -⟩ := detected_greatest ranged (p := p) inside
  change (sightAt p levels t).entering = _ at same
  rw [same] at finite ⊢
  refine Level.amplitudeToLog_spans ranged fun infinite => ?_
  rw [infinite, Level.amplitudeToLog_top ranged] at finite
  exact absurd finite (by decide +kernel)

/-- Whole runs keep the attenuation from falling below zero. -/
theorem computer_attenuating (ranged : Elementary.Ranged) (tame : p.Tame)
    (unit : Spans 0 1 p.crestCoefficient) (numbers : ∀ level ∈ levels, Number level)
    (reaches : Reaches p levels) (known : t ≤ levels.length) :
    (computer p (levels.take t)).Attenuating := by
  induction t with
  | zero =>
    rw [List.take_zero, computer, advance_nil]
    exact .still
  | succ t ih =>
    obtain ⟨entering, demand⟩ := reaches t known
    rw [computer_succ known]
    exact (ih (by omega)).step ranged tame (entering_spans ranged known entering)
      (sightAt_sign unit numbers known) demand

end Flow

namespace Compressor

section Whole
variable [Elementary Float32]

/-- No sample of a channel comes out larger than the post-gain makes the one that is delayed, with
its pre-gain. -/
def HeldDown (p : Parameters Float32) (xs ys : List Float32) : Prop :=
  ys.length = xs.length ∧ ∀ t < xs.length, ∀ delayed,
    Delay.behind 0.0 p.lookAhead (xs.map (· * p.preGain)) t = delayed → Finite delayed →
    ∃ y, ys[t]? = some y ∧ y.abs ≤ delayed.abs * Elementary.exp p.postGain

theorem Emits.heldDown {p : Parameters Float32} {levels xs ys : List Float32}
    (emits : Emits p levels xs ys) (most : Finite (Elementary.exp p.postGain))
    (gains : ∀ t < xs.length,
      0.0 ≤ Flow.gainAt p levels t ∧ Flow.gainAt p levels t ≤ Elementary.exp p.postGain) :
    HeldDown p xs ys := by
  refine ⟨emits.1, fun t inside delayed same finite => ?_⟩
  obtain ⟨least, below⟩ := gains t inside
  have gain := spans_of_le least below zero_finite most
  rw [toReal_zero] at gain
  refine ⟨_, emits.2 t inside, ?_⟩
  rw [same]
  exact abs_mul_le finite gain.finite most gain.least gain.most

/-- The states and gains of a compressor with a fixed post-gain, and what comes out. -/
structure HoldsDown (p : Parameters Float32) (n : Nat) (levels : List Float32)
    (signals outputs : List (List Float32)) (c : Compressor Float32) : Prop where
  carried : 0.0 ≤ c.gain.released ∧ 0.0 ≤ c.gain.attenuation
  states : ∀ t ≤ n, 0.0 ≤ (Flow.computer p (levels.take t)).released ∧
    0.0 ≤ (Flow.computer p (levels.take t)).attenuation
  gains : ∀ t < n, 0.0 ≤ Flow.gainAt p levels t ∧ Flow.gainAt p levels t ≤ Elementary.exp p.postGain
  emits : List.Forall₂ (Emits p levels) signals outputs
  outputs : Finite (Elementary.exp p.postGain) → List.Forall₂ (HeldDown p) signals outputs

/-- Without automatic make-up gain nothing is amplified beyond the fixed post-gain: where the
parameters are finite, and the detector and the curve stay so, the attenuation is never below zero.
Of the exponential it is only used that it is monotone, and from 0 to 1 up to zero. -/
theorem stream_holdsDown (monotone : Elementary.Monotone) {preset : Preset Float32}
    (fixed : preset.auto.postGain = false)
    (representable : (Parameters.ofPreset preset).Representable) {n : Nat}
    {signals : List (List Float32)} {sizes : List Nat} (equal : ∀ xs ∈ signals, xs.length = n)
    (cut : Cut n sizes) :
    let p := Parameters.ofPreset preset
    let levels := link n (raised p (signals.take p.channels))
    Flow.Reaches p levels →
    ∃ c outputs readings, (ofPreset preset).stream? sizes signals = some (c, outputs, readings) ∧
      HoldsDown p n levels (signals.take p.channels) (outputs.take p.channels) c := by
  intro p levels reaches
  have ranged := monotone.toRanged
  have tame : p.Tame := Parameters.ofPreset_tame representable
  have unit : Spans 0 1 p.crestCoefficient :=
    Time.smoothing_rate_spans ranged Parameters.crestTime preset.sampleRate rfl
  have active : ∀ xs ∈ signals.take p.channels, xs.length = n := equal_front equal
  have numbers : ∀ level ∈ levels, Number level := number_level active
  have size : levels.length = n := length_link n _ (equal_raised active)
  have attenuating {t : Nat} (known : t ≤ n) :
      (Flow.computer p (levels.take t)).Attenuating :=
    Flow.computer_attenuating ranged tame unit numbers reaches (by omega)
  have gain {t : Nat} (inside : t < n) :
      0.0 ≤ Flow.gainAt p levels t ∧ Flow.gainAt p levels t ≤ Elementary.exp p.postGain :=
    (attenuating inside).gain_le monotone tame fixed
  obtain ⟨c, streamed, t, known, -, -, carried⟩ := ofParameters_stream_state p cut active
  have emits := (response_emits active).1
  refine ⟨c, _, _, streamed, ?_⟩
  constructor
  case carried =>
    rw [carried]
    exact (attenuating known).nonneg
  case states => exact fun t known => (attenuating known).nonneg
  case gains => exact fun t inside => gain inside
  case emits => exact emits
  case outputs =>
    intro most
    rw [List.forall₂_iff_get] at emits ⊢
    refine ⟨emits.1, fun i inside among => (emits.2 i inside among).heldDown most ?_⟩
    rw [active _ (List.get_mem _ _)]
    exact fun t early => gain early

end Whole

/-- A function in steps, each up to its edge, and `above` past the last. -/
def stairs (above : Float32) : List (Float32 × Float32) → Float32 → Float32
  | [], _ => above
  | (edge, height) :: rest, x => if x ≤ edge then height else stairs above rest x

section Stairs
variable {above x y : Float32} {table : List (Float32 × Float32)}

theorem stairs_mem : stairs above table x ∈ table.map Prod.snd ++ [above] := by
  induction table with
  | nil => exact List.mem_singleton_self _
  | cons first rest ih =>
    obtain ⟨edge, height⟩ := first
    unfold stairs
    split
    · exact List.mem_cons_self
    · exact List.mem_cons_of_mem _ ih

/-- Steps that do not fall make a monotone function. -/
theorem stairs_mono (numbers : ∀ height ∈ table.map Prod.snd ++ [above], Number height)
    (rising : (table.map Prod.snd ++ [above]).Pairwise (· ≤ ·)) (below : x ≤ y) :
    stairs above table x ≤ stairs above table y := by
  induction table with
  | nil => exact ordered.refl (numbers above (List.mem_singleton_self _))
  | cons first rest ih =>
    obtain ⟨edge, height⟩ := first
    obtain ⟨least, later⟩ := List.pairwise_cons.mp rising
    unfold stairs
    by_cases reached : y ≤ edge
    · rw [if_pos reached, if_pos (ordered.trans below reached)]
      exact ordered.refl (numbers height List.mem_cons_self)
    · rw [if_neg reached]
      split
      · exact least _ stairs_mem
      · exact ih (fun other member => numbers other (List.mem_cons_of_mem _ member)) later

end Stairs

/-- Heights that are the exponentials a compressor asks for whose times are one sample each and whose
levels are 1 and then silence. -/
def expTable : List (Float32 × Float32) :=
  [(-5.0, 0.006737947), (-1.09, 0.3356677), (-1.0, 0.36787945), (-0.8, 0.44790277),
    (-0.5, 0.60653067)]

@[reducible] def stairways : Elementary Float32 where
  exp := stairs 1.0 expTable
  ln x := if top ≤ x then x else if 1.0 ≤ x then 0.0 else -13.815511
  log10 _ := 0.0
  tenTo _ := 1.0

theorem stairways_ranged : @Elementary.Ranged stairways := by
  let _ := stairways
  constructor
  case exp_unit =>
    intro x _
    have heights : ∀ height ∈ expTable.map Prod.snd ++ [1.0], 0.0 ≤ height ∧ height ≤ 1.0 := by
      decide +kernel
    exact heights _ stairs_mem
  case ln_top => decide +kernel
  case ln_range =>
    intro x _ finite
    have inside : ¬top ≤ x := by
      intro above
      rw [eq_top_of_le above] at finite
      exact absurd finite (by decide +kernel)
    change -128.0 ≤ (if top ≤ x then x else if 1.0 ≤ x then 0.0 else -13.815511) ∧
      (if top ≤ x then x else if 1.0 ≤ x then 0.0 else -13.815511) ≤ 128.0
    rw [if_neg inside]
    split <;> decide +kernel

theorem stairways_monotone : @Elementary.Monotone stairways :=
  @Elementary.Monotone.mk stairways stairways_ranged fun below =>
    stairs_mono (by decide +kernel) (by decide +kernel) below

theorem stream_holdsDown_attenuated :
    letI := stairways
    let preset : Preset Float32 := { Preset.standard with
      channels := 1, sampleRate := 1.0, attackSeconds := 1.0, releaseSeconds := 2.0 }
    let p := Parameters.ofPreset preset
    let levels := link 2 (raised p [[-1.0, 0.0]])
    Elementary.Monotone ∧ preset.auto.postGain = false ∧ p.Representable ∧ Cut 2 [1, 1] ∧
      Flow.Reaches p levels ∧ Finite (Elementary.exp p.postGain) ∧
      Flow.gainAt p levels 0 = 0.3356677 ∧
      ∃ c outputs readings, (ofPreset preset).stream? [1, 1] [[-1.0, 0.0]] =
        some (c, outputs, readings) ∧
        HoldsDown p 2 levels [[-1.0, 0.0]] (outputs.take 1) c := by
  let _ := stairways
  intro preset p levels
  have representable : p.Representable := ⟨by decide +kernel, by decide +kernel, by decide +kernel⟩
  have cut : Cut 2 [1, 1] := ⟨rfl, by decide⟩
  have equal : ∀ xs ∈ [[-1.0, (0.0 : Float32)]], xs.length = 2 := by decide
  have reaches : Flow.Reaches p levels := by
    unfold Flow.Reaches
    decide +kernel
  exact ⟨stairways_monotone, rfl, representable, cut, reaches, by decide +kernel, by decide +kernel,
    stream_holdsDown stairways_monotone rfl representable equal cut reaches⟩

end Compressor

end RealtimeAudio
