import RealtimeAudio.Compressor.Crest
import RealtimeAudio.Compressor.Gain
import RealtimeAudio.Proofs.Single.Elementary

/-! The states of a compressor on binary32 numbers stay finite. Levels of finite samples are within
2 ^ 7, and with parameters within 2 ^ 56 the static curve asks for no more than 2 ^ 61, even where
the knee follows the deviation: there the parabola rises too slowly to feed on itself. Smoothing
keeps within a power of two. -/
namespace RealtimeAudio
open Arithmetic Binary Single
open Float.Model (Format UnpackedFloat)
open Float.Model.UnpackedFloat

/-- Sizes that any level can be compared and multiplied with. -/
structure Parameters.Moderate (p : Parameters Float32) : Prop where
  threshold : Spans (-2 ^ 56) (2 ^ 56) p.threshold
  slope : Spans (-1) 0 p.slope
  knee : Spans 0 (2 ^ 56) p.knee
  attack : Spans 1 (2 ^ 100) p.attack
  postGain : Finite p.postGain
  crestCoefficient : Spans 0 1 p.crestCoefficient
  gainEstimate : Spans (-2 ^ 56) (2 ^ 56) p.gainEstimate
  adaptCoefficient : Spans 0 1 p.adaptCoefficient

/-- The same, as far as it is not so of what is derived from every preset. -/
structure Parameters.WithinReach (p : Parameters Float32) : Prop where
  threshold : Spans (-2 ^ 56) (2 ^ 56) p.threshold
  knee : Finite p.knee ∧ toReal p.knee ≤ 2 ^ 56
  attack : Finite p.attack ∧ toReal p.attack ≤ 2 ^ 100
  postGain : Finite p.postGain

/-- No knee that is derived from a preset is below zero. -/
theorem Parameters.ofPreset_wide [Elementary Float32] (preset : Preset Float32) :
    ¬(ofPreset preset).knee < 0.0 := by
  intro below
  exact ((ordered.lt_iff _ _).mp below).2.2 (ordered.le_larger_right zero_finite.number)

section Curve

variable {e h k s : ℝ}

/-- The square of the way into a knee against the knee's width. -/
theorem square_le (half : h = Binary.round .binary32 (k / 2))
    (sum : s = Binary.round .binary32 (e + h)) (fixed : Binary.round .binary32 k = k)
    (positive : 0 < k) (wide : k ≤ 325 * 2 ^ 55) (within : |e| < h) (most : e ≤ 2 ^ 57) :
    s * s ≤ 2 ^ 62 * k := by
  obtain ⟨low, high⟩ := abs_lt.mp within
  have nonneg : 0 ≤ s := by
    rw [sum]
    exact round_nonneg (by linarith)
  rcases le_total k (2 ^ 60) with narrow | normal
  · have less : h ≤ k := by
      rw [half, ← fixed]
      exact round_mono (by rw [fixed]; linarith)
    have twice : s ≤ 2 * k := by
      have double := round_two_pow_mul 1 positive fixed
      rw [pow_one] at double
      rw [sum, ← double]
      exact round_mono (by linarith)
    nlinarith
  · have middle : h ≤ 1.001 * (k / 2) := by
      rw [half]
      exact round_le_of_one_le (by linarith)
    have reach : s ≤ 1.001 * (2 ^ 57 + h) := by
      rw [sum]
      exact (round_mono (by linarith)).trans (round_le_of_one_le (by linarith))
    have most : s ≤ 1.001 * (2 ^ 57 + 0.5005 * k) := by linarith
    nlinarith

/-- Above half of the knee below the threshold, and not within the knee. -/
theorem nonneg_of_outside (wide : 0 ≤ h) (above : -h < e) (outside : h ≤ |e|) : 0 ≤ e := by
  rcases le_abs'.mp outside with low | high
  · exact absurd low above.not_ge
  · exact wide.trans high

end Curve

namespace Parameters
variable {p : Parameters Float32} {knee level deviation crest : Float32}

theorem fixed_knee : Fixed (325 * 2 ^ 55) := by
  have fixed := fixed_scaled 325 55 (by norm_num) (by norm_num) (by norm_num)
  norm_num at fixed ⊢
  exact fixed

/-- The parabola within the knee. -/
theorem parabola_spans {excess half : Float32} (wide : Spans 0 (325 * 2 ^ 55) knee)
    (first : Finite excess) (second : Finite half)
    (middle : toReal half = Binary.round .binary32 (toReal knee / 2))
    (within : |toReal excess| < toReal half) (most : toReal excess ≤ 2 ^ 57) :
    Spans 0 (2 ^ 61) ((excess + half) * (excess + half) / (2.0 * knee)) := by
  obtain ⟨low, high⟩ := abs_lt.mp within
  have positive : 0 < toReal knee := by
    refine lt_of_le_of_ne wide.least fun none => ?_
    rw [← none, zero_div, round_zero] at middle
    linarith
  have bounded : toReal half ≤ 325 * 2 ^ 55 := by
    rw [middle, ← fixed_knee.1]
    exact round_mono (by linarith [wide.most])
  have top : Fixed (2 ^ 64) := fixed_two_pow (by norm_num)
  obtain ⟨sum, exact⟩ := add_spans first second fixed_zero top (by linarith) (by linarith)
  have square := square_le middle exact (round_toReal knee) positive wide.most within most
  have large : Fixed (2 ^ 127) := fixed_two_pow (by norm_num)
  obtain ⟨product, power⟩ := mul_spans sum.finite sum.finite fixed_zero large
    (mul_self_nonneg _) (by nlinarith [wide.most])
  have twice : Fixed (2 ^ 66) := fixed_two_pow (by norm_num)
  obtain ⟨divisor, width⟩ := mul_spans (x := 2.0) (by decide +kernel) wide.finite fixed_zero twice
    (by rw [toReal_two]; linarith) (by rw [toReal_two]; linarith [wide.most])
  have double : Binary.round .binary32 (2 ^ 1 * toReal knee) = 2 ^ 1 * toReal knee :=
    round_two_pow_mul 1 positive (round_toReal knee)
  rw [toReal_two, ← pow_one (2 : ℝ), double, pow_one] at width
  have scaled : Binary.round .binary32 (2 ^ 62 * toReal knee) = 2 ^ 62 * toReal knee :=
    round_two_pow_mul 62 positive (round_toReal knee)
  have below : toReal ((excess + half) * (excess + half)) ≤ 2 ^ 62 * toReal knee := by
    rw [power, ← scaled]
    exact round_mono square
  have bound : Fixed (2 ^ 61) := fixed_two_pow (by norm_num)
  refine (div_spans product.finite divisor.finite (by rw [width]; linarith) fixed_zero bound ?_ ?_).1
  · rw [width]
    exact div_nonneg product.least (by linarith)
  · rw [width, div_le_iff₀ (by linarith)]
    linarith

theorem overshoot_spans (threshold : Spans (-2 ^ 56) (2 ^ 56) p.threshold)
    (wide : Spans 0 (325 * 2 ^ 55) knee) (seen : Spans (-2 ^ 7) (2 ^ 7) level) :
    Spans 0 (2 ^ 61) (p.overshoot knee level) := by
  have fixed : Fixed (2 ^ 57) := fixed_two_pow (by norm_num)
  obtain ⟨excess, -⟩ := sub_spans seen.finite threshold.finite fixed.neg fixed
    (by linarith [seen.least, threshold.most]) (by linarith [seen.most, threshold.least])
  obtain ⟨half, middle⟩ := mul_spans (x := 0.5) (by decide +kernel) wide.finite fixed_zero fixed_knee
    (by rw [toReal_half]; linarith [wide.least]) (by rw [toReal_half]; linarith [wide.least, wide.most])
  rw [toReal_half, one_div, inv_mul_eq_div] at middle
  obtain ⟨opposite, turned⟩ := neg_finite half.finite
  obtain ⟨size, distance⟩ := abs_finite excess.finite
  unfold overshoot
  dsimp only
  split
  · exact ⟨zero_finite, le_rfl, by rw [toReal_zero]; positivity⟩
  · rename_i above
    rw [le_iff_toReal excess.finite opposite, turned, not_le] at above
    split
    · rename_i within
      change (level - p.threshold).abs < 0.5 * knee at within
      rw [lt_iff_toReal size half.finite, distance] at within
      exact parabola_spans wide excess.finite half.finite middle within excess.most
    · rename_i outside
      change ¬(level - p.threshold).abs < 0.5 * knee at outside
      rw [lt_iff_toReal size half.finite, distance, not_lt] at outside
      exact ⟨excess.finite, nonneg_of_outside half.least above outside,
        excess.most.trans (by norm_num)⟩

theorem kneeWidth_spans (moderate : p.Moderate) (bounded : Spans (-2 ^ 62) (2 ^ 62) deviation) :
    Spans 0 (325 * 2 ^ 55) (p.kneeWidth deviation) := by
  unfold kneeWidth
  split
  · have fixed : Fixed (65 * 2 ^ 56) := by
      have fixed := fixed_scaled 65 56 (by norm_num) (by norm_num) (by norm_num)
      norm_num at fixed ⊢
      exact fixed
    have factor : toReal 2.5 = 5 / 2 := by
      have known : (2.5 : Float32).toModel.unpack = .finite .positive 10485760 (-22) (by decide) :=
        rfl
      rw [toReal_of_unpack known]
      norm_num [signed]
    have estimate := moderate.gainEstimate
    obtain ⟨sum, -⟩ := add_spans bounded.finite estimate.finite fixed.neg fixed
      (by linarith [bounded.least, estimate.least]) (by linarith [bounded.most, estimate.most])
    obtain ⟨product, -⟩ := mul_spans (x := 2.5) (by decide +kernel) sum.finite fixed_knee.neg
      fixed_knee (by rw [factor]; linarith [sum.least]) (by rw [factor]; linarith [sum.most])
    exact larger_zero_spans product (by norm_num)
  · exact moderate.knee.mono le_rfl (by norm_num)

/-- The slope leaves an overshoot within its bounds. -/
theorem steepened_spans (slope : Spans (-1) 0 p.slope) {k : ℕ} (small : k ≤ 127) {x : Float32}
    (excess : Spans 0 (2 ^ k) x) : Spans 0 (2 ^ k) (-p.slope * x) := by
  have turned := slope.neg
  rw [neg_zero, neg_neg] at turned
  refine (mul_spans turned.finite excess.finite fixed_zero (fixed_two_pow small)
    (mul_nonneg turned.least excess.least) ?_).1
  calc
    toReal (-p.slope) * toReal x ≤ 1 * toReal x :=
      mul_le_mul_of_nonneg_right turned.most excess.least
    _ ≤ 2 ^ k := by rw [one_mul]; exact excess.most

/-- The static curve asks for no attenuation below zero and for none above 2 ^ 61. -/
theorem demand_spans (moderate : p.Moderate) (bounded : Spans (-2 ^ 62) (2 ^ 62) deviation)
    (seen : Spans (-2 ^ 7) (2 ^ 7) level) : Spans 0 (2 ^ 61) (p.demand deviation level) :=
  steepened_spans moderate.slope (by norm_num)
    (overshoot_spans moderate.threshold (kneeWidth_spans moderate bounded) seen)

theorem attackTime_sign (least : 1.0 ≤ p.attack) (doubled : Single.Finite (2.0 * p.attack))
    (sign : p.auto.attack = true → HasSign .positive crest.toModel.unpack) :
    HasSign .positive (p.attackTime crest).toModel.unpack := by
  unfold attackTime
  split
  · rename_i follows
    have attack := (le_iff_toReal one_finite doubled.factors.2).mp least
    rw [toReal_one] at attack
    have positive : 1 ≤ toReal (2.0 * p.attack) := by
      rw [toReal_mul doubled, toReal_two, ← fixed_one.1]
      exact round_mono (by linarith)
    exact hasSign_quotient doubled (by linarith) (sign follows)
  · exact hasSign_of_one_le least

theorem Moderate.attack_reach (moderate : p.Moderate) :
    1.0 ≤ p.attack ∧ Single.Finite (2.0 * p.attack) := by
  have attack := moderate.attack
  have fixed : Fixed (2 ^ 101) := fixed_two_pow (by norm_num)
  obtain ⟨twice, -⟩ := mul_spans (x := 2.0) (by decide +kernel) attack.finite
    fixed_one fixed (by rw [toReal_two]; linarith [attack.least])
    (by rw [toReal_two]; linarith [attack.most])
  exact ⟨(le_iff_toReal one_finite attack.finite).mpr (by rw [toReal_one]; exact attack.least),
    twice.finite⟩

theorem one_le_releaseTime (p : Parameters Float32) (crest : Float32) :
    1.0 ≤ p.releaseTime crest := by
  unfold releaseTime
  split <;> exact ordered.le_larger_right one_finite.number

theorem releaseTime_sign (p : Parameters Float32) (crest : Float32) :
    HasSign .positive (p.releaseTime crest).toModel.unpack :=
  hasSign_of_one_le (p.one_le_releaseTime crest)

end Parameters

section Derived

theorem Parameters.slopeOf_spans (auto : Automation) (ratio : Float32) :
    Spans (-1) 0 (slopeOf auto ratio) := by
  unfold slopeOf
  split
  · have known : (-1.0 : Float32).toModel.unpack = .finite .negative 8388608 (-23) (by decide) := rfl
    refine ⟨by decide +kernel, ?_, ?_⟩ <;> rw [toReal_of_unpack known] <;> norm_num [signed]
  · have above : 1.0 ≤ larger ratio 1.0 := ordered.le_larger_right one_finite.number
    have inverse := quotient_spans one_finite (zero_le_one.trans_eq toReal_one.symm) above
    rw [toReal_one] at inverse
    exact (sub_spans inverse.finite one_finite fixed_one.neg fixed_zero
      (by rw [toReal_one]; linarith [inverse.least])
      (by rw [toReal_one]; linarith [inverse.most])).1

variable [Elementary Float32]

/-- A positive time at any sample rate gives a coefficient. -/
theorem Elementary.Damped.smoothing_rate_spans (damped : Elementary.Damped)
    (seconds rate : Float32) {m : ℕ} {e : ℤ} {some : 0 < m}
    (known : seconds.toModel.unpack = .finite .positive m e some) :
    Spans 0 1 (Time.smoothing (seconds * larger rate 1.0)) := by
  have sign := hasSign_of_one_le (ordered.le_larger_right (x := rate) one_finite.number)
  apply damped.smoothing_spans
  rw [unpack_mul, known]
  exact (hasSign_mul (s := .positive) some sign).stored

theorem Elementary.Damped.crestCoefficient_spans (damped : Elementary.Damped)
    (preset : Preset Float32) : Spans 0 1 (Parameters.ofPreset preset).crestCoefficient :=
  damped.smoothing_rate_spans Parameters.crestTime preset.sampleRate rfl

theorem Time.smoothing_rate_spans (ranged : Elementary.Ranged) (seconds rate : Float32)
    {m : ℕ} {e : ℤ} {some : 0 < m} (known : seconds.toModel.unpack = .finite .positive m e some) :
    Spans 0 1 (Time.smoothing (seconds * larger rate 1.0)) :=
  ranged.damped.smoothing_rate_spans seconds rate known

theorem Parameters.crestCoefficient_spans (documented : Elementary.Documented)
    (preset : Preset Float32) : Spans 0 1 (ofPreset preset).crestCoefficient :=
  documented.ranged.damped.crestCoefficient_spans preset

theorem Parameters.ofPreset_moderate (documented : Elementary.Documented) (preset : Preset Float32)
    (reach : (ofPreset preset).WithinReach) : (ofPreset preset).Moderate := by
  obtain ⟨threshold, knee, attack, postGain⟩ := reach
  have slope := slopeOf_spans preset.auto.effective preset.ratio
  constructor
  case threshold => exact threshold
  case slope => exact slope
  case knee =>
    have above := ordered.le_larger_right (x := Level.decibelToLog preset.kneeDb) zero_finite.number
    exact ⟨knee.1, (le_iff_toReal zero_finite knee.1).mp above, knee.2⟩
  case attack =>
    have above := ordered.le_larger_right
      (x := preset.attackSeconds * larger preset.sampleRate 1.0) one_finite.number
    have least := (le_iff_toReal one_finite attack.1).mp above
    rw [toReal_one] at least
    exact ⟨attack.1, least, attack.2⟩
  case postGain => exact postGain
  case crestCoefficient => exact crestCoefficient_spans documented preset
  case adaptCoefficient =>
    exact Time.smoothing_rate_spans documented.ranged adaptTime preset.sampleRate rfl
  case gainEstimate =>
    have factor : toReal (-0.5) = -(1 / 2) := by
      have known : (-0.5 : Float32).toModel.unpack = .finite .negative 8388608 (-24) (by decide) :=
        rfl
      rw [toReal_of_unpack known]
      norm_num [signed]
    have fixed : Fixed (2 ^ 56) := fixed_two_pow (by norm_num)
    obtain ⟨half, -⟩ := mul_spans (y := -0.5) threshold.finite (by decide +kernel) fixed.neg fixed
      (by rw [factor]; linarith [threshold.most]) (by rw [factor]; linarith [threshold.least])
    refine (mul_spans half.finite slope.finite fixed.neg fixed ?_ ?_).1
    · nlinarith [half.least, half.most, slope.least, slope.most]
    · nlinarith [half.least, half.most, slope.least, slope.most]

end Derived

/-- Levels of finite samples, and a crest factor where the attack follows it. -/
structure Sight.Bounded (p : Parameters Float32) (x : Sight Float32) : Prop where
  leaving : Spans (-2 ^ 7) (2 ^ 7) x.leaving
  entering : Spans (-2 ^ 7) (2 ^ 7) x.entering
  crest : p.auto.attack = true → HasSign .positive x.crest.toModel.unpack

namespace GainState

def Numbers (s : GainState Float32) : Prop :=
  Number s.released ∧ Number s.attenuation ∧ Number s.deviation

structure Bounded (s : GainState Float32) : Prop where
  released : Spans (-2 ^ 61) (2 ^ 61) s.released
  attenuation : Spans (-2 ^ 61) (2 ^ 61) s.attenuation
  deviation : Spans (-2 ^ 62) (2 ^ 62) s.deviation

variable {p : Parameters Float32} {s : GainState Float32} {x : Sight Float32}

theorem Bounded.numbers (bounded : Bounded s) : s.Numbers :=
  ⟨bounded.released.finite.number, bounded.attenuation.finite.number,
    bounded.deviation.finite.number⟩

theorem Bounded.still : Bounded .still := by
  have zero (k : ℕ) : Spans (-2 ^ k) (2 ^ k) 0.0 :=
    ⟨zero_finite, neg_nonpos.mpr (by positivity), by rw [toReal_zero]; positivity⟩
  exact ⟨zero 61, zero 61, zero 62⟩

theorem declipped_spans {attenuation deviation leaving : Float32} (moderate : p.Moderate)
    (bounded : Spans (-2 ^ 61) (2 ^ 61) attenuation)
    (tracked : Spans (-2 ^ 62) (2 ^ 62) deviation) (seen : Spans (-2 ^ 7) (2 ^ 7) leaving) :
    Spans (-2 ^ 62) (2 ^ 62) (p.declipped leaving attenuation deviation) := by
  have threshold := moderate.threshold
  have estimate := moderate.gainEstimate
  have fixed (n : ℕ) (small : n ≤ 64) : Fixed (n * 2 ^ 56) := by
    have bits : (n : ℝ) ≤ 64 := by exact_mod_cast small
    exact fixed_scaled n 56 (by omega) (by norm_num) (by norm_num; linarith)
  have first := fixed 33 (by norm_num)
  have second := fixed 34 (by norm_num)
  have third := fixed 64 (by norm_num)
  norm_num at first second third
  unfold Parameters.declipped
  split
  · obtain ⟨left, -⟩ := sub_spans seen.finite bounded.finite first.neg first
      (by linarith [seen.least, bounded.most]) (by linarith [seen.most, bounded.least])
    obtain ⟨above, -⟩ := sub_spans left.finite threshold.finite second.neg second
      (by linarith [left.least, threshold.most]) (by linarith [left.most, threshold.least])
    obtain ⟨rest, -⟩ := sub_spans above.finite estimate.finite third.neg third
      (by linarith [above.least, estimate.most]) (by linarith [above.most, estimate.least])
    exact larger_spans tracked (rest.mono (by norm_num) (by norm_num))
  · exact tracked

variable [Elementary Float32]

/-- One sample keeps the states within their bounds. -/
theorem Bounded.step (documented : Elementary.Documented) (moderate : p.Moderate)
    (bounded : Bounded s) (seen : x.Bounded p) : Bounded (s.step p x) := by
  have demand := Parameters.demand_spans moderate bounded.deviation seen.entering
  have wide : Spans (-2 ^ 61) (2 ^ 61) (p.demand s.deviation x.entering) :=
    demand.mono (by norm_num) le_rfl
  obtain ⟨least, doubled⟩ := moderate.attack_reach
  have released := larger_spans wide (mix_spans (by norm_num) wide bounded.released
    (documented.ranged.damped.smoothing_spans (p.releaseTime_sign x.crest)))
  have attenuation := mix_spans (by norm_num) released bounded.attenuation
    (documented.ranged.damped.smoothing_spans
      (Parameters.attackTime_sign least doubled seen.crest))
  have estimate := moderate.gainEstimate
  have fixed : Fixed (2 ^ 62) := fixed_two_pow (by norm_num)
  obtain ⟨sum, -⟩ := add_spans attenuation.finite estimate.finite fixed.neg fixed
    (by linarith [attenuation.least, estimate.least])
    (by linarith [attenuation.most, estimate.most])
  have opposite := sum.neg
  rw [neg_neg] at opposite
  have tracked := mix_spans (by norm_num) opposite bounded.deviation moderate.adaptCoefficient
  exact ⟨released, attenuation, declipped_spans moderate attenuation tracked seen.leaving⟩

/-- The gain of bounded states is a number. -/
theorem Bounded.number_gain (documented : Elementary.Documented) (moderate : p.Moderate)
    (bounded : Bounded s) : Number (s.gain p) := by
  have estimate := moderate.gainEstimate
  have makeUp : Finite (p.makeUp s.deviation) := by
    unfold Parameters.makeUp
    split
    · have fixed : Fixed (2 ^ 63) := fixed_two_pow (by norm_num)
      obtain ⟨sum, -⟩ := add_spans bounded.deviation.finite estimate.finite fixed.neg fixed
        (by linarith [bounded.deviation.least, estimate.least])
        (by linarith [bounded.deviation.most, estimate.most])
      exact (neg_finite sum.finite).1
    · exact moderate.postGain
  have exponent : Number (p.makeUp s.deviation - s.attenuation) := by
    rw [Single.sub_eq]
    exact number_add makeUp (neg_finite bounded.attenuation.finite).1
  exact (ordered.numbers (documented.exp_nonneg exponent)).2

end GainState

namespace Crest

/-- Before a sample. -/
structure Bounded (c : Crest Float32) : Prop where
  peakSquare : Spans 0 (2 ^ 20) c.peakSquare
  meanSquare : Spans 0 (2 ^ 20) c.meanSquare

theorem Bounded.silent : Bounded .silent := by
  have zero : Spans 0 (2 ^ 20) 0.0 := ⟨zero_finite, le_rfl, by rw [toReal_zero]; positivity⟩
  exact ⟨zero, zero⟩

/-- The square of a level, infinite or not, is brought between its bounds. -/
theorem power_spans {level : Float32} (number : Number level) :
    Spans (2 ^ (-20 : ℤ)) (2 ^ 20) (power level) := by
  have low : (0.000001 : Float32).toModel.unpack = .finite .positive 8796093 (-43) (by decide) :=
    rfl
  have high : (1000000.0 : Float32).toModel.unpack = .finite .positive 16000000 (-4) (by decide) :=
    rfl
  have least : Spans (2 ^ (-20 : ℤ)) (2 ^ 20) 0.000001 := by
    refine ⟨by decide +kernel, ?_, ?_⟩ <;> rw [toReal_of_unpack low] <;> norm_num [signed]
  have most : Spans (2 ^ (-20 : ℤ)) (2 ^ 20) 1000000.0 := by
    refine ⟨by decide +kernel, ?_, ?_⟩ <;> rw [toReal_of_unpack high] <;> norm_num [signed]
  have square : Number (level * level) := number_mul_self number
  unfold power clamp
  split
  · exact least
  · rename_i above
    split
    · exact most
    · rename_i below
      have bottom := ordered.le_of_not_lt least.finite.number square above
      have top := ordered.le_of_not_lt square most.finite.number below
      exact (spans_of_le bottom top least.finite most.finite).mono least.least most.most

variable {coefficient level : Float32} {c : Crest Float32}

/-- After a sample there is a peak, and a mean without a minus sign. -/
theorem Bounded.step (unit : Spans 0 1 coefficient) (number : Number level) (bounded : Bounded c) :
    Bounded (c.step coefficient level) ∧ 0 < toReal (c.step coefficient level).peakSquare ∧
      HasSign .positive (c.step coefficient level).meanSquare.toModel.unpack := by
  have power := power_spans number
  have positive : 0 < toReal (Crest.power level) := lt_of_lt_of_le (by positivity) power.least
  have first : Spans 0 (2 ^ 20) (Crest.power level) := power.mono (by positivity) le_rfl
  have mixed {x : Float32} (second : Spans 0 (2 ^ 20) x) :
      Spans 0 (2 ^ 20) (mix (Crest.power level) x coefficient) ∧
        HasSign .positive (mix (Crest.power level) x coefficient).toModel.unpack :=
    ⟨mix_nonneg_spans (by norm_num) first second unit,
      hasSign_mix (by norm_num) first positive second unit⟩
  obtain ⟨peak, -⟩ := mixed bounded.peakSquare
  obtain ⟨mean, sign⟩ := mixed bounded.meanSquare
  have raised := larger_spans first peak
  have above := (le_iff_toReal first.finite raised.finite).mp
    (ordered.le_larger_left first.finite.number)
  exact ⟨⟨raised, mean⟩, positive.trans_le above, sign⟩

theorem Bounded.foldl (unit : Spans 0 1 coefficient) {levels : List Float32}
    (numbers : ∀ level ∈ levels, Number level) (bounded : Bounded c) :
    Bounded (levels.foldl (Crest.step coefficient) c) :=
  List.foldlRecOn levels _ bounded fun _ reached level among =>
    (reached.step unit (numbers level among)).1

theorem Bounded.trajectory (unit : Spans 0 1 coefficient) {levels : List Float32}
    (numbers : ∀ level ∈ levels, Number level) (bounded : Bounded c) :
    ∀ reached ∈ c.trajectory coefficient levels,
      Bounded reached ∧ HasSign .positive reached.factor.toModel.unpack := by
  induction levels generalizing c with
  | nil =>
    intro reached member
    cases member
  | cons level rest ih =>
    obtain ⟨next, peak, mean⟩ := bounded.step unit (numbers level List.mem_cons_self)
    intro reached member
    rcases List.mem_cons.mp member with rfl | later
    · exact ⟨next, hasSign_quotient next.peakSquare.finite peak mean⟩
    · exact ih (fun level among => numbers level (List.mem_cons_of_mem _ among)) next reached later

end Crest

end RealtimeAudio
