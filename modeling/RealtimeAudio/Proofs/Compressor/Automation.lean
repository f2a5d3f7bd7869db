import RealtimeAudio.Proofs.Compressor.Attenuation

/-! Attack and release times that follow the crest factor, on binary32 numbers. Rounding keeps the
order that exact smoothing keeps, so the mean power is never above the peak power; the crest factor
is then at least one, and no time that is divided by it grows. -/
namespace RealtimeAudio
open Arithmetic Binary Single
open Float.Model (Format UnpackedFloat)
open Float.Model.UnpackedFloat

namespace Crest

/-- The mean power is not above the peak power. -/
structure Peaked (c : Crest Float32) : Prop extends Bounded c where
  below : toReal c.meanSquare ≤ toReal c.peakSquare

namespace Peaked
variable {coefficient level : Float32} {c : Crest Float32}

theorem silent : Peaked .silent := ⟨.silent, le_rfl⟩

theorem squares (peaked : Peaked c) : 0.0 ≤ c.meanSquare ∧ c.meanSquare ≤ c.peakSquare := by
  have mean := peaked.meanSquare
  rw [le_iff_toReal zero_finite mean.finite, le_iff_toReal mean.finite peaked.peakSquare.finite]
  exact ⟨mean.least, peaked.below⟩

theorem step (peaked : Peaked c) (unit : Spans 0 1 coefficient) (number : Number level) :
    Peaked (c.step coefficient level) := by
  obtain ⟨bounded, -⟩ := peaked.toBounded.step unit number
  have power := ((power_spans number).mono (by positivity) le_rfl).widen
  have mixed : (c.step coefficient level).meanSquare ≤
      mix (Crest.power level) c.peakSquare coefficient :=
    mix_le (by norm_num) power peaked.meanSquare.widen peaked.peakSquare.widen unit peaked.below
  have raised := ordered.le_larger_right (x := Crest.power level) (ordered.numbers mixed).2
  refine ⟨bounded, ?_⟩
  rw [← le_iff_toReal bounded.meanSquare.finite bounded.peakSquare.finite]
  exact ordered.trans mixed raised

theorem foldl (peaked : Peaked c) (unit : Spans 0 1 coefficient) {levels : List Float32}
    (numbers : ∀ level ∈ levels, Number level) :
    Peaked (levels.foldl (Crest.step coefficient) c) :=
  List.foldlRecOn levels _ peaked fun _ reached level among =>
    reached.step unit (numbers level among)

/-- After a sample there is a peak, so that the quotient is a number, be the mean zero or not. -/
theorem one_le_factor (peaked : Peaked c) (unit : Spans 0 1 coefficient) (number : Number level) :
    0.0 < (c.step coefficient level).peakSquare ∧ 1.0 ≤ (c.step coefficient level).factor := by
  obtain ⟨bounded, peak, sign⟩ := peaked.toBounded.step unit number
  constructor
  · rwa [lt_iff_toReal zero_finite bounded.peakSquare.finite, toReal_zero]
  · exact one_le_quotient bounded.peakSquare.finite peak bounded.meanSquare.finite sign
      (peaked.step unit number).squares.2

end Peaked

end Crest

namespace Parameters
variable {p : Parameters Float32} {crest : Float32}

theorem le_doubled {x : Float32} (above : 1.0 ≤ x) (doubled : Single.Finite (2.0 * x)) :
    0 ≤ toReal x ∧ toReal x ≤ toReal (2.0 * x) := by
  have least := (le_iff_toReal one_finite doubled.factors.2).mp above
  rw [toReal_one] at least
  refine ⟨by linarith, ?_⟩
  rw [toReal_mul doubled, toReal_two]
  calc
    toReal x = Binary.round .binary32 (toReal x) := (round_toReal x).symm
    _ ≤ Binary.round .binary32 (2 * toReal x) := round_mono (by linarith)

/-- Times that the format reaches, also when doubled. -/
structure Timed (p : Parameters Float32) : Prop where
  attack : 1.0 ≤ p.attack
  release : 1.0 ≤ p.release
  doubledAttack : Single.Finite (2.0 * p.attack)
  doubledRelease : Single.Finite (2.0 * p.release)

theorem attackTime_spans (least : 1.0 ≤ p.attack) (doubled : Single.Finite (2.0 * p.attack))
    (above : 1.0 ≤ crest) : Spans 0 (toReal (2.0 * p.attack)) (p.attackTime crest) := by
  obtain ⟨nonneg, twice⟩ := le_doubled least doubled
  unfold attackTime
  split
  · exact quotient_spans doubled (nonneg.trans twice) above
  · exact ⟨doubled.factors.2, nonneg, twice⟩

/-- The release time loses the attack time, and is then no less than one sample. -/
theorem Timed.releaseTime_le (timed : p.Timed) (follows : p.auto.release = true)
    (above : 1.0 ≤ crest) : p.releaseTime crest ≤ larger 1.0 (2.0 * p.release) := by
  have doubled := timed.doubledRelease
  obtain ⟨nonneg, twice⟩ := le_doubled timed.release doubled
  have attack := attackTime_spans timed.attack timed.doubledAttack above
  have quotient := quotient_spans doubled (nonneg.trans twice) above
  obtain ⟨difference, -⟩ := sub_spans quotient.finite attack.finite
    (fixed_toReal timed.doubledAttack).neg (fixed_toReal doubled)
    (by linarith [quotient.least, attack.most]) (by linarith [quotient.most, attack.least])
  have less : 2.0 * p.release / crest - p.attackTime crest ≤ 2.0 * p.release :=
    (le_iff_toReal difference.finite doubled).mpr difference.most
  rw [releaseTime, if_pos follows]
  exact Ordered.larger_le (ordered.trans less (ordered.le_larger_right doubled.number))
    (ordered.le_larger_left one_finite.number)

end Parameters

namespace Flow
variable [Elementary Float32] {p : Parameters Float32} {levels : List Float32} {t : Nat}

/-- The crest detector once it has seen the level at a position. -/
def crestAt (p : Parameters Float32) (levels : List Float32) (t : Nat) : Crest Float32 :=
  ((start p).advance p (levels.take (t + 1))).crest

theorem advance_crest (used : p.auto.usesCrest = true) :
    ((start p).advance p levels).crest = levels.foldl (Crest.step p.crestCoefficient) .silent :=
  if_pos used

theorem crestAt_eq_step (used : p.auto.usesCrest = true) (inside : t < levels.length) :
    crestAt p levels t =
      ((start p).advance p (levels.take t)).crest.step p.crestCoefficient levels[t] := by
  rw [crestAt, advance_crest used, advance_crest used, ← List.take_append_getElem inside,
    List.foldl_append]
  rfl

theorem advance_peaked (unit : Spans 0 1 p.crestCoefficient)
    (numbers : ∀ level ∈ levels, Number level) : ((start p).advance p levels).crest.Peaked := by
  change Crest.Peaked (if p.auto.usesCrest then _ else _)
  split
  · exact Crest.Peaked.silent.foldl unit numbers
  · exact .silent

theorem sightAt_crest (used : p.auto.usesCrest = true) (inside : t < levels.length) :
    (sightAt p levels t).crest = (crestAt p levels t).factor := by
  have reached := getElem?_trajectory (Crest.step p.crestCoefficient) .silent levels inside
  have factors : (start p).factors p levels =
      (trajectory (Crest.step p.crestCoefficient) .silent levels).map Crest.factor := by
    rw [Flow.factors, if_pos used, Crest.trajectory_eq]
    rfl
  change ((start p).factors p levels).getD t 0.0 = _
  rw [factors, List.getD_eq_getElem?_getD, List.getElem?_map, reached, crestAt, advance_crest used]
  rfl

/-- What holds of the automation at a position. -/
structure Steady (p : Parameters Float32) (levels : List Float32) (t : Nat) : Prop where
  squares : 0.0 ≤ (crestAt p levels t).meanSquare ∧
    (crestAt p levels t).meanSquare ≤ (crestAt p levels t).peakSquare
  peak : 0.0 < (crestAt p levels t).peakSquare
  seen : (sightAt p levels t).crest = (crestAt p levels t).factor
  factor : 1.0 ≤ (sightAt p levels t).crest
  attack : p.auto.attack = true → 0.0 ≤ p.attackTime (sightAt p levels t).crest ∧
    p.attackTime (sightAt p levels t).crest ≤ 2.0 * p.attack
  release : p.auto.release = true → 1.0 ≤ p.releaseTime (sightAt p levels t).crest ∧
    p.releaseTime (sightAt p levels t).crest ≤ larger 1.0 (2.0 * p.release)
  attackCoefficient : 0.0 ≤ Time.smoothing (p.attackTime (sightAt p levels t).crest) ∧
    Time.smoothing (p.attackTime (sightAt p levels t).crest) ≤ 1.0
  releaseCoefficient : 0.0 ≤ Time.smoothing (p.releaseTime (sightAt p levels t).crest) ∧
    Time.smoothing (p.releaseTime (sightAt p levels t).crest) ≤ 1.0

theorem steady (damped : Elementary.Damped) (timed : p.Timed) (unit : Spans 0 1 p.crestCoefficient)
    (numbers : ∀ level ∈ levels, Number level) (used : p.auto.usesCrest = true)
    (inside : t < levels.length) : Steady p levels t := by
  have before : ((start p).advance p (levels.take t)).crest.Peaked :=
    advance_peaked unit fun level among => numbers level (List.mem_of_mem_take among)
  have number := numbers levels[t] (List.getElem_mem inside)
  have now := crestAt_eq_step used inside
  have seen := sightAt_crest used inside
  obtain ⟨peak, factor⟩ := before.one_le_factor unit number
  rw [← now] at peak factor
  rw [← seen] at factor
  constructor
  case squares =>
    rw [now]
    exact (before.step unit number).squares
  case peak => exact peak
  case seen => exact seen
  case factor => exact factor
  case attack =>
    intro _
    have attack := Parameters.attackTime_spans timed.attack timed.doubledAttack factor
    rw [← toReal_zero] at attack
    exact attack.between zero_finite timed.doubledAttack
  case release =>
    exact fun follows => ⟨p.one_le_releaseTime _, timed.releaseTime_le follows factor⟩
  case attackCoefficient =>
    have sign := Parameters.attackTime_sign timed.attack timed.doubledAttack
      fun _ => hasSign_of_one_le factor
    exact (damped.smoothing_spans sign).unit
  case releaseCoefficient => exact (damped.smoothing_spans (p.releaseTime_sign _)).unit

end Flow

namespace Compressor

section Whole
variable [Elementary Float32]

/-- The automation over whole signals, and what comes out by it. -/
structure Steadied (p : Parameters Float32) (n : Nat) (levels : List Float32)
    (signals outputs : List (List Float32)) (c : Compressor Float32) : Prop where
  carried : 0.0 ≤ c.crest.meanSquare ∧ c.crest.meanSquare ≤ c.crest.peakSquare
  steady : p.auto.usesCrest = true → ∀ t < n, Flow.Steady p levels t
  /-- What the automation sees is what the gain computer works with. -/
  step : ∀ t < n, Flow.computer p (levels.take (t + 1)) =
    (Flow.computer p (levels.take t)).step p (Flow.sightAt p levels t)
  emits : List.Forall₂ (Emits p levels) signals outputs

/-- Times that follow the crest factor stay within those that are set, and smoothing coefficients
between 0 and 1, whatever the samples. Of the exponential it is only used that it lies between 0
and 1 up to zero. -/
theorem stream_steadied (damped : Elementary.Damped) (preset : Preset Float32)
    (attack : Single.Finite (2.0 * (Parameters.ofPreset preset).attack))
    (release : Single.Finite (2.0 * (Parameters.ofPreset preset).release)) {n : Nat}
    {signals : List (List Float32)} {sizes : List Nat} (equal : ∀ xs ∈ signals, xs.length = n)
    (cut : Cut n sizes) :
    let p := Parameters.ofPreset preset
    let levels := link n (raised p (signals.take p.channels))
    ∃ c outputs readings, (ofPreset preset).stream? sizes signals = some (c, outputs, readings) ∧
      Steadied p n levels (signals.take p.channels) (outputs.take p.channels) c := by
  intro p levels
  have timed : p.Timed := ⟨ordered.le_larger_right one_finite.number,
    ordered.le_larger_right one_finite.number, attack, release⟩
  have unit : Spans 0 1 p.crestCoefficient := damped.crestCoefficient_spans preset
  have active : ∀ xs ∈ signals.take p.channels, xs.length = n := equal_front equal
  have numbers : ∀ level ∈ levels, Number level := number_level active
  have size : levels.length = n := length_link n _ (equal_raised active)
  obtain ⟨c, streamed, t, -, -, crest, -⟩ := ofParameters_stream_state p cut active
  refine ⟨c, _, _, streamed, ?_⟩
  constructor
  case carried =>
    rw [crest]
    exact (Flow.advance_peaked unit fun level among =>
      numbers level (List.mem_of_mem_take among)).squares
  case steady =>
    intro used t inside
    exact Flow.steady damped timed unit numbers used (by omega)
  case step => exact fun t inside => Flow.computer_succ (by omega)
  case emits => exact (response_emits active).1

end Whole

/-- At a sample rate at which the coefficient of the crest detector is one, the mean power stays
zero and the crest factor is infinite. -/
theorem stream_steadied_infinite :
    letI := stairways
    let preset : Preset Float32 := { Preset.standard with
      channels := 1, sampleRate := 1e30, attackSeconds := 0.0, releaseSeconds := -1.0,
      auto := { Automation.off with attack := true, release := true } }
    let signals := [[.ofBits 0x7fc00000, top, -0.5]]
    let p := Parameters.ofPreset preset
    let levels := link 3 (raised p signals)
    Elementary.Damped ∧ Single.Finite (2.0 * p.attack) ∧ Single.Finite (2.0 * p.release) ∧
      Cut 3 [2, 1] ∧ p.auto.usesCrest = true ∧ (Flow.crestAt p levels 2).factor = top ∧
      ∃ c outputs readings, (ofPreset preset).stream? [2, 1] signals =
        some (c, outputs, readings) ∧ Steadied p 3 levels signals (outputs.take 1) c := by
  let _ := stairways
  intro preset signals p levels
  have damped := stairways_ranged.damped
  have attack : Single.Finite (2.0 * p.attack) := by decide +kernel
  have release : Single.Finite (2.0 * p.release) := by decide +kernel
  have cut : Cut 3 [2, 1] := ⟨rfl, by decide⟩
  have equal : ∀ xs ∈ signals, xs.length = 3 := by decide
  exact ⟨damped, attack, release, cut, rfl, by decide +kernel,
    stream_steadied damped preset attack release equal cut⟩

end Compressor

end RealtimeAudio
