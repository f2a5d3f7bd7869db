import RealtimeAudio.Proofs.Compressor.Attenuation
import RealtimeAudio.Proofs.Single.Zero

/-! Signals whose levels stay below the knee. The static curve asks for nothing, and smoothing makes
nothing of nothing, whatever its coefficients: a zero may change its sign, but no gain departs from
the fixed one by a single bit. -/
namespace RealtimeAudio
open Arithmetic Binary Single
open Float.Model (Format UnpackedFloat)
open Float.Model.UnpackedFloat

/-- Besides its damping, that the exponential does not tell the zeros apart. -/
structure Elementary.Neutral [Elementary Float32] : Prop extends Elementary.Damped where
  exp_neg_zero : Elementary.exp (-0.0 : Float32) = Elementary.exp 0.0

theorem Elementary.Neutral.exp_sub [Elementary Float32] (neutral : Elementary.Neutral)
    {x z : Float32} (zero : IsZero z) : Elementary.exp (x - z) = Elementary.exp x := by
  have same {y : Float32} (other : IsZero y) : Elementary.exp y = Elementary.exp 0.0 := by
    rcases other with rfl | rfl
    · rfl
    · exact neutral.exp_neg_zero
  rcases sub_isZero (x := x) zero with unchanged | ⟨before, after⟩
  · rw [unchanged]
  · rw [same before, same after]

/-- Parameters of a fixed curve and a fixed post-gain, with an attack time that the format reaches
also when doubled. -/
structure Parameters.Plain (p : Parameters Float32) : Prop where
  knee : p.auto.knee = false
  postGain : p.auto.postGain = false
  slope : Finite p.slope
  attack : 1.0 ≤ p.attack
  doubled : Single.Finite (2.0 * p.attack)

/-- Up to the lower end of the knee, be it of no width, the curve asks for nothing. -/
theorem Parameters.Plain.isZero_demand {p : Parameters Float32} (plain : p.Plain)
    {level : Float32} (below : level - p.threshold ≤ -(0.5 * p.knee)) (deviation : Float32) :
    IsZero (p.demand deviation level) := by
  have knee : p.kneeWidth deviation = p.knee := by
    rw [kneeWidth, plain.knee]
    rfl
  have curve : p.overshoot p.knee level = 0.0 := if_pos below
  rw [demand, knee, curve]
  exact isZero_zero.mul (neg_finite plain.slope).1

namespace GainState

/-- Nothing is taken away, and nothing is left to be released. -/
structure Resting (s : GainState Float32) : Prop where
  released : IsZero s.released
  attenuation : IsZero s.attenuation

namespace Resting
variable {p : Parameters Float32} {s : GainState Float32} {x : Sight Float32}

theorem still : Resting .still := ⟨isZero_zero, isZero_zero⟩

variable [Elementary Float32]

theorem step (resting : s.Resting) (damped : Elementary.Damped) (plain : p.Plain)
    (below : x.entering - p.threshold ≤ -(0.5 * p.knee))
    (sign : p.auto.attack = true → HasSign .positive x.crest.toModel.unpack) :
    (s.step p x).Resting := by
  have slow := damped.smoothing_spans (p.releaseTime_sign x.crest)
  have fast := damped.smoothing_spans (Parameters.attackTime_sign plain.attack plain.doubled sign)
  have demand := plain.isZero_demand below s.deviation
  have released := demand.larger (demand.mix resting.released slow.finite)
  exact ⟨released, released.mix resting.attenuation fast.finite⟩

theorem gain (resting : s.Resting) (neutral : Elementary.Neutral) (plain : p.Plain) :
    s.gain p = Elementary.exp p.postGain := by
  rw [gain_eq plain.postGain]
  exact neutral.exp_sub resting.attenuation

end Resting

/-- The deepest of no attenuations is none. -/
theorem isZero_deepest {states : List (GainState Float32)}
    (resting : ∀ s ∈ states, s.Resting) : IsZero (deepest 0.0 states) := by
  rw [Compressor.deepest_eq_foldl]
  rcases Ordered.foldl_larger_mem (0.0 : Float32) (states.map (·.attenuation)) with none | reached
  · rw [none]
    exact isZero_zero
  · obtain ⟨s, member, same⟩ := List.mem_map.mp reached
    rw [← same]
    exact (resting s member).attenuation

end GainState

namespace Flow
variable [Elementary Float32] {p : Parameters Float32} {levels : List Float32} {t : Nat}

/-- No level that is detected reaches into the knee. -/
def Below (p : Parameters Float32) (levels : List Float32) : Prop :=
  ∀ level ∈ (start p).detected p levels, level - p.threshold ≤ -(0.5 * p.knee)

variable (damped : Elementary.Damped) (plain : p.Plain) (unit : Spans 0 1 p.crestCoefficient)
  (numbers : ∀ level ∈ levels, Number level) (below : Below p levels)
include damped plain unit numbers below

theorem computer_resting (known : t ≤ levels.length) : (computer p (levels.take t)).Resting := by
  induction t with
  | zero =>
    rw [List.take_zero, computer, advance_nil]
    exact .still
  | succ t ih =>
    have among : t < ((start p).detected p levels).length := by rwa [length_detected]
    have entering : (sightAt p levels t).entering ∈ (start p).detected p levels := by
      change ((start p).detected p levels).getD t 0.0 ∈ _
      rw [List.getD_eq_getElem _ _ among]
      exact List.getElem_mem among
    rw [computer_succ known]
    exact (ih (by omega)).step damped plain (below _ entering) (sightAt_sign unit numbers known)

theorem states_resting : ∀ s ∈ (start p).states p levels, s.Resting := by
  intro s member
  obtain ⟨t, inside, rfl⟩ := List.getElem_of_mem member
  have known : t < levels.length := by rwa [length_states] at inside
  obtain ⟨_, same⟩ := List.getElem?_eq_some_iff.mp (getElem?_states known)
  rw [same]
  exact computer_resting damped plain unit numbers below known

end Flow

namespace Compressor
variable {p : Parameters Float32}

theorem isZero_logToDecibel {x : Float32} (zero : IsZero x) : IsZero (Level.logToDecibel x) := by
  have divisor : (Level.lnPerDecibel : Float32).toModel.unpack = .finite .positive _ _ _ := rfl
  exact zero.div divisor

/-- However states at rest are cut into calls, the meter shows nothing after each. -/
theorem isZero_meterReadings {sizes : List Nat} {states : List (GainState Float32)}
    (cut : states.length = sizes.sum) (resting : ∀ s ∈ states, s.Resting) :
    ∀ reading ∈ meterReadings sizes states, IsZero reading := by
  intro reading member
  obtain ⟨block, among, rfl⟩ := List.mem_map.mp member
  refine isZero_logToDecibel (GainState.isZero_deepest fun s inside => resting s ?_)
  rw [← List.flatten_splitLengths states sizes cut.le]
  exact List.mem_flatten.mpr ⟨block, among, inside⟩

section Whole
variable [Elementary Float32]

/-- A channel with its pre-gain, late by the look-ahead, at the fixed post-gain. -/
def passed (p : Parameters Float32) (xs : List Float32) : List Float32 :=
  (Delay.leaving (List.replicate p.lookAhead 0.0) (xs.map (· * p.preGain))).map
    (· * Elementary.exp p.postGain)

theorem Emits.eq_passed {levels xs ys : List Float32} (emits : Emits p levels xs ys)
    (gains : ∀ t < xs.length, Flow.gainAt p levels t = Elementary.exp p.postGain) :
    ys = passed p xs := by
  have size : (passed p xs).length = xs.length := by simp [passed]
  refine List.ext_getElem? fun t => ?_
  by_cases inside : t < xs.length
  · have delayed := Delay.getElem?_leaving (0.0 : Float32) p.lookAhead
      (inside.trans_eq (List.length_map (· * p.preGain)).symm)
    rw [emits.2 t inside, gains t inside, passed, List.getElem?_map, delayed]
    rfl
  · rw [List.getElem?_eq_none (by rw [emits.1]; omega), List.getElem?_eq_none (by omega)]

/-- How whole signals come out whose levels stay below the knee. -/
structure PassedThrough (p : Parameters Float32) (n : Nat) (sizes : List Nat)
    (levels : List Float32) (signals outputs : List (List Float32)) (readings : List Float32)
    (c : Compressor Float32) : Prop where
  detects : ∃ hold, detect? (ofParameters p).hold levels =
    some (hold, (Flow.start p).detected p levels)
  carried : c.gain.Resting
  states : ∀ t ≤ n, (Flow.computer p (levels.take t)).Resting
  gains : ∀ t < n, Flow.gainAt p levels t = Elementary.exp p.postGain
  emits : List.Forall₂ (Emits p levels) signals outputs
  /-- With one constant for all the gains nothing is left of the levels. -/
  outputs : outputs = signals.map (passed p)
  readings : readings.length = sizes.length ∧ ∀ reading ∈ readings, IsZero reading

/-- A compressor leaves alone what stays below its knee: each sample comes out with its pre-gain,
late by the look-ahead and multiplied by one constant, and the meter shows nothing, over any calls
and with any automatic times. -/
theorem stream_passedThrough (neutral : Elementary.Neutral) {preset : Preset Float32}
    (knee : preset.auto.knee = false) (postGain : preset.auto.postGain = false)
    (doubled : Single.Finite (2.0 * (Parameters.ofPreset preset).attack)) {n : Nat}
    {signals : List (List Float32)} {sizes : List Nat} (equal : ∀ xs ∈ signals, xs.length = n)
    (cut : Cut n sizes) :
    let p := Parameters.ofPreset preset
    let levels := link n (raised p (signals.take p.channels))
    Flow.Below p levels →
    ∃ c outputs readings, (ofPreset preset).stream? sizes signals = some (c, outputs, readings) ∧
      PassedThrough p n sizes levels (signals.take p.channels) (outputs.take p.channels)
        readings c := by
  intro p levels below
  have damped := neutral.toDamped
  have plain : p.Plain := ⟨knee, postGain, (Parameters.slopeOf_spans _ _).finite,
    ordered.le_larger_right one_finite.number, doubled⟩
  have unit : Spans 0 1 p.crestCoefficient := damped.crestCoefficient_spans preset
  have active : ∀ xs ∈ signals.take p.channels, xs.length = n := equal_front equal
  have numbers : ∀ level ∈ levels, Number level := number_level active
  have size : levels.length = n := length_link n _ (equal_raised active)
  have resting {t : Nat} (known : t ≤ n) : (Flow.computer p (levels.take t)).Resting :=
    Flow.computer_resting damped plain unit numbers below (by omega)
  have gains {t : Nat} (inside : t < n) : Flow.gainAt p levels t = Elementary.exp p.postGain :=
    (resting inside).gain neutral plain
  obtain ⟨c, streamed, t, known, -, -, gain⟩ := ofParameters_stream_state p cut active
  have emits := (response_emits active).1
  refine ⟨c, _, _, streamed, ?_⟩
  constructor
  case detects =>
    obtain ⟨hold, found, -⟩ := (Shows.ofParameters p).detect levels
    exact ⟨hold, found⟩
  case carried =>
    rw [gain]
    exact resting known
  case states => exact fun t known => resting known
  case gains => exact fun t inside => gains inside
  case emits => exact emits
  case outputs =>
    rw [List.forall₂_iff_get] at emits
    refine List.ext_getElem (by rw [List.length_map, emits.1]) fun i inside among => ?_
    rw [List.length_map] at among
    rw [List.getElem_map]
    refine (emits.2 i among inside).eq_passed fun t early => gains ?_
    rwa [← active _ (List.getElem_mem among)]
  case readings =>
    rw [responseReadings]
    split
    · refine ⟨List.length_map _, fun reading member => ?_⟩
      obtain ⟨-, -, rfl⟩ := List.mem_map.mp member
      exact isZero_zero
    · have counted : ((Flow.start p).states p levels).length = sizes.sum := by
        rw [Flow.length_states, size, cut.total]
      rw [cut.total]
      refine ⟨by simp [meterReadings], isZero_meterReadings counted ?_⟩
      exact Flow.states_resting damped plain unit numbers below

end Whole

theorem stairways_neutral : @Elementary.Neutral stairways :=
  @Elementary.Neutral.mk stairways (@Elementary.Ranged.damped stairways stairways_ranged)
    (by decide +kernel)

/-- Levels that are held, a slope of zero, which turns what the curve asks for into a negative zero,
and a post-gain that is one. -/
theorem stream_passedThrough_held :
    letI := stairways
    let preset : Preset Float32 := { Preset.standard with
      channels := 1, sampleRate := 1.0, lookAheadSeconds := 1.0, holdSeconds := 2.0,
      postGainDb := -0.0, ratio := 1.0, auto := { Automation.off with attack := true } }
    let signals := [[0.5, .ofBits 0x7fc00000, -0.25]]
    let p := Parameters.ofPreset preset
    let levels := link 3 (raised p signals)
    Elementary.Neutral ∧ Single.Finite (2.0 * p.attack) ∧ Cut 3 [2, 1] ∧ Flow.Below p levels ∧
      p.holdLength = some 2 ∧ p.demand 0.0 (Elementary.ln 0.5) = -0.0 ∧ p.postGain = -0.0 ∧
      ∃ c outputs readings, (ofPreset preset).stream? [2, 1] signals =
        some (c, outputs, readings) ∧
        PassedThrough p 3 [2, 1] levels signals (outputs.take 1) readings c := by
  let _ := stairways
  intro preset signals p levels
  have doubled : Single.Finite (2.0 * p.attack) := by decide +kernel
  have cut : Cut 3 [2, 1] := ⟨rfl, by decide⟩
  have equal : ∀ xs ∈ signals, xs.length = 3 := by decide
  have below : Flow.Below p levels := by
    unfold Flow.Below
    decide +kernel
  exact ⟨stairways_neutral, doubled, cut, below, by decide +kernel, by decide +kernel,
    by decide +kernel, stream_passedThrough stairways_neutral rfl rfl doubled equal cut below⟩

end Compressor

end RealtimeAudio
