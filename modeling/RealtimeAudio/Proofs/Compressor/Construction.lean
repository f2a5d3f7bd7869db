import RealtimeAudio.Proofs.Compressor.Infinity
import RealtimeAudio.Proofs.Single.Whole

/-! What a preset becomes. No value of it is refused, whether infinite or no number: each derived
value is brought into the range that the signal path relies on. -/
namespace RealtimeAudio
open Arithmetic Binary Single
open Float.Model (Format UnpackedFloat)
open Float.Model.UnpackedFloat

theorem PeakHold.length_new {n : ℕ} (long : 2 ≤ n) (short : n < blockLimit) :
    (new n : PeakHold Float32).length = n := by
  change max 2 (min (blockLimit - 1) n) = n
  omega

/-- A hold has the length that is asked for, if it has one at all. -/
theorem Parameters.length_holdOf (lookAhead : ℕ) {n : ℕ} (short : n < blockLimit) :
    ((holdOf lookAhead n).map fun length => (PeakHold.new length : PeakHold Float32).length) =
      if 0 < lookAhead ∧ 1 < n then some n else none := by
  unfold holdOf
  by_cases wanted : 0 < lookAhead ∧ 1 < n
  · simp only [if_pos wanted, Option.map_some, PeakHold.length_new wanted.2 short]
  · simp only [if_neg wanted, Option.map_none]

theorem Parameters.slopeOf_between (auto : Automation) (ratio : Float32) :
    -1.0 ≤ slopeOf auto ratio ∧ slopeOf auto ratio ≤ 0.0 := by
  obtain ⟨finite, minus⟩ := neg_finite one_finite
  have spans := slopeOf_spans auto ratio
  rw [← toReal_one, ← minus, ← toReal_zero] at spans
  exact spans.between finite zero_finite

namespace Compressor

section Derived
variable [Elementary Float32]

/-- The ranges of what is built from a preset. A comparison also says that both sides are
numbers. -/
structure InRange (preset : Preset Float32) (c : Compressor Float32) : Prop where
  lookAhead : Counts (blockLimit - 1) (preset.lookAheadSeconds * larger preset.sampleRate 1.0)
    c.parameters.lookAhead
  lookAhead_le : c.parameters.lookAhead ≤ 1023
  attack : 1.0 ≤ c.parameters.attack
  release : 1.0 ≤ c.parameters.release
  /-- Also where both times are infinite. -/
  chained : 1.0 ≤ larger (c.parameters.release - c.parameters.attack) 1.0
  knee : 0.0 ≤ c.parameters.knee
  slope : -1.0 ≤ c.parameters.slope ∧ c.parameters.slope ≤ 0.0
  limits : preset.auto.knee = true → c.parameters.slope = -1.0
  crestCoefficient : 0.0 ≤ c.parameters.crestCoefficient ∧ c.parameters.crestCoefficient ≤ 1.0
  adaptCoefficient : 0.0 ≤ c.parameters.adaptCoefficient ∧ c.parameters.adaptCoefficient ≤ 1.0
  hold : ∃ n, Counts (blockLimit - 1) (preset.holdSeconds * larger preset.sampleRate 1.0) n ∧
    n ≤ 1023 ∧ c.hold.map PeakHold.length =
      if 0 < c.parameters.lookAhead ∧ 2 ≤ n then some n else none
  declip : c.parameters.auto.declip = true ↔
    preset.auto.declip = true ∧ c.parameters.auto.postGain = true
  delays : c.delays = if 0 < c.parameters.lookAhead then
      List.replicate preset.channels (List.replicate c.parameters.lookAhead 0.0)
    else []
  history : c.levels.take c.parameters.lookAhead =
    List.replicate c.parameters.lookAhead (Elementary.ln Level.amplitudeFloor)

/-- Whatever the values of a preset, those of its compressor are in range. -/
theorem ofPreset_inRange (damped : Elementary.Damped) (preset : Preset Float32) :
    InRange preset (ofPreset preset) := by
  have short {seconds : Float32} :
      Time.blockSamples seconds (larger preset.sampleRate 1.0) ≤ blockLimit - 1 :=
    (counts_wholeUpTo _ _).le
  constructor
  case lookAhead => exact counts_wholeUpTo _ _
  case lookAhead_le => exact short
  case attack => exact ordered.le_larger_right one_finite.number
  case release => exact ordered.le_larger_right one_finite.number
  case chained => exact ordered.le_larger_right one_finite.number
  case knee => exact ordered.le_larger_right zero_finite.number
  case slope => exact Parameters.slopeOf_between preset.auto.effective preset.ratio
  case limits => exact fun automatic => if_pos automatic
  case crestCoefficient => exact (damped.crestCoefficient_spans preset).unit
  case adaptCoefficient =>
    exact (damped.smoothing_rate_spans Parameters.adaptTime preset.sampleRate rfl).unit
  case hold =>
    refine ⟨_, counts_wholeUpTo _ _, short, ?_⟩
    change (Option.map _ (Parameters.holdOf _ _)).map _ = _
    rw [Option.map_map]
    exact Parameters.length_holdOf _ (Nat.lt_of_le_pred (by decide) short)
  case declip => exact Bool.and_eq_true_iff
  case delays => rfl
  case history =>
    exact List.take_left' List.length_replicate

end Derived

theorem ofPreset_inRange_extremes :
    letI := steps
    let preset : Preset Float32 := { Preset.standard with
      sampleRate := top, ratio := .ofBits 0x7fc00000, kneeDb := -top, lookAheadSeconds := 1.0,
      holdSeconds := 0.0, attackSeconds := top, releaseSeconds := top }
    let p := Parameters.ofPreset preset
    Elementary.Damped ∧ InRange preset (ofPreset preset) ∧ p.lookAhead = 1023 ∧
      ¬Number (preset.holdSeconds * preset.sampleRate) ∧ ¬Number (p.release - p.attack) := by
  let _ := steps
  intro preset p
  have damped := steps_documented.ranged.damped
  exact ⟨damped, ofPreset_inRange damped preset, by decide +kernel, by decide +kernel,
    by decide +kernel⟩

end Compressor

end RealtimeAudio
