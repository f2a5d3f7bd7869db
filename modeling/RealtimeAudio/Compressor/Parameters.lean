import RealtimeAudio.Decibel
import RealtimeAudio.Preset

/-! The fixed values of a compressor, derived from a preset: times in samples, levels
in natural-log units. Whatever the preset holds, each value is brought into the range
that the signal path relies on. -/
namespace RealtimeAudio

structure Parameters (α : Type) where
  channels : Nat
  auto : Automation
  /-- By how many samples the gain precedes the signal. -/
  lookAhead : Nat
  holdLength : Option Nat
  preGain : α
  postGain : α
  threshold : α
  /-- Output level per input level above the threshold, less one. -/
  slope : α
  knee : α
  attack : α
  release : α
  crestCoefficient : α
  /-- The attenuation of a signal half as far down as the threshold, negated. -/
  gainEstimate : α
  adaptCoefficient : α

namespace Parameters
variable {α : Type} [Arithmetic α] [Elementary α]
open Arithmetic

/-- Time constant of the crest detector, in seconds. -/
def crestTime : α := 0.2

/-- Time constant of the deviation tracker, in seconds. -/
def adaptTime : α := 2.0

/-- The slope of a ratio; an automatic knee makes the stage a limiter. -/
def slopeOf (auto : Automation) (ratio : α) : α :=
  if auto.knee then -1.0 else 1.0 / larger ratio 1.0 - 1.0

/-- A hold needs look-ahead, and one sample of hold is none. -/
def holdOf (lookAhead length : Nat) : Option Nat :=
  if 0 < lookAhead ∧ 1 < length then some length else none

def ofPreset (p : Preset α) : Parameters α :=
  let rate := larger p.sampleRate 1.0
  let auto := p.auto.effective
  let lookAhead := Time.blockSamples p.lookAheadSeconds rate
  let threshold := Level.decibelToLog p.thresholdDb
  let slope := slopeOf auto p.ratio
  { channels := p.channels
    auto
    lookAhead
    holdLength := holdOf lookAhead (Time.blockSamples p.holdSeconds rate)
    preGain := Level.decibelToAmplitude p.preGainDb
    postGain := Level.decibelToLog p.postGainDb
    threshold
    slope
    knee := larger (Level.decibelToLog p.kneeDb) 0.0
    attack := larger (p.attackSeconds * rate) 1.0
    release := larger (p.releaseSeconds * rate) 1.0
    crestCoefficient := Time.smoothing (crestTime * rate)
    gainEstimate := threshold * -0.5 * slope
    adaptCoefficient := Time.smoothing (adaptTime * rate) }

end Parameters

end RealtimeAudio
