import RealtimeAudio.Compressor.Crest
import RealtimeAudio.Compressor.Delay
import RealtimeAudio.Compressor.Gain
import RealtimeAudio.Meter
import RealtimeAudio.PeakHold

/-! A feed-forward compressor for several linked channels, with look-ahead. A call
takes one block: the channels are raised by the pre-gain and linked into one level per
sample, the levels are detected on a logarithmic scale, the gain computer turns them
into gains, and the gains are applied to the channels, delayed by the look-ahead. The
level store keeps the look-ahead's levels in front of the block's. All storage has its
size from the start; a call that left it would have no result. -/
namespace RealtimeAudio

structure Compressor (α : Type) where
  parameters : Parameters α
  crest : Crest α
  gain : GainState α
  /-- Levels, then gains, of the samples in the delay and of the current block. -/
  levels : List α
  crests : List α
  hold : Option (PeakHold α)
  delays : List (List α)
  /-- Deepest attenuation of the last block in decibels, make-up gain apart. -/
  meter : Meter α

namespace Compressor
variable {α : Type} [Arithmetic α] [Elementary α]
open Arithmetic

def ofParameters (p : Parameters α) : Compressor α where
  parameters := p
  crest := .silent
  gain := .still
  levels := List.replicate p.lookAhead (Elementary.ln Level.amplitudeFloor) ++
    List.replicate blockLimit 0.0
  crests := List.replicate blockLimit 0.0
  hold := p.holdLength.map PeakHold.new
  delays := if 0 < p.lookAhead then
      List.replicate p.channels (List.replicate p.lookAhead 0.0)
    else []
  meter := ⟨0.0⟩

/-- Build a compressor. Nothing in a preset is refused. -/
def ofPreset (p : Preset α) : Compressor α := ofParameters (.ofPreset p)

/-- The level of each sample over all channels: the largest magnitude. -/
def link (n : Nat) (channels : List (List α)) : List α :=
  channels.foldl (fun levels xs => List.zipWith (fun l x => larger l (magnitude x)) levels xs)
    (List.replicate n 0.0)

def detect? (hold : Option (PeakHold α)) (linked : List α) :
    Option (Option (PeakHold α) × List α) :=
  let logs := linked.map Level.amplitudeToLog
  match hold with
  | none => some (none, logs)
  | some h => (h.block? logs).map fun (h, held) => (some h, held)

/-- The number of samples a call handles: as many as asked for, as a block has, and as
the shortest buffer in use has. -/
def blockLength (channels count : Nat) (buffers : List (List α)) : Nat :=
  (buffers.take channels).foldl (fun n buffer => min n buffer.length) (min count blockLimit)

/-- Detection and gains for one block of linked levels: the compressor with the gains in
front of its level store. -/
def computeGains? (c : Compressor α) (linked : List α) : Option (Compressor α) := do
  let p := c.parameters
  let n := linked.length
  let crestStates :=
    if p.auto.usesCrest then c.crest.trajectory p.crestCoefficient linked else []
  let crests ← Segment.write? 0 (crestStates.map Crest.factor) c.crests
  let (hold, detected) ← detect? c.hold linked
  let levels ← Segment.write? p.lookAhead detected c.levels
  let (gain, deepest, levels) ←
    GainState.sweep? p crests.toArray n 0 c.gain 0.0 levels.toArray
  return { c with
    crest := crestStates.getLast?.getD c.crest
    gain, crests, hold
    levels := levels.toList
    meter := c.meter.set (Level.logToDecibel deepest) }

/-- Compress up to `count` samples of each channel in place. Buffers beyond the channels,
and samples beyond the block, stay as they are; with nothing to handle, so does the
compressor. -/
def process? (c : Compressor α) (count : Nat) (buffers : List (List α)) :
    Option (Compressor α × List (List α)) := do
  let p := c.parameters
  let active := buffers.take p.channels
  let n := blockLength p.channels count buffers
  if n = 0 ∨ active = [] then return (c, buffers)
  let blocks ← active.mapM (Segment.read? 0 n)
  let raised := blocks.map (List.map (· * p.preGain))
  let c ← c.computeGains? (link n raised)
  let (delayed, delays) ←
    if 0 < p.lookAhead then Delay.exchangeAll? p.lookAhead c.delays raised
    else some (raised, c.delays)
  let gains ← Segment.read? 0 n c.levels
  let outputs := delayed.map fun xs => List.zipWith (· * ·) xs gains
  let done ← (outputs.zip active).mapM fun (out, buffer) => Segment.write? 0 out buffer
  let kept ← Segment.read? n p.lookAhead c.levels
  let levels ← Segment.write? 0 kept c.levels
  return ({ c with delays, levels }, done ++ buffers.drop p.channels)

/-- Consecutive calls on blocks of the given sizes, cut from the front of the signals.
What no block covers stays. The meter is read after each call. -/
def stream? (c : Compressor α) :
    (sizes : List Nat) → (signals : List (List α)) →
      Option (Compressor α × List (List α) × List α)
  | [], signals => some (c, signals, [])
  | n :: sizes, signals => do
    let (c, block) ← c.process? n (signals.map (List.take n))
    let (last, rest, readings) ← c.stream? sizes (signals.map (List.drop n))
    return (last, List.zipWith (· ++ ·) block rest, c.meter.get :: readings)

end Compressor

end RealtimeAudio
