import RealtimeAudio.Bytes
import RealtimeAudio.Compressor
import RealtimeAudio.Ring.Transfer

/-! Audio through a ring. One side interleaves the channels into frames, one sample of
each channel, and writes frames as there is room; the other reads frames, takes them
apart into channels again and compresses them block by block. -/
namespace RealtimeAudio

namespace Frames
variable {α : Type}

/-- The first `count` frames, in one sequence. -/
def interleave : (count : Nat) → (channels : List (List α)) → List α
  | 0, _ => []
  | count + 1, channels =>
    channels.filterMap List.head? ++ interleave count (channels.map List.tail)

/-- The frames of `width` samples, as long as whole ones are left. -/
def frames (width : Nat) : (fuel : Nat) → List α → List (List α)
  | 0, _ => []
  | fuel + 1, samples =>
    if samples.length < width then []
    else samples.take width :: frames width fuel (samples.drop width)

def deinterleave (width : Nat) (samples : List α) : List (List α) :=
  let all := frames width (samples.length / width) samples
  (List.range width).map fun channel => all.filterMap (·[channel]?)

/-- How many frames the channels make: the shortest decides. -/
def count : (channels : List (List α)) → Nat
  | [] => 0
  | channel :: rest => rest.foldl (fun n xs => min n xs.length) channel.length

end Frames

structure Transport where
  channels : Nat
  ring : Ring
  compressor : Compressor Float32
  /-- Interleaved samples not yet written. -/
  unsent : List Float32

namespace Transport

def frameSize (channels : Nat) : Nat := 4 * channels

/-- Set out with `signals`, one for each channel, and an empty ring. -/
def start (granted : Nat → Bool) (elements : Nat) (reserve : Bool)
    (compressor : Compressor Float32) (signals : List (List Float32)) : Except Fault Transport := do
  let ring ← Ring.create granted elements (frameSize signals.length) reserve
  return {
    channels := signals.length
    ring
    compressor
    unsent := Frames.interleave (Frames.count signals) signals }

def outstanding (t : Transport) : Bool := !t.unsent.isEmpty || t.ring.readSpace != 0

/-- What one round moved, and the samples of each channel that came out of it. -/
structure Round where
  written : Nat
  read : Nat
  output : List (List Float32)

/-- Write up to `writeFrames` frames, read up to `readFrames`, and compress what was
read. -/
def round? (t : Transport) (writeFrames readFrames : Nat) : Option (Transport × Round) := do
  let offered := t.unsent.take (writeFrames * t.channels)
  let (written, ring) := t.ring.write (Bytes.ofSingles offered)
  let room := List.replicate (readFrames * frameSize t.channels) 0
  let (read, received, ring) := ring.read room
  let samples := Bytes.toSingles (received.take (read * frameSize t.channels))
  let (compressor, output) ←
    t.compressor.process? read (Frames.deinterleave t.channels samples)
  let unsent := t.unsent.drop (written * t.channels)
  return ({ t with ring, compressor, unsent }, ⟨written, read, output⟩)

/-- Rounds as scheduled, up to the one that brings the last frame out. -/
def run? (t : Transport) : (schedule : List (Nat × Nat)) → Option (Transport × List Round)
  | [] => some (t, [])
  | (writeFrames, readFrames) :: rest =>
    if t.outstanding then do
      let (t, round) ← t.round? writeFrames readFrames
      let (t, rounds) ← t.run? rest
      return (t, round :: rounds)
    else some (t, [])

def output (channels : Nat) (rounds : List Round) : List (List Float32) :=
  rounds.foldr (fun round rest => List.zipWith (· ++ ·) round.output rest)
    (List.replicate channels [])

end Transport

end RealtimeAudio
