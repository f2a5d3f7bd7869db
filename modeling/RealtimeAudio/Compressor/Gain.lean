import RealtimeAudio.Compressor.Parameters

/-! The gain computer: from detected levels to linear gains, sample by sample. A static
curve gives the attenuation asked for, a release stage feeding an attack stage smooths
it, and the deviation of the attenuation from its estimate steers the automatic knee
and make-up gain. -/
namespace RealtimeAudio

/-- What the gain computer sees for one sample. -/
structure Sight (α : Type) where
  /-- Level of the sample that leaves the look-ahead delay now. -/
  leaving : α
  /-- Level of the sample that enters it. -/
  entering : α
  crest : α

/-- What it carries from sample to sample. -/
structure GainState (α : Type) where
  released : α
  /-- Attenuation after the attack stage, which is applied. -/
  attenuation : α
  deviation : α

namespace Parameters
variable {α : Type} [Arithmetic α] [Elementary α]
open Arithmetic

def kneeWidth (p : Parameters α) (deviation : α) : α :=
  if p.auto.knee then larger (2.5 * (deviation + p.gainEstimate)) 0.0 else p.knee

/-- How far a level counts as above the threshold: not at all below the knee, fully
above it, and along a parabola within it. -/
def overshoot (p : Parameters α) (knee level : α) : α :=
  let half := 0.5 * knee
  let excess := level - p.threshold
  if excess ≤ -half then 0.0
  else if magnitude excess < half then (excess + half) * (excess + half) / (2.0 * knee)
  else excess

/-- The attenuation that the static curve asks for. -/
def demand (p : Parameters α) (deviation level : α) : α :=
  (-p.slope) * p.overshoot (p.kneeWidth deviation) level

def attackTime (p : Parameters α) (crest : α) : α :=
  if p.auto.attack then 2.0 * p.attack / crest else p.attack

/-- Release time in samples, less the attack time that follows it. -/
def releaseTime (p : Parameters α) (crest : α) : α :=
  if p.auto.release then larger (2.0 * p.release / crest - p.attackTime crest) 1.0
  else larger (p.release - p.attack) 1.0

/-- The deviation, raised where the sample that leaves would still exceed the
threshold. -/
def declipped (p : Parameters α) (leaving attenuation deviation : α) : α :=
  if p.auto.postGain && p.auto.declip then
    larger deviation (leaving - attenuation - p.threshold - p.gainEstimate)
  else deviation

def makeUp (p : Parameters α) (deviation : α) : α :=
  if p.auto.postGain then -(deviation + p.gainEstimate) else p.postGain

end Parameters

namespace GainState
variable {α : Type} [Arithmetic α] [Elementary α]
open Arithmetic

def still : GainState α := ⟨0.0, 0.0, 0.0⟩

/-- One sample. The release stage falls no faster than its time constant and rises at
once; the attack stage smooths both ways. -/
def step (p : Parameters α) (s : GainState α) (x : Sight α) : GainState α :=
  let demand := p.demand s.deviation x.entering
  let released :=
    larger demand (mix demand s.released (Time.smoothing (p.releaseTime x.crest)))
  let attenuation := mix released s.attenuation (Time.smoothing (p.attackTime x.crest))
  let deviation := mix (-(attenuation + p.gainEstimate)) s.deviation p.adaptCoefficient
  { released, attenuation, deviation := p.declipped x.leaving attenuation deviation }

def gain (p : Parameters α) (s : GainState α) : α :=
  Elementary.exp (p.makeUp s.deviation - s.attenuation)

/-- The pass over a block, from sample `i` on for the `left` samples left. Each gain takes
the place of the level that leaves, in the same store in which the entering levels are
ahead. Also the greatest attenuation so far. -/
def sweep? (p : Parameters α) (crests : Array α) :
    (left i : Nat) → GainState α → (deepest : α) → (levels : Array α) →
      Option (GainState α × α × Array α)
  | 0, _, s, deepest, levels => some (s, deepest, levels)
  | left + 1, i, s, deepest, levels => do
    let leaving ← levels[i]?
    let entering ← levels[p.lookAhead + i]?
    let crest ← crests[i]?
    let next := s.step p ⟨leaving, entering, crest⟩
    sweep? p crests left (i + 1) next (larger deepest next.attenuation)
      (levels.setIfInBounds i (next.gain p))

end GainState

end RealtimeAudio
