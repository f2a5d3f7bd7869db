import RealtimeAudio.Arithmetic

/-! The crest detector: how far the peaks of a signal stand above its mean power. Both
are tracked as squares with one coefficient, and the peak never falls below the current
sample. -/
namespace RealtimeAudio

structure Crest (α : Type) where
  peakSquare : α
  meanSquare : α

namespace Crest
variable {α : Type} [Arithmetic α]
open Arithmetic

def silent : Crest α := ⟨0.0, 0.0⟩

/-- The square of a level, kept away from zero and from overflow. -/
def power (level : α) : α := clamp 0.000001 1000000.0 (level * level)

def step (coefficient : α) (c : Crest α) (level : α) : Crest α :=
  let x := power level
  { peakSquare := larger x (mix x c.peakSquare coefficient)
    meanSquare := mix x c.meanSquare coefficient }

/-- The squared crest factor. -/
def factor (c : Crest α) : α := c.peakSquare / c.meanSquare

def trajectory (coefficient : α) (c : Crest α) : List α → List (Crest α)
  | [] => []
  | level :: rest =>
    let next := c.step coefficient level
    next :: trajectory coefficient next rest

end Crest

end RealtimeAudio
