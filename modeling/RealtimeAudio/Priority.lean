import RealtimeAudio.Engine

/-! Asking for an elevated thread priority. Strategies are tried in order up to the first
that succeeds; a failure is never the caller's concern. What a strategy does happens in
a state that is left open. -/
namespace RealtimeAudio

structure Strategy (σ : Type) where
  name : String
  elevate : UInt8 → StateM σ (Except Fault Unit)

inductive PriorityOutcome where
  | elevated (strategy : String)
  /-- Level 0 was asked for, and nothing tried. -/
  | skipped
  | unchanged
deriving DecidableEq, Repr

structure PriorityRequest (σ : Type) where
  level : UInt8
  strategies : List (Strategy σ)

/-- The thread scheduler, which knows the levels 0 to 99 and is asked for no other. -/
def Strategy.scheduler {σ : Type} (ask : UInt8 → StateM σ (Except Fault Unit)) : Strategy σ where
  name := "thread-scheduler"
  elevate level :=
    if level ≤ 99 then ask level
    else return .error (.priority (Text.quoted "The value is not in the range of [0; 99]"))

namespace PriorityRequest
variable {σ : Type}

def empty (level : UInt8) : PriorityRequest σ := ⟨level, []⟩

def withStrategy (r : PriorityRequest σ) (s : Strategy σ) : PriorityRequest σ :=
  { r with strategies := r.strategies ++ [s] }

def new (ask : UInt8 → StateM σ (Except Fault Unit)) (level : UInt8) : PriorityRequest σ :=
  (empty level).withStrategy (.scheduler ask)

def ofEngine (ask : UInt8 → StateM σ (Except Fault Unit)) (s : EngineSettings) :
    PriorityRequest σ :=
  new ask s.priorityLevel

def names (r : PriorityRequest σ) : List String := r.strategies.map (·.name)

/-- Try strategies in order at one level. -/
def tryEach (level : UInt8) : List (Strategy σ) → StateM σ PriorityOutcome
  | [] => return .unchanged
  | s :: rest => do
    match ← s.elevate level with
    | .ok () => return .elevated s.name
    | .error _ => tryEach level rest

/-- Make the request, at no more than the highest level allowed. -/
def request (r : PriorityRequest σ) : StateM σ PriorityOutcome :=
  if r.level = 0 then return .skipped
  else tryEach (min r.level priorityLimit) r.strategies

end PriorityRequest

end RealtimeAudio
