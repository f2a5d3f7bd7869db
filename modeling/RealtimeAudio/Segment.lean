/-! Runs of consecutive places inside a sequence of fixed length. Reading or
overwriting a run that reaches past the end has no result, so a computation that
answers has stayed inside everything it touched. -/
namespace RealtimeAudio.Segment
variable {α : Type}

/-- The `count` entries from `start` on. -/
def read? (start count : Nat) (xs : List α) : Option (List α) :=
  if start + count ≤ xs.length then some ((xs.drop start).take count) else none

/-- `xs` with the entries from `start` on replaced by `ys`; the length stays. -/
def write? (start : Nat) (ys xs : List α) : Option (List α) :=
  if start + ys.length ≤ xs.length then
    some (xs.take start ++ ys ++ xs.drop (start + ys.length))
  else none

end RealtimeAudio.Segment
