import RealtimeAudio.Compressor
import RealtimeAudio.Proofs.Compressor.Delay
import RealtimeAudio.Proofs.Compressor.Gains
import RealtimeAudio.Proofs.PeakHold.Store

/-! The way of linked levels to gains, apart from blocks. A flow is what carries over from one
sample to the next; feeding it one stretch of levels and then another is feeding it both at
once. -/
namespace RealtimeAudio

@[ext] structure Flow (α : Type) where
  crest : Crest α
  gain : GainState α
  pending : List α
  window : Window α
  position : Nat

namespace Flow
variable {α : Type} [Arithmetic α] [Elementary α]

def start (p : Parameters α) : Flow α where
  crest := .silent
  gain := .still
  pending := List.replicate p.lookAhead (Elementary.ln Level.amplitudeFloor)
  window := .initial (PeakHold.span (p.holdLength.getD 0))
  position := 0

def detect (p : Parameters α) (f : Flow α) (linked : List α) : Window α × List α :=
  match p.holdLength with
  | none => (f.window, linked.map Level.amplitudeToLog)
  | some length =>
    f.window.feed (PeakHold.span length) f.position (linked.map Level.amplitudeToLog)

def detected (p : Parameters α) (f : Flow α) (linked : List α) : List α :=
  (f.detect p linked).2

def factors (p : Parameters α) (f : Flow α) (linked : List α) : List α :=
  if p.auto.usesCrest then (f.crest.trajectory p.crestCoefficient linked).map Crest.factor
  else List.replicate linked.length 0.0

/-- What the gain computer sees. -/
def seen (p : Parameters α) (f : Flow α) (linked : List α) : List (Sight α) :=
  sights (Delay.leaving f.pending (f.detected p linked)) (f.detected p linked)
    (f.factors p linked)

def states (p : Parameters α) (f : Flow α) (linked : List α) : List (GainState α) :=
  trajectory (GainState.step p) f.gain (f.seen p linked)

def gains (p : Parameters α) (f : Flow α) (linked : List α) : List α :=
  (f.states p linked).map (·.gain p)

def advance (p : Parameters α) (f : Flow α) (linked : List α) : Flow α where
  crest :=
    if p.auto.usesCrest then linked.foldl (Crest.step p.crestCoefficient) f.crest else f.crest
  gain := (f.seen p linked).foldl (GainState.step p) f.gain
  pending := Delay.remaining f.pending (f.detected p linked)
  window := (f.detect p linked).1
  position := f.position + linked.length

variable {p : Parameters α} {f : Flow α}

@[simp] theorem length_detected (linked : List α) :
    (f.detected p linked).length = linked.length := by
  unfold detected detect
  cases p.holdLength with
  | none => exact List.length_map _
  | some length => rw [Window.length_feed, List.length_map]

omit [Elementary α] in
@[simp] theorem length_factors (linked : List α) :
    (f.factors p linked).length = linked.length := by
  unfold factors
  split
  · rw [List.length_map, Crest.trajectory_eq, length_trajectory]
  · exact List.length_replicate

@[simp] theorem length_seen (linked : List α) : (f.seen p linked).length = linked.length := by
  simp [seen, sights]

@[simp] theorem length_states (linked : List α) :
    (f.states p linked).length = linked.length := by
  simp [states]

@[simp] theorem length_gains (linked : List α) : (f.gains p linked).length = linked.length := by
  simp [gains]

theorem detect_append (xs ys : List α) :
    f.detect p (xs ++ ys) = (((f.advance p xs).detect p ys).1,
      f.detected p xs ++ (f.advance p xs).detected p ys) := by
  unfold detected advance detect
  cases p.holdLength with
  | none => simp
  | some length => simp [Window.feed_append]

theorem detected_append (xs ys : List α) :
    f.detected p (xs ++ ys) = f.detected p xs ++ (f.advance p xs).detected p ys :=
  congrArg Prod.snd (detect_append xs ys)

theorem factors_append (xs ys : List α) :
    f.factors p (xs ++ ys) = f.factors p xs ++ (f.advance p xs).factors p ys := by
  unfold factors advance
  split
  · simp only [Crest.trajectory_eq, trajectory_append, List.map_append]
  · rw [List.length_append, List.replicate_append_replicate]

theorem seen_append (xs ys : List α) :
    f.seen p (xs ++ ys) = f.seen p xs ++ (f.advance p xs).seen p ys := by
  unfold seen sights
  rw [detected_append, factors_append, Delay.leaving_append, List.zip_append (by simp),
    List.zipWith_append (by simp)]
  rfl

theorem states_append (xs ys : List α) :
    f.states p (xs ++ ys) = f.states p xs ++ (f.advance p xs).states p ys := by
  rw [states, seen_append, trajectory_append]
  rfl

theorem gains_append (xs ys : List α) :
    f.gains p (xs ++ ys) = f.gains p xs ++ (f.advance p xs).gains p ys := by
  rw [gains, states_append, List.map_append]
  rfl

theorem advance_append (xs ys : List α) :
    f.advance p (xs ++ ys) = (f.advance p xs).advance p ys := by
  apply Flow.ext
  · simp only [advance]
    split
    · exact List.foldl_append
    · rfl
  · change (f.seen p (xs ++ ys)).foldl (GainState.step p) f.gain = _
    rw [seen_append, List.foldl_append]
    rfl
  · change Delay.remaining f.pending (f.detected p (xs ++ ys)) = _
    rw [detected_append, Delay.remaining_append]
    rfl
  · change (f.detect p (xs ++ ys)).1 = ((f.advance p xs).detect p ys).1
    rw [detect_append]
  · simp only [advance, List.length_append, Nat.add_assoc]

theorem advance_nil : f.advance p [] = f := by
  have detected : f.detected p [] = [] := List.eq_nil_of_length_eq_zero (by simp)
  apply Flow.ext
  · exact ite_self f.crest
  · have none : f.seen p [] = [] := List.eq_nil_of_length_eq_zero (by simp)
    change (f.seen p []).foldl (GainState.step p) f.gain = f.gain
    rw [none]
    rfl
  · change Delay.remaining f.pending (f.detected p []) = f.pending
    rw [detected]
    exact List.append_nil _
  · change (f.detect p []).1 = f.window
    unfold detect
    split <;> rfl
  · rfl

end Flow

end RealtimeAudio
