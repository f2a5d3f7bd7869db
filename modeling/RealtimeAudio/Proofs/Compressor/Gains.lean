import RealtimeAudio.Compressor.Crest
import RealtimeAudio.Compressor.Gain

/-! The gain computer as a trajectory of states. The pass over a block overwrites the levels it
has seen with gains, and reads only levels it has not overwritten: its result is that of the
trajectory over the levels as they were. -/
namespace RealtimeAudio

section Trajectory
variable {σ β : Type} (step : σ → β → σ)

/-- The states after each of the inputs. -/
def trajectory (s : σ) : List β → List σ
  | [] => []
  | x :: rest => step s x :: trajectory (step s x) rest

@[simp] theorem length_trajectory (s : σ) (xs : List β) :
    (trajectory step s xs).length = xs.length := by
  induction xs generalizing s with
  | nil => rfl
  | cons x xs ih => simp [trajectory, ih]

theorem trajectory_append (s : σ) (xs ys : List β) :
    trajectory step s (xs ++ ys) =
      trajectory step s xs ++ trajectory step (xs.foldl step s) ys := by
  induction xs generalizing s with
  | nil => rfl
  | cons x xs ih => rw [List.cons_append, trajectory, trajectory, ih]; rfl

theorem getElem?_trajectory (s : σ) (xs : List β) {t : Nat} (inside : t < xs.length) :
    (trajectory step s xs)[t]? = some ((xs.take (t + 1)).foldl step s) := by
  induction xs generalizing s t with
  | nil => exact absurd inside (Nat.not_lt_zero t)
  | cons x rest ih =>
    cases t with
    | zero => rfl
    | succ t => exact ih (step s x) (Nat.lt_of_succ_lt_succ inside)

/-- What each step keeps holds of all the states. -/
theorem forall_mem_trajectory {P : σ → Prop} (each : ∀ x {s}, P s → P (step s x)) {s : σ}
    (first : P s) (xs : List β) : ∀ reached ∈ trajectory step s xs, P reached := by
  induction xs generalizing s with
  | nil =>
    intro reached member
    cases member
  | cons x xs ih =>
    intro reached member
    rcases List.mem_cons.mp member with rfl | later
    · exact each x first
    · exact ih (each x first) reached later

theorem getLast?_trajectory (s : σ) (xs : List β) :
    (trajectory step s xs).getLast?.getD s = xs.foldl step s := by
  induction xs generalizing s with
  | nil => rfl
  | cons x rest ih =>
    rw [trajectory, List.getLast?_cons, Option.getD_some, ih]
    rfl

end Trajectory

theorem Crest.trajectory_eq {α : Type} [Arithmetic α] (coefficient : α) (c : Crest α)
    (levels : List α) :
    c.trajectory coefficient levels =
      RealtimeAudio.trajectory (Crest.step coefficient) c levels := by
  induction levels generalizing c with
  | nil => rfl
  | cons level rest ih => rw [Crest.trajectory, RealtimeAudio.trajectory, ih]

/-- What the gain computer sees for successive samples. -/
def sights {α : Type} (leaving entering crests : List α) : List (Sight α) :=
  List.zipWith (fun (l, e) c => ⟨l, e, c⟩) (leaving.zip entering) crests

namespace GainState
variable {α : Type} [Arithmetic α] [Elementary α]
open Arithmetic

/-- The greatest attenuation among the states, and at least `most`. -/
def deepest (most : α) (states : List (GainState α)) : α :=
  states.foldl (fun most s => larger most s.attenuation) most

variable {p : Parameters α}

/-- The pass over samples `i` to `i + left` of a block: each level read is still the one that
was there before the pass. -/
theorem sweep?_eq (crests levels : List α) (left i : Nat) (s : GainState α) (most : α)
    (inside : p.lookAhead + (i + left) ≤ levels.length) (known : i + left ≤ crests.length) :
    let seen := sights ((levels.drop i).take left) ((levels.drop (p.lookAhead + i)).take left)
      ((crests.drop i).take left)
    sweep? p crests.toArray left i s most levels.toArray =
      some (seen.foldl (step p) s, deepest most (trajectory (step p) s seen),
        (levels.take i ++ (trajectory (step p) s seen).map (gain p) ++
          levels.drop (i + left)).toArray) := by
  -- The samples still ahead are seen in the store as it now is, in which the gain just written
  -- lies before everything that they read.
  induction left generalizing i s most levels with
  | zero =>
    intro seen
    have none : seen = [] := by simp [seen, sights]
    rw [none, sweep?]
    simp [trajectory, deepest]
  | succ left ih =>
    intro seen
    have leaving := List.drop_eq_getElem_cons (i := i) (l := levels) (by omega)
    have entering := List.drop_eq_getElem_cons (i := p.lookAhead + i) (l := levels) (by omega)
    have crest := List.drop_eq_getElem_cons (i := i) (l := crests) (by omega)
    let first : Sight α := ⟨levels[i], levels[p.lookAhead + i], crests[i]⟩
    let gained := levels.set i ((s.step p first).gain p)
    have untouched (k : Nat) (later : i < k) : gained.drop k = levels.drop k :=
      List.drop_set_of_lt later
    have size : gained.length = levels.length := List.length_set
    have front : gained.take (i + 1) = levels.take i ++ [(s.step p first).gain p] := by
      simp only [gained]
      rw [List.take_add_one, List.take_set_of_le (Nat.le_refl i), List.getElem?_set_self (by omega)]
      rfl
    have rest := ih gained (i + 1) (s.step p first) (larger most (s.step p first).attenuation)
      (by omega) (by omega)
    rw [untouched (i + 1) (by omega), untouched (p.lookAhead + (i + 1)) (by omega),
      untouched (i + 1 + left) (by omega), front] at rest
    have start : seen = first :: sights ((levels.drop (i + 1)).take left)
        ((levels.drop (p.lookAhead + (i + 1))).take left) ((crests.drop (i + 1)).take left) := by
      simp only [seen, sights]
      rw [leaving, entering, crest]
      rfl
    have now : i < levels.length := by omega
    have ahead : p.lookAhead + i < levels.length := by omega
    have beside : i < crests.length := by omega
    rw [start, List.foldl_cons, trajectory, sweep?]
    simp only [List.getElem?_toArray, List.getElem?_eq_getElem now,
      List.getElem?_eq_getElem ahead, List.getElem?_eq_getElem beside, Option.bind_eq_bind,
      Option.bind_some, List.setIfInBounds_toArray]
    refine rest.trans ?_
    simp only [deepest, List.foldl_cons, List.map_cons, List.append_assoc, List.cons_append,
      List.nil_append, Nat.add_assoc, Nat.add_comm 1 left]

end GainState

end RealtimeAudio
