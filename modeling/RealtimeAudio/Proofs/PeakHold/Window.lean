import Mathlib.Data.List.DropRight
import Mathlib.Data.List.Perm.Subperm
import RealtimeAudio.PeakHold

/-! A peak hold as a window of entries. The entries from front to back are a list and their
expiries count from the start of the stream, so that blocks and the circular store do not show.
Nothing is assumed about comparisons. An entry leaves at the front at most once for each new
one, and still there are never more than the length allows: this is `Timely`. -/
namespace RealtimeAudio

/-- A sample that may still become the maximum. -/
structure Held (α : Type) where
  value : α
  /-- The position of the stream at which the entry leaves the window. -/
  expiry : Nat

/-- The entry with its expiry counted from `base`. -/
def Held.since {α : Type} (e : Held α) (base : Nat) : Held α := ⟨e.value, e.expiry - base⟩

/-- The entries of a hold, never none. -/
structure Window (α : Type) where
  front : Held α
  later : List (Held α)

/-- The number of samples a hold covers, given the length asked for. -/
def PeakHold.span (length : Nat) : Nat := max 2 (min (blockLimit - 1) length)

namespace Window
variable {α : Type} [Arithmetic α]

def entries (w : Window α) : List (Held α) := w.front :: w.later

def peak (w : Window α) : α := w.front.value

def initial (length : Nat) : Window α := ⟨⟨Arithmetic.bottom, length⟩, []⟩

def expire (w : Window α) (position : Nat) : Window α :=
  match w.later with
  | next :: rest => if w.front.expiry ≤ position then ⟨next, rest⟩ else w
  | [] => w

/-- A new entry drops those at the back that it reaches. -/
def push (w : Window α) (new : Held α) : Window α :=
  if w.front.value ≤ new.value then ⟨new, []⟩
  else ⟨w.front, w.later.rdropWhile (fun e => e.value ≤ new.value) ++ [new]⟩

def update (length : Nat) (w : Window α) (position : Nat) (x : α) : Window α :=
  (w.expire position).push ⟨x, position + length⟩

/-- The window after samples from a position on, and the maxima at these. -/
def feed (length : Nat) (w : Window α) (position : Nat) : List α → Window α × List α
  | [] => (w, [])
  | x :: xs =>
    let next := w.update length position x
    let (last, peaks) := feed length next (position + 1) xs
    (last, next.peak :: peaks)

theorem feed_append (length : Nat) (w : Window α) (position : Nat) (xs ys : List α) :
    feed length w position (xs ++ ys) =
      let first := feed length w position xs
      let second := feed length first.1 (position + xs.length) ys
      (second.1, first.2 ++ second.2) := by
  induction xs generalizing w position with
  | nil => rfl
  | cons x xs ih =>
    have shift : position + 1 + xs.length = position + (xs.length + 1) := by omega
    simp only [List.cons_append, feed, ih, List.length_cons, shift]

theorem feed_snoc (length : Nat) (w : Window α) (position : Nat) (xs : List α) (x : α) :
    feed length w position (xs ++ [x]) =
      let next := (feed length w position xs).1.update length (position + xs.length) x
      (next, (feed length w position xs).2 ++ [next.peak]) :=
  feed_append length w position xs [x]

theorem length_feed (length : Nat) (w : Window α) (position : Nat) (xs : List α) :
    (feed length w position xs).2.length = xs.length := by
  induction xs generalizing w position with
  | nil => rfl
  | cons x xs ih => simp [feed, ih]

/-- In front of an entry that stays, those dropped at the back are the same. -/
theorem rdropWhile_entries {w : Window α} {x : α} (kept : ¬w.front.value ≤ x) :
    w.entries.rdropWhile (fun e => e.value ≤ x) =
      w.front :: w.later.rdropWhile (fun e => e.value ≤ x) := by
  obtain ⟨front, later⟩ := w
  induction later using List.reverseRecOn with
  | nil => simpa [Window.entries, List.rdropWhile_singleton] using kept
  | append_singleton older last ih =>
    have whole : Window.entries ⟨front, older ++ [last]⟩ =
        Window.entries ⟨front, older⟩ ++ [last] := rfl
    rw [whole]
    by_cases reached : last.value ≤ x
    · rw [List.rdropWhile_concat_pos _ _ _ (by simpa using reached), ih kept,
        List.rdropWhile_concat_pos _ _ _ (by simpa using reached)]
    · rw [List.rdropWhile_concat_neg _ _ _ (by simpa using reached),
        List.rdropWhile_concat_neg _ _ _ (by simpa using reached)]
      rfl

omit [Arithmetic α] in
/-- Expiries that increase within a span are no more than the span is long. -/
theorem length_le_of_expiries {length next : Nat} {es : List (Held α)}
    (increasing : es.Pairwise fun a b => a.expiry < b.expiry)
    (within : ∀ e ∈ es, next ≤ e.expiry ∧ e.expiry < next + length) : es.length ≤ length := by
  have distinct : (es.map Held.expiry).Nodup :=
    (List.pairwise_map.mpr increasing).imp Nat.ne_of_lt
  have among : es.map Held.expiry ⊆ List.range' next length := by
    intro expiry member
    obtain ⟨e, stored, rfl⟩ := List.mem_map.mp member
    exact List.mem_range'_1.mpr (within e stored)
  simpa using (List.Nodup.subperm distinct among).length_le

/-- The times of a window that expects position `next`. The front may be late by one, as the
start value shares its expiry with the first sample. -/
structure Timely (length next : Nat) (w : Window α) : Prop where
  front : next ≤ w.front.expiry + 1 ∧ w.front.expiry ≤ next + length
  ordered : ∀ e ∈ w.later, w.front.expiry ≤ e.expiry
  increasing : w.later.Pairwise fun a b => a.expiry < b.expiry
  live : ∀ e ∈ w.later, next ≤ e.expiry ∧ e.expiry < next + length
  newest : w.later = [] → next + length ≤ w.front.expiry + 1

namespace Timely
variable {length next : Nat} {w : Window α}

theorem initial (length : Nat) : Timely length 0 (initial length : Window α) where
  front := by simp [Window.initial]
  ordered := by simp [Window.initial]
  increasing := List.Pairwise.nil
  live := by simp [Window.initial]
  newest _ := by simp [Window.initial]

section Count
omit [Arithmetic α]

theorem length_later_le (timely : Timely length next w) : w.later.length ≤ length :=
  length_le_of_expiries timely.increasing timely.live

theorem lasts (timely : Timely length next w) (long : 2 ≤ length) (alone : w.later = []) :
    next < w.front.expiry := by
  have newest := timely.newest alone
  omega

/-- Once the front has stepped aside if it has to, the rest outlives the position. -/
theorem expire (timely : Timely length next w) (long : 2 ≤ length) :
    (next ≤ (w.expire next).front.expiry ∧ (w.expire next).front.expiry ≤ next + length) ∧
      (∀ e ∈ (w.expire next).later, (w.expire next).front.expiry ≤ e.expiry ∧
        next < e.expiry ∧ e.expiry < next + length) ∧
      (w.expire next).later.Pairwise fun a b => a.expiry < b.expiry := by
  have lasts := timely.lasts long
  obtain ⟨front, ordered, increasing, live, -⟩ := timely
  obtain ⟨first, later⟩ := w
  cases later with
  | nil =>
    have alone := lasts rfl
    simp only [Window.expire] at *
    exact ⟨by omega, by simp, increasing⟩
  | cons second rest =>
    rw [List.pairwise_cons] at increasing
    simp only [List.forall_mem_cons] at ordered live
    unfold Window.expire
    dsimp only at *
    split
    · refine ⟨by dsimp only; omega, ?_, increasing.2⟩
      intro e stored
      have after := increasing.1 e stored
      have ends := live.2 e stored
      dsimp only
      omega
    · refine ⟨by dsimp only; omega, ?_, List.pairwise_cons.mpr increasing⟩
      intro e stored
      have after : first.expiry ≤ e.expiry := by
        rcases List.mem_cons.mp stored with rfl | stored
        · exact ordered.1
        · exact ordered.2 e stored
      have ends : e.expiry < next + length := by
        rcases List.mem_cons.mp stored with rfl | stored
        · exact live.1.2
        · exact (live.2 e stored).2
      dsimp only
      omega

end Count

theorem update (timely : Timely length next w) (long : 2 ≤ length) (x : α) :
    Timely length (next + 1) (w.update length next x) := by
  obtain ⟨front, later, increasing⟩ := timely.expire long
  unfold Window.update push
  split
  · refine ⟨by dsimp only; omega, by simp, List.Pairwise.nil, by simp, fun _ => ?_⟩
    dsimp only
    omega
  · have kept := List.rdropWhile_prefix (fun e : Held α => decide (e.value ≤ x))
      (w.expire next).later
    have newest : ∀ e ∈ (w.expire next).later.rdropWhile (fun e => decide (e.value ≤ x)) ++
        [⟨x, next + length⟩], (w.expire next).front.expiry ≤ e.expiry ∧
          next < e.expiry ∧ e.expiry ≤ next + length := by
      intro e member
      rcases List.mem_append.mp member with old | new
      · have := later e (kept.subset old)
        omega
      · rw [List.mem_singleton.mp new]
        dsimp only
        omega
    refine ⟨by dsimp only; omega, fun e member => (newest e member).1, ?_, ?_, by simp⟩
    · refine List.pairwise_append.mpr ⟨increasing.sublist kept.sublist, by simp, ?_⟩
      intro e old new member
      rw [List.mem_singleton.mp member]
      exact (later e (kept.subset old)).2.2
    · intro e member
      have := newest e member
      omega

theorem feed (timely : Timely length next w) (long : 2 ≤ length) (xs : List α) :
    Timely length (next + xs.length) (w.feed length next xs).1 := by
  induction xs generalizing next w with
  | nil => exact timely
  | cons x xs ih =>
    have rest := ih (timely.update long x)
    rwa [List.length_cons, Nat.add_comm xs.length, ← Nat.add_assoc]

end Timely

theorem timely_feed {length : Nat} (long : 2 ≤ length) (samples : List α) :
    Timely length samples.length ((initial length).feed length 0 samples).1 := by
  have fresh : Timely length 0 (initial length : Window α) := Timely.initial length
  have timely := fresh.feed long samples
  rwa [Nat.zero_add] at timely

end Window

end RealtimeAudio
