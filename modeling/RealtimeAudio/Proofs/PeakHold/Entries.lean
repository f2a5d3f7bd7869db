import RealtimeAudio.Proofs.Arithmetic.Order
import RealtimeAudio.Proofs.PeakHold.Window

/-! The entries of a window as samples of a stream. Whatever comparisons do, entries stay in the order
of their samples. From a position on at which only numbers follow, the entries descend, and what
such a sample drops is below it, except that an older front may be reached, and everything dropped,
while there is one. -/
namespace RealtimeAudio
open Arithmetic (Compared Greatest)

namespace Window
variable {α : Type} [Arithmetic α]

/-- Entries that are samples in the order of the stream. At the time `next` the front is over since
`late` positions at most. -/
structure Follows (length late : Nat) (samples : List α) (next : Nat) (w : Window α) : Prop where
  sampled : ∀ e ∈ w.entries, ∃ s, e.expiry = s + length ∧ samples[s]? = some e.value
  expiries : w.entries.Pairwise fun a b => a.expiry < b.expiry
  current : next ≤ w.front.expiry + late

/-- Entries that descend from the sample at `start` on, and dominate the samples from `sure` on. -/
structure Settled (length late start sure : Nat) (samples : List α) (next : Nat) (w : Window α) :
    Prop extends Follows length late samples next w where
  values : w.entries.Pairwise fun a b => start + length ≤ a.expiry → ¬a.value ≤ b.value
  dominated : ∀ s x, sure ≤ s → samples[s]? = some x → next ≤ s + length →
    ∃ e ∈ w.entries, s + length ≤ e.expiry ∧ x ≤ e.value

section Samples
omit [Arithmetic α]

theorem getElem?_snoc_iff {earlier : List α} {x y : α} {s : Nat} :
    (earlier ++ [x])[s]? = some y ↔ earlier[s]? = some y ∨ s = earlier.length ∧ x = y := by
  rw [List.getElem?_append, List.getElem?_singleton]
  grind

theorem mem_drop_of_getElem? {samples : List α} {s k : Nat} {y : α} (found : samples[s]? = some y)
    (after : k ≤ s) : y ∈ samples.drop k := by
  refine List.mem_of_getElem? (i := s - k) ?_
  rw [List.getElem?_drop, Nat.add_sub_cancel' after]
  exact found

end Samples

section Expire
omit [Arithmetic α]

theorem expire_suffix (w : Window α) (position : Nat) :
    (w.expire position).entries <:+ w.entries := by
  obtain ⟨front, later⟩ := w
  cases later with
  | nil => exact List.suffix_refl _
  | cons second rest =>
    unfold Window.expire
    dsimp only
    split
    · exact List.suffix_cons _ _
    · exact List.suffix_refl _

theorem mem_expire {w : Window α} {position : Nat} {e : Held α} (member : e ∈ w.entries)
    (outlives : position < e.expiry) : e ∈ (w.expire position).entries := by
  obtain ⟨front, later⟩ := w
  cases later with
  | nil => exact member
  | cons second rest =>
    unfold Window.expire
    dsimp only
    split
    · rename_i due
      rcases List.mem_cons.mp member with rfl | later
      · exact absurd due (Nat.not_le.mpr outlives)
      · exact later
    · exact member

/-- The front, once its time is over, makes way for the next entry, which outlives it. -/
theorem expire_current {w : Window α} {next late : Nat}
    (expiries : w.entries.Pairwise fun a b => a.expiry < b.expiry)
    (current : next ≤ w.front.expiry + late) (lasts : w.later = [] → next < w.front.expiry) :
    next + 1 ≤ (w.expire next).front.expiry + late := by
  obtain ⟨front, later⟩ := w
  cases later with
  | nil =>
    have alone := lasts rfl
    exact Nat.le_add_right_of_le alone
  | cons second rest =>
    have outlives : front.expiry < second.expiry :=
      (List.pairwise_cons.mp expiries).1 second List.mem_cons_self
    unfold Window.expire
    dsimp only at current ⊢
    split
    · dsimp only
      omega
    · dsimp only
      omega

end Expire

section Push

/-- A new entry stands behind a first part of the others, the last of which it does not reach.
Unless it reaches the front, it drops nothing that it does not reach. -/
theorem exists_push (w : Window α) (new : Held α) :
    ∃ kept, kept <+: w.entries ∧ (w.push new).entries = kept ++ [new] ∧
      (∀ some : kept ≠ [], ¬(kept.getLast some).value ≤ new.value) ∧
      (w.front.value ≤ new.value ∨ ∀ e ∈ w.entries, e ∈ kept ∨ e.value ≤ new.value) := by
  unfold Window.push
  by_cases reached : w.front.value ≤ new.value
  · rw [if_pos reached]
    exact ⟨[], List.nil_prefix, rfl, fun none => absurd rfl none, Or.inl reached⟩
  · rw [if_neg reached]
    refine ⟨w.entries.rdropWhile (fun e => e.value ≤ new.value), List.rdropWhile_prefix _ _, ?_, ?_,
      Or.inr ?_⟩
    · rw [rdropWhile_entries reached]
      rfl
    · intro some
      simpa using List.rdropWhile_last_not (fun e : Held α => decide (e.value ≤ new.value)) _ some
    · intro e member
      rw [← List.rdropWhile_append_rtakeWhile (p := fun e : Held α => decide (e.value ≤ new.value))
        (l := w.entries), List.mem_append] at member
      exact member.imp_right fun dropped => by simpa using List.mem_rtakeWhile_imp dropped

theorem getLast?_push (w : Window α) (new : Held α) : (w.push new).entries.getLast? = some new := by
  obtain ⟨kept, -, entries, -, -⟩ := w.exists_push new
  rw [entries, List.getLast?_concat]

theorem push_front (w : Window α) (new : Held α) :
    (w.push new).front = w.front ∨ (w.push new).front = new := by
  unfold Window.push
  split
  · exact Or.inr rfl
  · exact Or.inl rfl

end Push

namespace Follows
variable {length late next : Nat} {samples : List α} {w : Window α}

section Apart
omit [Arithmetic α]

theorem bounds (follows : Follows length late samples next w) {e : Held α}
    (member : e ∈ w.entries) : length ≤ e.expiry ∧ e.expiry < samples.length + length := by
  obtain ⟨s, expiry, found⟩ := follows.sampled e member
  have inside := (List.getElem?_eq_some_iff.mp found).1
  omega

/-- No entry is older than the first sample. -/
theorem since_start (follows : Follows length late samples next w) {e : Held α}
    (member : e ∈ w.entries) : 0 + length ≤ e.expiry := by
  rw [Nat.zero_add]
  exact (follows.bounds member).1

theorem alone {x : α} (long : 1 ≤ length) :
    Follows length late (samples ++ [x]) (samples.length + 1)
      ⟨⟨x, samples.length + length⟩, []⟩ where
  sampled := by
    intro e member
    rw [List.mem_singleton.mp member]
    exact ⟨samples.length, rfl, by simp⟩
  expiries := List.pairwise_singleton _ _
  current := by
    dsimp only
    omega

theorem expire (follows : Follows length late samples next w)
    (lasts : w.later = [] → next < w.front.expiry) :
    Follows length late samples (next + 1) (w.expire next) where
  sampled e member := follows.sampled e ((w.expire_suffix next).subset member)
  expiries := follows.expiries.sublist (w.expire_suffix next).sublist
  current := expire_current follows.expiries follows.current lasts

/-- The front is one of the last samples. -/
theorem peak_mem (follows : Follows length late samples samples.length w) :
    w.peak ∈ samples.drop (samples.length - (length + late)) := by
  obtain ⟨s, expiry, found⟩ := follows.sampled w.front List.mem_cons_self
  have current := follows.current
  exact mem_drop_of_getElem? found (by omega)

end Apart

theorem push (follows : Follows length late samples (samples.length + 1) w) (x : α)
    (long : 1 ≤ length) :
    Follows length late (samples ++ [x]) (samples.length + 1)
      (w.push ⟨x, samples.length + length⟩) := by
  obtain ⟨kept, first, entries, -, -⟩ := w.exists_push ⟨x, samples.length + length⟩
  constructor
  case sampled =>
    intro e member
    rw [entries, List.mem_append, List.mem_singleton] at member
    rcases member with old | rfl
    · obtain ⟨s, expiry, found⟩ := follows.sampled e (first.subset old)
      exact ⟨s, expiry, getElem?_snoc_iff.mpr (Or.inl found)⟩
    · exact ⟨samples.length, rfl, by simp⟩
  case expiries =>
    rw [entries, List.pairwise_append]
    refine ⟨follows.expiries.sublist first.sublist, by simp, ?_⟩
    intro e old new member
    rw [List.mem_singleton.mp member]
    exact (follows.bounds (first.subset old)).2
  case current =>
    have before := follows.current
    rcases w.push_front ⟨x, samples.length + length⟩ with same | new
    · rw [same]
      exact before
    · rw [new]
      dsimp only
      omega

/-- Before any sample from `start` on there is none to descend or to be dominated. -/
theorem settled {start sure : Nat} (follows : Follows length late samples next w)
    (none : samples.length ≤ start) (later : start ≤ sure) :
    Settled length late start sure samples next w where
  toFollows := follows
  values := by
    refine follows.expiries.imp_of_mem fun member _ _ recent => ?_
    have bounds := follows.bounds member
    omega
  dominated := by
    intro s x after found
    have inside := (List.getElem?_eq_some_iff.mp found).1
    omega

end Follows

namespace Settled
variable {Number : α → Prop} {length late start sure next : Nat} {samples : List α} {w : Window α}

theorem alone (order : Compared α Number) {x : α} (number : Number x) (long : 1 ≤ length)
    (first : samples.length ≤ sure) :
    Settled length late start sure (samples ++ [x]) (samples.length + 1)
      ⟨⟨x, samples.length + length⟩, []⟩ where
  toFollows := .alone long
  values := List.pairwise_singleton _ _
  dominated := by
    intro s y after found recent
    rcases getElem?_snoc_iff.mp found with old | ⟨rfl, rfl⟩
    · have inside := (List.getElem?_eq_some_iff.mp old).1
      omega
    · exact ⟨_, List.mem_singleton_self _, Nat.le_refl _, order.refl number⟩

theorem number (numbers : ∀ s x, start ≤ s → samples[s]? = some x → Number x)
    (settled : Settled length late start sure samples next w) {e : Held α} (member : e ∈ w.entries)
    (recent : start + length ≤ e.expiry) : Number e.value := by
  obtain ⟨s, expiry, found⟩ := settled.sampled e member
  exact numbers s e.value (by omega) found

theorem expire (settled : Settled length late start sure samples next w)
    (lasts : w.later = [] → next < w.front.expiry) :
    Settled length late start sure samples (next + 1) (w.expire next) where
  toFollows := settled.toFollows.expire lasts
  values := settled.values.sublist (w.expire_suffix next).sublist
  dominated := by
    intro s x after found recent
    obtain ⟨e, member, outlives, above⟩ := settled.dominated s x after found (by omega)
    exact ⟨e, mem_expire member (by omega), outlives, above⟩

/-- A front from `start` on is no less than any entry. -/
theorem front_greatest (order : Compared α Number)
    (numbers : ∀ s x, start ≤ s → samples[s]? = some x → Number x)
    (settled : Settled length late start sure samples next w)
    (recent : start + length ≤ w.front.expiry) : ∀ e ∈ w.entries, e.value ≤ w.front.value := by
  have front := settled.number numbers List.mem_cons_self recent
  intro e member
  rcases List.mem_cons.mp member with rfl | later
  · exact order.refl front
  · have outlives := (List.pairwise_cons.mp settled.expiries).1 e later
    have below := (List.pairwise_cons.mp settled.values).1 e later recent
    exact order.le_of_not_le front (settled.number numbers member (by omega)) below

/-- As values descend, a sample that does not reach the last of some entries reaches none of those
from `start` on. -/
theorem not_reached (order : Compared α Number)
    (numbers : ∀ s x, start ≤ s → samples[s]? = some x → Number x)
    (settled : Settled length late start sure samples next w) {kept : List (Held α)}
    (first : kept <+: w.entries) {x : α} (last : ∀ some : kept ≠ [], ¬(kept.getLast some).value ≤ x)
    {e : Held α} (member : e ∈ kept) (recent : start + length ≤ e.expiry) : ¬e.value ≤ x := by
  have some := List.ne_nil_of_mem member
  have parts := List.dropLast_append_getLast some
  have increasing := settled.expiries.sublist first.sublist
  have descending := settled.values.sublist first.sublist
  intro reached
  rw [← parts] at increasing descending
  have place := member
  rw [← parts, List.mem_append, List.mem_singleton] at place
  rcases place with before | final
  · have outlives := (List.pairwise_append.mp increasing).2.2 e before _ (List.mem_singleton_self _)
    have above := (List.pairwise_append.mp descending).2.2 e before _ (List.mem_singleton_self _)
      recent
    have lower := order.le_of_not_le (settled.number numbers (first.subset member) recent)
      (settled.number numbers (first.subset (List.getLast_mem some)) (by omega)) above
    exact last some (order.trans lower reached)
  · rw [final] at reached
    exact last some reached

/-- A new sample drops what it reaches and outlives it. Where it reaches a front older than `start`
there must be no samples from `sure` on yet. -/
theorem push (order : Compared α Number)
    (numbers : ∀ s x, start ≤ s → samples[s]? = some x → Number x) {x : α} (number : Number x)
    (long : 1 ≤ length) (settled : Settled length late start sure samples (samples.length + 1) w)
    (safe : w.front.value ≤ x → start + length ≤ w.front.expiry ∨ samples.length ≤ sure) :
    Settled length late start sure (samples ++ [x]) (samples.length + 1)
      (w.push ⟨x, samples.length + length⟩) := by
  obtain ⟨kept, first, entries, last, dropped⟩ := w.exists_push ⟨x, samples.length + length⟩
  refine ⟨settled.toFollows.push x long, ?_, ?_⟩
  · rw [entries, List.pairwise_append]
    refine ⟨settled.values.sublist first.sublist, by simp, ?_⟩
    intro e old new member recent
    rw [List.mem_singleton.mp member]
    exact settled.not_reached order numbers first last old recent
  · intro s y after found recent
    rw [entries]
    have newest : (⟨x, samples.length + length⟩ : Held α) ∈
        kept ++ [⟨x, samples.length + length⟩] := by simp
    rcases getElem?_snoc_iff.mp found with old | ⟨rfl, rfl⟩
    · have inside := (List.getElem?_eq_some_iff.mp old).1
      obtain ⟨e, member, outlives, above⟩ := settled.dominated s y after old recent
      have reached : e ∈ kept ∨ e.value ≤ x := by
        rcases dropped with whole | part
        · have front := (safe whole).resolve_right (by omega)
          exact Or.inr (order.trans (settled.front_greatest order numbers front e member) whole)
        · exact part e member
      rcases reached with stays | reached
      · exact ⟨e, List.mem_append_left _ stays, outlives, above⟩
      · exact ⟨_, newest, by dsimp only; omega, order.trans above reached⟩
    · exact ⟨_, newest, Nat.le_refl _, order.refl number⟩

/-- Once the front is from `start` on and the last samples are from `sure` on, none of these is above
the front. -/
theorem above (order : Compared α Number)
    (numbers : ∀ s x, start ≤ s → samples[s]? = some x → Number x)
    (settled : Settled length late start sure samples samples.length w)
    (front : start + length ≤ w.front.expiry) (covered : sure ≤ samples.length - length) :
    ∀ y ∈ samples.drop (samples.length - length), y ≤ w.peak := by
  intro y member
  obtain ⟨i, found⟩ := List.getElem?_of_mem member
  rw [List.getElem?_drop] at found
  obtain ⟨e, stored, -, below⟩ := settled.dominated _ y (by omega) found (by omega)
  exact order.trans below (settled.front_greatest order numbers front e stored)

end Settled

end Window

end RealtimeAudio
