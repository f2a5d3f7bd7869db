import RealtimeAudio.Arithmetic.Single
import RealtimeAudio.Proofs.PeakHold.Store

/-! A peak hold under calls in any order, with positions that repeat, skip or go back. A sample that
does not reach the front is searched for no further than the front, which it was compared with
already, so no order of the entries and nothing about comparisons is needed for the search to
end. Rebasing goes over one or two ranges of the store, which lie inside it. -/
namespace RealtimeAudio

namespace Slot

/-- How many places after `s` the place `t` comes. -/
def distance (s t : Slot) : Nat := (t.val + blockLimit - s.val) % blockLimit

theorem distance_lt (s t : Slot) : s.distance t < blockLimit := Nat.mod_lt _ (by decide)

theorem advance_distance (s t : Slot) : s.advance (s.distance t) = t := by
  apply Fin.ext
  have start := s.isLt
  have stop := t.isLt
  simp only [advance, distance, blockLimit] at *
  omega

end Slot

namespace PeakHold
variable {α : Type}

section Ranges

/-- The numbers from place `start` up to `stop` less `n`, none below zero. The range has to lie
inside. -/
def lowerRange? (start stop n : Nat) (xs : List Nat) : Option (List Nat) :=
  if start ≤ stop ∧ stop ≤ xs.length then
    some (xs.mapIdx fun i x => if start ≤ i ∧ i < stop then x - n else x)
  else none

/-- The expiries rebased range by range: up to the end of the store and on from its start where
the entries wrap. -/
def lowerLive? (h : PeakHold α) (n : Nat) : Option (List Nat) := do
  if h.back < h.front then
    let upper ← lowerRange? h.front blockLimit n h.expiries.toList
    lowerRange? 0 (h.back + 1) n upper
  else lowerRange? h.front (h.back + 1) n h.expiries.toList

theorem live_of_wrapped {h : PeakHold α} (wrapped : h.back < h.front) (s : Slot) :
    h.live s = true ↔ h.front.val ≤ s.val ∨ s.val ≤ h.back.val := by
  rw [live, if_pos wrapped, Bool.or_eq_true, decide_eq_true_eq, decide_eq_true_eq, Fin.le_def,
    Fin.le_def]

theorem live_of_straight {h : PeakHold α} (straight : ¬h.back < h.front) (s : Slot) :
    h.live s = true ↔ h.front.val ≤ s.val ∧ s.val ≤ h.back.val := by
  rw [live, if_neg straight, Bool.and_eq_true, decide_eq_true_eq, decide_eq_true_eq, Fin.le_def,
    Fin.le_def]

/-- The ranges lie inside the store and cover the live places once each. -/
theorem lowerLive?_eq (h : PeakHold α) (n : Nat) :
    h.lowerLive? n = some (h.shift n).expiries.toList := by
  have size : h.expiries.toList.length = blockLimit := h.expiries.length_toList
  have front := h.front.isLt
  have back := h.back.isLt
  have shifted (i : Nat) (inside : i < blockLimit) :
      (h.shift n).expiries[i] =
        if h.live ⟨i, inside⟩ then h.expiries[i] - n else h.expiries[i] :=
    h.expiries_shift n ⟨i, inside⟩
  unfold lowerLive? lowerRange?
  by_cases wrapped : h.back < h.front
  · have upper : h.front.val ≤ blockLimit ∧ blockLimit ≤ h.expiries.toList.length :=
      ⟨front.le, size.ge⟩
    rw [if_pos wrapped, if_pos upper, Option.bind_eq_bind, Option.bind_some,
      if_pos ⟨Nat.zero_le _, by rw [List.length_mapIdx, size]; exact back⟩]
    refine congrArg some (List.ext_getElem (by simp) fun i inside among => ?_)
    have place : i < blockLimit := by simpa using among
    rw [Fin.lt_def] at wrapped
    simp only [shifted i place, live_of_wrapped wrapped, List.getElem_mapIdx,
      Vector.getElem_toList]
    split_ifs <;> omega
  · have whole : h.front.val ≤ h.back.val + 1 ∧ h.back.val + 1 ≤ h.expiries.toList.length := by
      rw [Fin.lt_def] at wrapped
      omega
    rw [if_neg wrapped, if_pos whole]
    refine congrArg some (List.ext_getElem (by simp) fun i inside among => ?_)
    have place : i < blockLimit := by simpa using among
    simp only [shifted i place, live_of_straight wrapped, List.getElem_mapIdx,
      Vector.getElem_toList]
    split_ifs <;> omega

end Ranges

variable [Arithmetic α] {h : PeakHold α}

section Search

/-- The way back from the `k`-th place after one that `x` does not reach ends before it has passed
that one. -/
theorem survivor?_advance {x : α} {s : Slot} (stops : ¬h.values.get s ≤ x) (k : Nat) :
    ∃ m ≤ k, (∀ steps, k - m < steps →
        h.survivor? x steps (s.advance k) = some (s.advance m)) ∧
      ¬h.values.get (s.advance m) ≤ x ∧
      ∀ j, m < j → j ≤ k → h.values.get (s.advance j) ≤ x := by
  induction k with
  | zero =>
    refine ⟨0, Nat.le_refl 0, ?_, by rwa [Slot.advance_zero], by omega⟩
    intro steps some
    obtain ⟨rest, rfl⟩ := Nat.exists_eq_add_one_of_ne_zero (Nat.ne_of_gt some)
    rw [Slot.advance_zero, survivor?, if_neg stops]
  | succ k ih =>
    by_cases reached : h.values.get (s.advance (k + 1)) ≤ x
    · obtain ⟨m, before, found, kept, passed⟩ := ih
      refine ⟨m, by omega, ?_, kept, ?_⟩
      · intro steps enough
        obtain ⟨rest, rfl⟩ := Nat.exists_eq_add_one_of_ne_zero (Nat.ne_zero_of_lt enough)
        rw [survivor?, if_pos reached, Slot.previous_advance]
        exact found rest (by omega)
      · intro j after inside
        by_cases last : j = k + 1
        · rwa [last]
        · exact passed j after (by omega)
    · refine ⟨k + 1, Nat.le_refl _, ?_, reached, by omega⟩
      intro steps some
      obtain ⟨rest, rfl⟩ := Nat.exists_eq_add_one_of_ne_zero (Nat.ne_zero_of_lt some)
      rw [survivor?, if_neg reached]

/-- The search for the place of a sample that does not reach the front: back from the latest entry,
by no more steps than there are places from the front to it, over entries that the sample reaches
to one that it does not. -/
def SearchEnds (h : PeakHold α) (x : α) : Prop :=
  ∃ steps ≤ h.front.distance h.back,
    let found := h.front.advance (h.front.distance h.back - steps)
    (∀ fuel, steps < fuel → h.survivor? x fuel h.back = some found) ∧
      ¬h.values.get found ≤ x ∧
      ∀ j, h.front.distance h.back - steps < j → j ≤ h.front.distance h.back →
        h.values.get (h.front.advance j) ≤ x

theorem searchEnds {x : α} (kept : ¬h.peak ≤ x) : h.SearchEnds x := by
  obtain ⟨m, before, found, stops, passed⟩ := survivor?_advance kept (h.front.distance h.back)
  rw [Slot.advance_distance] at found
  have place : h.front.distance h.back - (h.front.distance h.back - m) = m := by omega
  refine ⟨h.front.distance h.back - m, Nat.sub_le _ _, ?_⟩
  dsimp only
  rw [place]
  exact ⟨found, stops, passed⟩

theorem update?_isSome (h : PeakHold α) (i : Nat) (x : α) : ∃ h', h.update? i x = some h' := by
  unfold update?
  dsimp only
  split
  · exact ⟨_, rfl⟩
  · rename_i kept
    obtain ⟨steps, near, found, -⟩ := searchEnds kept
    rw [found blockLimit (Nat.lt_of_le_of_lt near (Slot.distance_lt _ _))]
    exact ⟨_, rfl⟩

/-- A sample goes to the front if it reaches the maximum, and else behind the nearest entry from the
back that it does not reach. -/
theorem update?_cases {h' : PeakHold α} {i : Nat} {x : α} (done : h.update? i x = some h') :
    let g := h.expire i
    (g.peak ≤ x ∧ h' = g.place (g.front.advance 0) (i + g.length) x) ∨
      ∃ m ≤ g.front.distance g.back, ¬(g.entry (g.front.advance m)).value ≤ x ∧
        (∀ j, m < j → j ≤ g.front.distance g.back → (g.entry (g.front.advance j)).value ≤ x) ∧
        h' = g.place (g.front.advance (m + 1)) (i + g.length) x := by
  intro g
  change (if g.peak ≤ x then some (g.place g.front (i + g.length) x) else
    (g.survivor? x blockLimit g.back).map fun s => g.place (Slot.next s) (i + g.length) x) = _ at done
  by_cases reached : g.peak ≤ x
  · rw [if_pos reached] at done
    rw [Slot.advance_zero]
    exact Or.inl ⟨reached, (Option.some.inj done).symm⟩
  · obtain ⟨m, before, found, stops, passed⟩ := survivor?_advance reached (g.front.distance g.back)
    have near := g.front.distance_lt g.back
    rw [Slot.advance_distance] at found
    rw [if_neg reached, found blockLimit (by omega), Option.map_some, Slot.next_advance] at done
    exact Or.inr ⟨m, before, stops, passed, (Option.some.inj done).symm⟩

end Search

/-- A sample at a position of the block, or the end of a block of some samples. -/
inductive Call (α : Type) where
  | update (position : Nat) (sample : α)
  | shift (count : Nat)

/-- The expiry of the sample is a word. -/
def Call.Fits (length : Nat) : Call α → Prop
  | .update position _ => position + length < UInt64.size
  | .shift _ => True

def call? (h : PeakHold α) : Call α → Option (PeakHold α)
  | .update position sample => h.update? position sample
  | .shift count => some (h.shift count)

def run? (h : PeakHold α) : List (Call α) → Option (PeakHold α)
  | [] => some h
  | call :: rest => do
    let h ← h.call? call
    h.run? rest

/-- What every call keeps. -/
structure Sound (length : Nat) (h : PeakHold α) : Prop where
  size : h.length = length
  front : h.front.val < blockLimit
  back : h.back.val < blockLimit
  words : ∀ s, h.expiries.get s < UInt64.size

namespace Sound
variable {length : Nat}

theorem new (length : Nat) : Sound (span length) (PeakHold.new length : PeakHold α) where
  size := rfl
  front := Fin.isLt _
  back := Fin.isLt _
  words s := by
    have short : span length < UInt64.size := by
      simp only [span, blockLimit, UInt64.size]
      omega
    have inside := s.isLt
    simp only [PeakHold.new, get_eq_getElem _ s inside, Vector.getElem_set,
      Vector.getElem_replicate]
    split
    · exact short
    · decide

section Steps
omit [Arithmetic α]

theorem place (sound : Sound length h) (s : Slot) {expiry : Nat} (word : expiry < UInt64.size)
    (x : α) : Sound length (h.place s expiry x) where
  size := sound.size
  front := Fin.isLt _
  back := Fin.isLt _
  words t := by
    change ((h.place s expiry x).entry t).expiry < _
    by_cases same : s = t
    · subst same
      rwa [entry_place_self]
    · rw [entry_place_ne h same]
      exact sound.words t

theorem expire (sound : Sound length h) (i : Nat) : Sound length (h.expire i) := by
  unfold PeakHold.expire
  split
  · exact ⟨sound.size, Fin.isLt _, sound.back, sound.words⟩
  · exact sound

theorem shift (sound : Sound length h) (n : Nat) : Sound length (h.shift n) := by
  refine ⟨?_, Fin.isLt _, Fin.isLt _, ?_⟩
  · simp only [PeakHold.shift]
    exact sound.size
  · intro s
    have less : (h.shift n).expiries.get s ≤ h.expiries.get s := by
      rw [h.expiries_shift]
      split
      · exact Nat.sub_le _ _
      · exact Nat.le_refl _
    exact Nat.lt_of_le_of_lt less (sound.words s)

end Steps

theorem update (sound : Sound length h) {i : Nat} (word : i + length < UInt64.size) (x : α) :
    ∃ h', h.update? i x = some h' ∧ Sound length h' := by
  have expired := sound.expire i
  rw [← expired.size] at word
  obtain ⟨h', updated⟩ := h.update?_isSome i x
  refine ⟨h', updated, ?_⟩
  rcases update?_cases updated with ⟨-, rfl⟩ | ⟨m, -, -, -, rfl⟩
  · exact expired.place _ word x
  · exact expired.place _ word x

theorem call (sound : Sound length h) {call : Call α} (fits : call.Fits length) :
    ∃ h', h.call? call = some h' ∧ Sound length h' := by
  cases call with
  | update i x => exact sound.update fits x
  | shift n => exact ⟨h.shift n, rfl, sound.shift n⟩

theorem run (sound : Sound length h) {calls : List (Call α)}
    (fits : ∀ call ∈ calls, call.Fits length) :
    ∃ h', h.run? calls = some h' ∧ Sound length h' := by
  induction calls generalizing h with
  | nil => exact ⟨h, rfl, sound⟩
  | cons call rest ih =>
    obtain ⟨next, done, kept⟩ := sound.call (fits call List.mem_cons_self)
    obtain ⟨last, more, ends⟩ := ih kept fun other member =>
      fits other (List.mem_cons_of_mem _ member)
    refine ⟨last, ?_, ends⟩
    rw [run?, done, Option.bind_eq_bind, Option.bind_some, more]

end Sound

/-- Any samples at any positions and any ends of blocks, in any order, lead to a state, and there
any further call has a result: the search of an update ends between the front and the latest
entry, also where the front has just stepped past that one, and the ranges that a shift goes over
lie inside the store. -/
theorem run?_total (length : Nat) (calls : List (Call α))
    (fits : ∀ call ∈ calls, call.Fits (span length)) :
    ∃ h, (PeakHold.new length).run? calls = some h ∧ Sound (span length) h ∧
      (∀ i x, ¬(h.expire i).peak ≤ x → (h.expire i).SearchEnds x) ∧
      (∀ i x, i + span length < UInt64.size →
        ∃ h', h.update? i x = some h' ∧ Sound (span length) h') ∧
      ∀ n, h.lowerLive? n = some (h.shift n).expiries.toList ∧
        Sound (span length) (h.shift n) := by
  obtain ⟨h, done, sound⟩ := (Sound.new length).run fits
  exact ⟨h, done, sound, fun i x => searchEnds, fun i x word => sound.update word x,
    fun n => ⟨h.lowerLive?_eq n, sound.shift n⟩⟩

/-- Positions go back, and one sample is no number. -/
theorem run?_total_unordered :
    let calls : List (Call Float32) := [.update 7 1.0, .shift 3, .update 2 (.ofBits 0x7fc00000),
      .update 0 Arithmetic.bottom, .shift 1000000]
    (∀ call ∈ calls, call.Fits (span 0)) ∧
    ∃ h, (PeakHold.new 0).run? calls = some h ∧ Sound (span 0) h ∧
      (∀ i x, ¬(h.expire i).peak ≤ x → (h.expire i).SearchEnds x) ∧
      (∀ i x, i + span 0 < UInt64.size → ∃ h', h.update? i x = some h' ∧ Sound (span 0) h') ∧
      ∀ n, h.lowerLive? n = some (h.shift n).expiries.toList ∧ Sound (span 0) (h.shift n) := by
  intro calls
  have fits : ∀ call ∈ calls, call.Fits (span 0) := by
    simp [calls, Call.Fits, span, blockLimit, UInt64.size]
  exact ⟨fits, run?_total 0 calls fits⟩

end PeakHold

end RealtimeAudio
