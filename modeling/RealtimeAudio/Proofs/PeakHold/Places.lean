import Mathlib.Data.Fin.Basic
import Mathlib.Data.List.Nodup
import RealtimeAudio.Proofs.PeakHold.Calls

/-! The live places of a peak hold, from front to back, and what the end of a block does to them. It
goes over the store in at most two ranges, and these meet every live place once, wherever they
wrap. -/
namespace RealtimeAudio

namespace Slot
variable {s t : Slot} {k : Nat}

theorem distance_advance (room : k < blockLimit) : s.distance (s.advance k) = k := by
  have start := s.isLt
  simp only [advance, distance, blockLimit] at *
  omega

theorem distance_of_lt (wrapped : t < s) :
    s.distance t + 1 = blockLimit - s.val + (t.val + 1) := by
  have start := s.isLt
  simp only [distance, Fin.lt_def, blockLimit] at *
  omega

theorem distance_of_le (straight : s ≤ t) : s.distance t + 1 = t.val + 1 - s.val := by
  have stop := t.isLt
  simp only [distance, Fin.le_def, blockLimit] at *
  omega

theorem val_advance_of_lt (inside : s.val + k < blockLimit) : (s.advance k).val = s.val + k :=
  Nat.mod_eq_of_lt inside

theorem val_advance_wrapped (inside : k < blockLimit) :
    (s.advance (blockLimit - s.val + k)).val = k := by
  have start := s.isLt
  simp only [advance, blockLimit] at *
  omega

end Slot

namespace PeakHold
variable {α : Type}

section Layout
variable (h : PeakHold α)

/-- The live places from front to back. -/
def places : List Slot := (List.range (h.front.distance h.back + 1)).map h.front.advance

/-- The live entries from front to back, their expiries counted from the start of the block. -/
def entries : List (Held α) := h.places.map h.entry

/-- The places that the end of a block goes over, in the order of the store: up to its end and on
from its start where the live ones wrap. -/
def visited : List Nat :=
  if h.back < h.front then
    List.range' h.front (blockLimit - h.front) ++ List.range' 0 (h.back + 1)
  else List.range' h.front (h.back + 1 - h.front)

theorem length_places : h.places.length = h.front.distance h.back + 1 := by
  simp [places]

theorem places_eq_cons : h.places =
    h.front :: (List.range (h.front.distance h.back)).map (Slot.next h.front).advance := by
  simp [places, List.range_succ_eq_map, Function.comp_def, Slot.advance_next]

theorem places_eq_concat : h.places =
    (List.range (h.front.distance h.back)).map h.front.advance ++ [h.back] := by
  simp [places, List.range_succ, Slot.advance_distance]

theorem nodup_places : h.places.Nodup := by
  refine List.Nodup.map_on ?_ List.nodup_range
  intro j first k second same
  have room := h.front.distance_lt h.back
  simp only [List.mem_range] at first second
  calc j = h.front.distance (h.front.advance j) := (Slot.distance_advance (by omega)).symm
    _ = h.front.distance (h.front.advance k) := by rw [same]
    _ = k := Slot.distance_advance (by omega)

/-- The live places in the order of the store are those from front to back: first up to the end of the
store, then from its start. -/
theorem visited_eq : h.visited = h.places.map Fin.val := by
  have front := h.front.isLt
  have back := h.back.isLt
  by_cases wrapped : h.back < h.front
  · rw [visited, if_pos wrapped, places, Slot.distance_of_lt wrapped, List.range_add]
    simp only [List.map_append, List.map_map, List.range'_eq_map_range]
    congr 1
    · apply List.map_congr_left
      intro k member
      rw [List.mem_range] at member
      exact (Slot.val_advance_of_lt (by omega)).symm
    · apply List.map_congr_left
      intro k member
      rw [List.mem_range] at member
      simp [Slot.val_advance_wrapped (Nat.lt_of_lt_of_le member back)]
  · have straight := Fin.not_lt.mp wrapped
    simp only [visited, if_neg wrapped, places, Slot.distance_of_le straight, List.map_map,
      List.range'_eq_map_range]
    apply List.map_congr_left
    intro k member
    rw [List.mem_range] at member
    exact (Slot.val_advance_of_lt (by omega)).symm

theorem nodup_visited : h.visited.Nodup := by
  rw [visited_eq]
  exact h.nodup_places.map Fin.val_injective

theorem mem_visited {i : Nat} (inside : i < blockLimit) :
    i ∈ h.visited ↔ h.live ⟨i, inside⟩ = true := by
  have front := h.front.isLt
  by_cases wrapped : h.back < h.front
  · rw [live_of_wrapped wrapped]
    simp only [visited, if_pos wrapped, List.mem_append, List.mem_range'_1]
    omega
  · rw [live_of_straight wrapped]
    simp only [visited, if_neg wrapped, List.mem_range'_1]
    omega

theorem mem_places {s : Slot} : s ∈ h.places ↔ h.live s = true := by
  rw [← h.mem_visited s.isLt, visited_eq, List.mem_map_of_injective Fin.val_injective]

end Layout

section Entries

theorem pairwise_entries {h : PeakHold α} {R : Held α → Held α → Prop}
    (pairs : h.entries.Pairwise R) {j k : Nat} (before : j < k)
    (inside : k ≤ h.front.distance h.back) :
    R (h.entry (h.front.advance j)) (h.entry (h.front.advance k)) := by
  have ordered := List.pairwise_iff_getElem.mp pairs j k
  simp only [entries, places, List.length_map, List.length_range, List.getElem_map,
    List.getElem_range] at ordered
  exact ordered (by omega) (by omega) before

theorem getLast?_entries (h : PeakHold α) : h.entries.getLast? = some (h.entry h.back) := by
  simp [entries, places_eq_concat]

/-- An entry placed `m` places after the front leaves those before it. -/
theorem places_place (g : PeakHold α) {m : Nat} (room : m < blockLimit) (expiry : Nat) (x : α) :
    (g.place (g.front.advance m) expiry x).places =
      (List.range m).map g.front.advance ++ [g.front.advance m] := by
  have span : g.front.distance (g.front.advance m) = m := Slot.distance_advance room
  simp [places, place, span, List.range_succ]

/-- Where the first `m` entries and no others pass, those are the entries that are left. -/
theorem filter_places (g : PeakHold α) (passes : Slot → Bool) {m : Nat}
    (within : m ≤ g.front.distance g.back + 1)
    (first : ∀ j ≤ g.front.distance g.back, passes (g.front.advance j) = true ↔ j < m) :
    g.places.filter passes = (List.range m).map g.front.advance := by
  obtain ⟨rest, total⟩ := Nat.exists_eq_add_of_le within
  rw [places, total, List.range_add, List.map_append, List.filter_append, List.filter_eq_self.mpr,
    List.filter_eq_nil_iff.mpr, List.append_nil]
  · simp only [List.mem_map, List.mem_range]
    rintro _ ⟨_, ⟨j, inside, rfl⟩, rfl⟩
    rw [first (m + j) (by omega)]
    omega
  · simp only [List.mem_map, List.mem_range]
    rintro _ ⟨j, inside, rfl⟩
    exact (first j (by omega)).mpr inside

theorem Shows.entries_eq {h : PeakHold α} {base : Nat} {w : Window α} (shows : h.Shows base w) :
    h.entries = w.entries.map (·.since base) := by
  have span : h.front.distance h.back = w.later.length := by
    rw [shows.back]
    exact Slot.distance_advance shows.room
  apply List.ext_getElem
  · simp [entries, places, span, Window.entries]
  · intro k _ inside
    rw [List.length_map] at inside
    simp [entries, places, shows.stored k inside]

end Entries

section Rebase

/-- Changing distinct places one after the other changes each of them once. -/
theorem getElem?_foldl_modify {β : Type} (f : β → β) {places : List Nat} (distinct : places.Nodup)
    (xs : List β) (j : Nat) :
    (places.foldl (fun xs i => xs.modify i f) xs)[j]? =
      if j ∈ places then xs[j]?.map f else xs[j]? := by
  induction places generalizing xs with
  | nil => simp
  | cons i rest ih =>
    obtain ⟨fresh, distinct⟩ := List.nodup_cons.mp distinct
    rw [List.foldl_cons, ih distinct, List.getElem?_modify]
    by_cases same : j = i
    · subst same
      simp [fresh]
    · have other : i ≠ j := fun equal => same equal.symm
      simp [same, other]

/-- The end of a block of `n` samples. It goes over the places from front to back, over each once, and
takes `n` off every expiry in full. -/
structure Rebases (h : PeakHold α) (n : Nat) : Prop where
  visits : h.visited = h.places.map Fin.val
  once : h.visited.Nodup
  lowers : h.visited.foldl (fun expiries i => expiries.modify i (· - n)) h.expiries.toList =
    (h.shift n).expiries.toList
  entries : (h.shift n).entries = h.entries.map (·.since n)
  whole : ∀ e ∈ h.entries, (e.since n).expiry + n = e.expiry

theorem foldl_visited (h : PeakHold α) (n : Nat) :
    h.visited.foldl (fun expiries i => expiries.modify i (· - n)) h.expiries.toList =
      (h.shift n).expiries.toList := by
  apply List.ext_getElem?
  intro i
  rw [getElem?_foldl_modify _ h.nodup_visited, Vector.getElem?_toList, Vector.getElem?_toList]
  by_cases inside : i < blockLimit
  · have lowered := h.expiries_shift n ⟨i, inside⟩
    rw [get_eq_getElem _ _ inside, get_eq_getElem _ _ inside] at lowered
    rw [Vector.getElem?_eq_getElem inside, Vector.getElem?_eq_getElem inside, lowered]
    simp only [h.mem_visited inside]
    split <;> rfl
  · have outside (xs : Vector Nat blockLimit) : xs[i]? = none :=
      Vector.getElem?_eq_none (Nat.not_lt.mp inside)
    simp [outside]

theorem entries_shift (h : PeakHold α) (n : Nat) :
    (h.shift n).entries = h.entries.map (·.since n) := by
  have same : (h.shift n).places = h.places := by simp [places]
  rw [entries, entries, same, List.map_map]
  apply List.map_congr_left
  intro s member
  exact h.entry_shift n (h.mem_places.mp member)

theorem rebases (h : PeakHold α) {n : Nat} (current : ∀ e ∈ h.entries, n ≤ e.expiry) :
    h.Rebases n where
  visits := h.visited_eq
  once := h.nodup_visited
  lowers := h.foldl_visited n
  entries := h.entries_shift n
  whole e member := Nat.sub_add_cancel (current e member)

end Rebase

end PeakHold

end RealtimeAudio
