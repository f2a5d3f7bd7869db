import RealtimeAudio.Proofs.PeakHold.Window

/-! The circular store of a peak hold shows a window. Each step of the store is that of the
window as long as there is room, which there always is, and blocks of any sizes do what one long
block would: the expiries are rebased, the entries stay. -/
namespace RealtimeAudio

namespace Slot

def advance (s : Slot) (k : Nat) : Slot :=
  ⟨(s.val + k) % blockLimit, Nat.mod_lt _ (by decide)⟩

variable {s : Slot} {j k : Nat}

theorem val_advance : (s.advance k).val = (s.val + k) % blockLimit := rfl

@[simp] theorem advance_zero : s.advance 0 = s := by
  apply Fin.ext
  exact Nat.mod_eq_of_lt s.isLt

theorem next_advance : next (s.advance k) = s.advance (k + 1) := by
  apply Fin.ext
  simp only [next, advance, blockLimit]
  omega

theorem previous_advance : previous (s.advance (k + 1)) = s.advance k := by
  apply Fin.ext
  simp only [previous, advance, blockLimit]
  omega

theorem advance_next : (next s).advance k = s.advance (k + 1) := by
  apply Fin.ext
  simp only [next, advance, blockLimit]
  omega

theorem advance_ne (hj : j < k) (hk : k < blockLimit) : s.advance k ≠ s.advance j := by
  intro same
  have start := s.isLt
  have places : (s.val + k) % blockLimit = (s.val + j) % blockLimit := congrArg Fin.val same
  simp only [blockLimit] at *
  omega

end Slot

namespace PeakHold
section Store
variable {α : Type}

theorem get_eq_getElem (xs : Vector α blockLimit) (s : Slot) (inside : s.val < blockLimit) :
    xs.get s = xs[s.val] :=
  rfl

def entry (h : PeakHold α) (s : Slot) : Held α := ⟨h.values.get s, h.expiries.get s⟩

theorem entry_place_self (h : PeakHold α) (s : Slot) (expiry : Nat) (x : α) :
    (h.place s expiry x).entry s = ⟨x, expiry⟩ := by
  simp [entry, get_eq_getElem, place]

theorem entry_place_ne (h : PeakHold α) {s t : Slot} (apart : s ≠ t) (expiry : Nat) (x : α) :
    (h.place s expiry x).entry t = h.entry t := by
  have places : s.val ≠ t.val := fun same => apart (Fin.ext same)
  simp [entry, get_eq_getElem, place, Vector.getElem_set_ne, places]

theorem length_expire (h : PeakHold α) (i : Nat) : (h.expire i).length = h.length := by
  unfold expire
  split <;> rfl

theorem entry_expire (h : PeakHold α) (i : Nat) (s : Slot) : (h.expire i).entry s = h.entry s := by
  unfold expire
  split <;> rfl

@[simp] theorem shift_front (h : PeakHold α) (n : Nat) : (h.shift n).front = h.front := by
  simp only [shift]

@[simp] theorem shift_back (h : PeakHold α) (n : Nat) : (h.shift n).back = h.back := by
  simp only [shift]

theorem expiries_shift (h : PeakHold α) (n : Nat) (s : Slot) :
    (h.shift n).expiries.get s =
      if h.live s then h.expiries.get s - n else h.expiries.get s := by
  simp [shift, get_eq_getElem]

theorem entry_shift (h : PeakHold α) (n : Nat) {s : Slot} (live : h.live s = true) :
    (h.shift n).entry s = (h.entry s).since n := by
  simp [entry, get_eq_getElem, shift, live, Held.since]

/-- A hold whose live places show the entries of a window, with expiries counted from `base`. -/
structure Shows (h : PeakHold α) (base : Nat) (w : Window α) : Prop where
  room : w.later.length < blockLimit
  back : h.back = h.front.advance w.later.length
  stored : ∀ k (inside : k < w.entries.length),
    h.entry (h.front.advance k) = w.entries[k].since base

namespace Shows
variable {h : PeakHold α} {base : Nat} {w : Window α}

theorem front_eq (shows : h.Shows base w) : h.entry h.front = w.front.since base := by
  have front := shows.stored 0 (by simp [Window.entries])
  rwa [Slot.advance_zero] at front

theorem peak_eq (shows : h.Shows base w) : h.peak = w.peak :=
  congrArg Held.value shows.front_eq

theorem expire (shows : h.Shows base w) (i : Nat)
    (lasts : w.later = [] → base + i < w.front.expiry) :
    (h.expire i).Shows base (w.expire (base + i)) := by
  have front : h.expiries.get h.front = w.front.expiry - base :=
    congrArg Held.expiry shows.front_eq
  unfold PeakHold.expire Window.expire
  rw [front]
  obtain ⟨room, back, stored⟩ := shows
  obtain ⟨first, later⟩ := w
  cases later with
  | nil =>
    have alone := lasts rfl
    dsimp only at alone ⊢
    rw [if_neg (by omega)]
    exact ⟨room, back, stored⟩
  | cons next rest =>
    dsimp only
    by_cases due : first.expiry ≤ base + i
    · rw [if_pos (by omega), if_pos due]
      simp only [List.length_cons] at room back
      refine ⟨by dsimp only; omega, by rw [Slot.advance_next, back], ?_⟩
      intro k inside
      dsimp only
      rw [Slot.advance_next]
      exact stored (k + 1) (by simpa [Window.entries] using inside)
    · rw [if_neg (by omega), if_neg due]
      exact ⟨room, back, stored⟩

/-- An entry placed at slot `j` takes the place of all from there on. -/
theorem place (shows : h.Shows base w) (j : Nat) (new : Held α) (w' : Window α)
    (follows : j ≤ w.entries.length) (room : j < blockLimit)
    (entries : w'.entries = w.entries.take j ++ [new]) :
    (h.place (h.front.advance j) (new.expiry - base) new.value).Shows base w' := by
  have count : w'.entries.length = j + 1 := by
    rw [entries, List.length_append, List.length_take, List.length_singleton]
    omega
  have later : w'.later.length = j := by simpa [Window.entries] using count
  refine ⟨by omega, by rw [later]; rfl, ?_⟩
  intro k inside
  change (h.place _ _ _).entry (h.front.advance k) = _
  by_cases last : k = j
  · subst last
    rw [entry_place_self]
    simp [entries, follows, Held.since]
  · have before : k < j := by omega
    have among : k < w.entries.length := by omega
    have old : w'.entries[k] = w.entries[k] := by simp [entries, before, follows]
    rw [entry_place_ne _ (Slot.advance_ne before room), old]
    exact shows.stored k among

theorem live_advance (shows : h.Shows base w) {k : Nat} (last : k ≤ w.later.length) :
    h.live (h.front.advance k) = true := by
  have room := shows.room
  have start := h.front.isLt
  rw [PeakHold.live, shows.back]
  simp only [Fin.lt_def, Fin.le_def, Slot.val_advance]
  generalize h.front.val = s at *
  generalize w.later.length = m at *
  unfold blockLimit at *
  by_cases wrapped : (s + m) % 1024 < s
  · rw [if_pos wrapped]
    simp only [Bool.or_eq_true, decide_eq_true_eq]
    omega
  · rw [if_neg wrapped]
    simp only [Bool.and_eq_true, decide_eq_true_eq]
    omega

/-- After a block of `n` samples, positions count from its end. -/
theorem shift (shows : h.Shows base w) (n : Nat) : (h.shift n).Shows (base + n) w := by
  refine ⟨shows.room, by rw [shift_back, shift_front, shows.back], ?_⟩
  intro k inside
  rw [shift_front]
  have last : k ≤ w.later.length := by
    simp only [Window.entries, List.length_cons] at inside
    omega
  rw [entry_shift h n (shows.live_advance last), shows.stored k inside]
  simp only [Held.since, Nat.sub_sub]

end Shows

end Store

namespace Shows
variable {α : Type} [Arithmetic α] {h : PeakHold α} {base : Nat} {w : Window α}

theorem new (length : Nat) : (PeakHold.new length : PeakHold α).Shows 0
    (.initial (span length)) := by
  refine ⟨Nat.zero_lt_succ _, by simp [PeakHold.new, Window.initial], ?_⟩
  intro k inside
  obtain rfl : k = 0 := by simpa [Window.entries, Window.initial] using inside
  rw [Slot.advance_zero]
  have room : 0 < blockLimit := by decide
  simp [PeakHold.new, span, entry, get_eq_getElem, Slot.first, Window.initial, Window.entries,
    Held.since, room]

/-- The search from place `k` back stops at the last entry that `x` does not reach. -/
theorem survivor?_eq (shows : h.Shows base w) {x : α} (kept : ¬w.front.value ≤ x) (k steps : Nat)
    (enough : k < steps) (inside : k < w.entries.length) :
    ∃ m ≤ k, h.survivor? x steps (h.front.advance k) = some (h.front.advance m) ∧
      (w.entries.take (k + 1)).rdropWhile (fun e => e.value ≤ x) = w.entries.take (m + 1) := by
  induction k generalizing steps with
  | zero =>
    cases steps with
    | zero => omega
    | succ steps =>
      have front : h.values.get h.front = w.front.value := shows.peak_eq
      refine ⟨0, Nat.le_refl 0, ?_, ?_⟩
      · rw [Slot.advance_zero, survivor?, front, if_neg kept]
      · simp [Window.entries, List.rdropWhile_singleton, kept]
  | succ k ih =>
    cases steps with
    | zero => omega
    | succ steps =>
      have value : h.values.get (h.front.advance (k + 1)) = w.entries[k + 1].value :=
        congrArg Held.value (shows.stored (k + 1) inside)
      have upTo : w.entries.take (k + 2) = w.entries.take (k + 1) ++ [w.entries[k + 1]] := by
        rw [List.take_add_one, List.getElem?_eq_getElem inside, Option.toList_some]
      rw [survivor?, value, upTo]
      by_cases reached : w.entries[k + 1].value ≤ x
      · obtain ⟨m, before, found, rest⟩ := ih steps (by omega) (by omega)
        refine ⟨m, by omega, ?_, ?_⟩
        · rw [if_pos reached, Slot.previous_advance, found]
        · rw [List.rdropWhile_concat_pos _ _ _ (by simpa using reached), rest]
      · refine ⟨k + 1, Nat.le_refl _, by rw [if_neg reached], ?_⟩
        rw [List.rdropWhile_concat_neg _ _ _ (by simpa using reached), upTo]

/-- Where `x` does not reach the front, the place after the nearest survivor is that of the new
entry. -/
theorem survivor?_push (shows : h.Shows base w) (new : Held α)
    (kept : ¬w.front.value ≤ new.value) (room : (w.push new).later.length < blockLimit) :
    ∃ s, h.survivor? new.value blockLimit h.back = some s ∧
      (h.place (Slot.next s) (new.expiry - base) new.value).Shows base (w.push new) := by
  obtain ⟨m, before, found, survivors⟩ := shows.survivor?_eq kept w.later.length blockLimit
    shows.room (Nat.lt_succ_self _)
  have whole : w.entries.take (w.later.length + 1) = w.entries :=
    List.take_of_length_le (Nat.le_refl _)
  rw [whole, Window.rdropWhile_entries kept] at survivors
  have pushed : (w.push new).entries = w.entries.take (m + 1) ++ [new] := by
    rw [← survivors, Window.push, if_neg kept]
    rfl
  have count := congrArg List.length pushed
  simp only [Window.entries, List.length_cons, List.length_append, List.length_take,
    List.length_nil] at count
  refine ⟨h.front.advance m, by rw [shows.back, found], ?_⟩
  rw [Slot.next_advance]
  have inside : m + 1 ≤ w.entries.length := by
    simp only [Window.entries, List.length_cons]
    omega
  exact shows.place (m + 1) new _ inside (by omega) pushed

/-- The store takes in a sample as the window does, if there is room for it. -/
theorem update (shows : h.Shows base w) (i : Nat) (x : α)
    (lasts : w.later = [] → base + i < w.front.expiry)
    (room : (w.update h.length (base + i) x).later.length < blockLimit) :
    ∃ next, h.update? i x = some next ∧ next.length = h.length ∧
      next.Shows base (w.update h.length (base + i) x) := by
  have expired := shows.expire i lasts
  have length := h.length_expire i
  have expiry : i + (h.expire i).length = base + i + h.length - base := by
    rw [length]
    omega
  unfold PeakHold.update?
  dsimp only
  rw [expired.peak_eq, Window.peak, expiry]
  by_cases reached : (w.expire (base + i)).front.value ≤ x
  · rw [if_pos reached]
    refine ⟨_, rfl, length, ?_⟩
    have front := expired.place 0 ⟨x, base + i + h.length⟩
      (w.update h.length (base + i) x) (Nat.zero_le _) (Nat.zero_lt_succ _)
      (by rw [Window.update, Window.push, if_pos reached]; rfl)
    rwa [Slot.advance_zero] at front
  · rw [if_neg reached]
    obtain ⟨s, found, pushed⟩ := expired.survivor?_push ⟨x, base + i + h.length⟩ reached room
    rw [found]
    exact ⟨_, rfl, length, pushed⟩

end Shows

/-- A hold that shows a window which expects position `next`, and has the room it needs. -/
structure Tracks (h : PeakHold α) (base next : Nat) (w : Window α) : Prop where
  long : 2 ≤ h.length
  short : h.length < blockLimit
  shows : h.Shows base w
  timely : w.Timely h.length next

namespace Tracks
variable {α : Type} [Arithmetic α] {h : PeakHold α} {base next : Nat} {w : Window α}

theorem new (length : Nat) : (PeakHold.new length : PeakHold α).Tracks 0 0
    (.initial (span length)) where
  long := Nat.le_max_left _ _
  short := by
    simp only [PeakHold.new, blockLimit]
    omega
  shows := .new length
  timely := .initial _

theorem update {i : Nat} (tracks : h.Tracks base (base + i) w) (x : α) :
    ∃ h', h.update? i x = some h' ∧ h'.length = h.length ∧
      h'.Tracks base (base + (i + 1)) (w.update h.length (base + i) x) := by
  obtain ⟨long, short, shows, timely⟩ := tracks
  have after := timely.update long x
  obtain ⟨h', done, length, shown⟩ := shows.update i x (timely.lasts long)
    (Nat.lt_of_le_of_lt after.length_later_le short)
  rw [← length] at long short after
  exact ⟨h', done, length, long, short, shown, by rwa [← length]⟩

theorem updates {i : Nat} (tracks : h.Tracks base (base + i) w) (xs : List α) :
    ∃ h', h.updates? i xs = some (h', (w.feed h.length (base + i) xs).2) ∧
      h'.length = h.length ∧
      h'.Tracks base (base + (i + xs.length)) (w.feed h.length (base + i) xs).1 := by
  induction xs generalizing h w i with
  | nil => exact ⟨h, rfl, rfl, tracks⟩
  | cons x xs ih =>
    obtain ⟨first, done, kept, tracked⟩ := tracks.update x
    obtain ⟨last, rest, length, followed⟩ := ih tracked
    rw [kept] at rest length followed
    refine ⟨last, ?_, length, ?_⟩
    · rw [updates?, done, Option.bind_eq_bind, Option.bind_some, rest, tracked.shows.peak_eq]
      rfl
    · rwa [List.length_cons, Nat.add_comm xs.length, ← Nat.add_assoc i]

theorem block (tracks : h.Tracks base base w) (xs : List α) :
    ∃ h', h.block? xs = some (h', (w.feed h.length base xs).2) ∧ h'.length = h.length ∧
      h'.Tracks (base + xs.length) (base + xs.length) (w.feed h.length base xs).1 := by
  obtain ⟨last, done, length, tracked⟩ := updates (i := 0) tracks xs
  refine ⟨last.shift xs.length, ?_, ?_, ?_⟩
  · rw [block?, done]
    rfl
  · rw [← length]
    simp only [PeakHold.shift]
  · rw [Nat.zero_add] at tracked
    have rebased : (last.shift xs.length).length = last.length := by simp only [PeakHold.shift]
    exact ⟨by rw [rebased]; exact tracked.long, by rw [rebased]; exact tracked.short,
      tracked.shows.shift xs.length, by rw [rebased]; exact tracked.timely⟩

/-- Blocks of any sizes do what one long block would. -/
theorem blocks (tracks : h.Tracks base base w) (blocks : List (List α)) :
    ∃ h', h.blocks? blocks = some (h', (w.feed h.length base blocks.flatten).2) ∧
      h'.length = h.length ∧
      h'.Tracks (base + blocks.flatten.length) (base + blocks.flatten.length)
        (w.feed h.length base blocks.flatten).1 := by
  induction blocks generalizing h base w with
  | nil => exact ⟨h, rfl, rfl, tracks⟩
  | cons xs rest ih =>
    obtain ⟨first, done, kept, tracked⟩ := tracks.block xs
    obtain ⟨last, more, length, followed⟩ := ih tracked
    rw [kept] at more length followed
    refine ⟨last, ?_, length, ?_⟩
    · rw [blocks?, done, Option.bind_eq_bind, Option.bind_some]
      dsimp only
      rw [more, List.flatten_cons, Window.feed_append]
      rfl
    · rwa [List.flatten_cons, Window.feed_append, List.length_append, ← Nat.add_assoc]

end Tracks

end PeakHold

end RealtimeAudio
