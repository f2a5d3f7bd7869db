import RealtimeAudio.Proofs.PeakHold.Maximum
import RealtimeAudio.Proofs.PeakHold.Places

/-! The order of the entries in the store of a peak hold. They descend and each outlives the one
before it, so that the front alone has to be asked whether its time is over, and a sample goes
behind the last entry that stays, to a place where none does. -/
namespace RealtimeAudio
open Arithmetic (Compared Ordered)

namespace PeakHold
variable {α : Type} [Arithmetic α]

/-- The live entries of a hold that expects position `i` of a block. -/
structure Arranged (h : PeakHold α) (i : Nat) : Prop where
  short : h.length < blockLimit
  count : 1 ≤ h.entries.length ∧ h.entries.length ≤ h.length
  values : h.entries.Pairwise fun a b => b.value < a.value
  expiries : h.entries.Pairwise fun a b => a.expiry < b.expiry
  /-- No entry has been over before. -/
  current : ∀ e ∈ h.entries, i ≤ e.expiry
  /-- The latest entry is not over now. -/
  lasts : ∀ e ∈ h.entries.getLast?, i < e.expiry

/-- The live places whose entries are not over at position `i` and which `x` does not reach. -/
def remaining (h : PeakHold α) (i : Nat) (x : α) : List Slot :=
  h.places.filter fun s => i < (h.entry s).expiry ∧ ¬(h.entry s).value ≤ x

/-- The sample `x` at position `i` of a block leads from `h` to `h'`. At most one entry is over, and it
is not the latest. The remaining ones keep their places, and `x` goes to another place, the only one
to change. -/
structure Takes (h : PeakHold α) (i : Nat) (x : α) (h' : PeakHold α) : Prop where
  ends : h.entries.countP (·.expiry ≤ i) ≤ 1
  lasts : ∀ e ∈ h.entries.getLast?, i < e.expiry
  places : h'.places = h.remaining i x ++ [h'.back]
  free : h'.back ∉ h.remaining i x
  newest : h'.entries.getLast? = some ⟨x, i + h.length⟩
  others : ∀ s, s ≠ h'.back → h'.entry s = h.entry s

section Steps
variable {h h' : PeakHold α} {i : Nat} {x : α}

/-- Where entries descend, a sample reaches those from its place on and no others. -/
theorem update?_place {Number : α → Prop} (order : Compared α Number)
    (values : (h.expire i).entries.Pairwise fun a b => b.value < a.value)
    (done : h.update? i x = some h') :
    let g := h.expire i
    ∃ m ≤ g.front.distance g.back + 1, h' = g.place (g.front.advance m) (i + g.length) x ∧
      ∀ j ≤ g.front.distance g.back, (g.entry (g.front.advance j)).value ≤ x ↔ m ≤ j := by
  intro g
  have below {j k : Nat} (before : j < k) (inside : k ≤ g.front.distance g.back) :
      (g.entry (g.front.advance k)).value ≤ (g.entry (g.front.advance j)).value := by
    obtain ⟨second, first, above⟩ := (order.lt_iff _ _).mp (pairwise_entries values before inside)
    exact order.le_of_not_le first second above
  rcases update?_cases done with ⟨reached, rfl⟩ | ⟨m, inside, kept, passed, rfl⟩
  · refine ⟨0, Nat.zero_le _, rfl, fun j inside => ?_⟩
    simp only [Nat.zero_le, iff_true]
    have front : (g.entry (g.front.advance 0)).value ≤ x := by rwa [Slot.advance_zero]
    rcases Nat.eq_zero_or_pos j with rfl | later
    · exact front
    · exact order.trans (below later inside) front
  · refine ⟨m + 1, Nat.succ_le_succ inside, rfl, fun j among => ?_⟩
    constructor
    · intro reached
      by_contra before
      rcases Nat.lt_or_eq_of_le (Nat.not_lt.mp before) with earlier | rfl
      · exact kept (order.trans (below earlier inside) reached)
      · exact kept reached
    · intro after
      exact passed j after among

namespace Arranged

/-- No entry but the front can be over. -/
theorem later_outlives (arranged : h.Arranged i) {s : Slot}
    (later : s ∈ (List.range (h.front.distance h.back)).map (Slot.next h.front).advance) :
    i < (h.entry s).expiry := by
  have expiries := arranged.expiries
  rw [entries, List.pairwise_map, places_eq_cons, List.pairwise_cons] at expiries
  have front : i ≤ (h.entry h.front).expiry :=
    arranged.current _ (by simp [entries, places_eq_cons])
  exact Nat.lt_of_le_of_lt front (expiries.1 s later)

theorem countP_le (arranged : h.Arranged i) : h.entries.countP (·.expiry ≤ i) ≤ 1 := by
  rw [entries, List.countP_map, places_eq_cons, List.countP_cons, List.countP_eq_zero.mpr]
  · split <;> omega
  · intro s later
    have outlives := arranged.later_outlives later
    simpa using outlives

/-- The front makes way once its time is over. -/
theorem expire_places (arranged : h.Arranged i) :
    (h.expire i).places = h.places.filter fun s => i < (h.entry s).expiry := by
  by_cases due : (h.entry h.front).expiry ≤ i
  · have expired : h.expire i = { h with front := Slot.next h.front } := if_pos due
    -- The latest entry is not over, so the front is another one.
    have apart : h.front.distance h.back ≠ 0 := by
      intro alone
      have same : h.front = h.back := by
        rw [← Slot.advance_distance h.front h.back, alone, Slot.advance_zero]
      have lasts := arranged.lasts _ h.getLast?_entries
      rw [← same] at lasts
      omega
    obtain ⟨d, distance⟩ := Nat.exists_eq_add_one_of_ne_zero apart
    have near := h.front.distance_lt h.back
    have rest : (Slot.next h.front).distance h.back = d := by
      rw [← Slot.advance_distance h.front h.back, distance, ← Slot.advance_next]
      exact Slot.distance_advance (by omega)
    rw [h.places_eq_cons, List.filter_cons_of_neg (by simpa using due), List.filter_eq_self.mpr,
      expired, places, distance]
    · dsimp only
      rw [rest]
    · intro s later
      simpa using arranged.later_outlives later
  · have expired : h.expire i = h := if_neg due
    rw [expired, List.filter_eq_self.mpr]
    intro s member
    rw [places_eq_cons, List.mem_cons] at member
    rcases member with rfl | later
    · simpa using due
    · simpa using arranged.later_outlives later

theorem expire_values (arranged : h.Arranged i) :
    (h.expire i).entries.Pairwise fun a b => b.value < a.value := by
  have values := arranged.values
  rw [entries, List.pairwise_map] at values ⊢
  simp only [entry_expire]
  rw [arranged.expire_places]
  exact values.filter _

/-- There is room behind all entries that have not expired. -/
theorem expire_room (arranged : h.Arranged i) :
    (h.expire i).front.distance (h.expire i).back + 1 < blockLimit := by
  have fewer := List.length_filter_le (fun s => decide (i < (h.entry s).expiry)) h.places
  have count := arranged.count.2
  have short := arranged.short
  rw [← arranged.expire_places, length_places] at fewer
  rw [entries, List.length_map] at count
  omega

/-- A sample takes the place of the entries that it reaches and of none that stays. -/
theorem takes {Number : α → Prop} (order : Compared α Number) (arranged : h.Arranged i)
    (done : h.update? i x = some h') : h.Takes i x h' := by
  obtain ⟨m, within, placed, reached⟩ := update?_place order arranged.expire_values done
  have kept : h.remaining i x = (List.range m).map (h.expire i).front.advance := by
    rw [← filter_places _ (fun s => ¬(h.entry s).value ≤ x) within, arranged.expire_places,
      List.filter_filter]
    · simp [remaining, Bool.and_comm]
    · intro j inside
      rw [← Nat.not_le, ← reached j inside, entry_expire]
      simp
  have back : h'.back = (h.expire i).front.advance m := by rw [placed]; rfl
  have places : h'.places = (List.range m).map (h.expire i).front.advance ++ [h'.back] := by
    rw [back, placed]
    exact places_place _ (Nat.lt_of_le_of_lt within arranged.expire_room) _ _
  constructor
  case ends => exact arranged.countP_le
  case lasts => exact arranged.lasts
  case places => rw [kept, places]
  case free =>
    rw [kept]
    intro live
    have distinct := h'.nodup_places
    rw [places, List.nodup_append] at distinct
    exact distinct.2.2 _ live _ (List.mem_singleton_self _) rfl
  case newest =>
    rw [getLast?_entries, back, placed, entry_place_self, length_expire]
  case others =>
    intro s apart
    rw [placed, entry_place_ne _ (fun same => apart (by rw [← same, back])), entry_expire]

end Arranged

/-- Where the latest entry stays, a sample goes to the place after it. -/
theorem Takes.back_eq (takes : h.Takes i x h') (stays : ¬(h.entry h.back).value ≤ x) :
    h'.back = Slot.next h.back ∧ h'.front ≠ h'.back := by
  have lasts := takes.lasts _ h.getLast?_entries
  have places := takes.places
  rw [remaining, h.places_eq_concat, List.filter_append, List.filter_cons_of_pos (by simp [lasts, stays]),
    List.filter_nil] at places
  generalize List.filter _ _ = kept at places
  have count : h'.front.distance h'.back = kept.length + 1 := by
    have sizes := congrArg List.length places
    simpa [length_places] using sizes
  have latest : h'.front.advance kept.length = h.back := by
    have place := congrArg (·[kept.length]?) places
    simpa [PeakHold.places, count] using place
  constructor
  · rw [← latest, Slot.next_advance, ← count, Slot.advance_distance]
  · have near := h'.front.distance_lt h'.back
    have apart : h'.front.advance (kept.length + 1) ≠ h'.front.advance 0 :=
      Slot.advance_ne (Nat.succ_pos _) (count ▸ near)
    rw [← count, Slot.advance_distance, Slot.advance_zero] at apart
    exact apart.symm

end Steps

section Stream

/-- A hold that has taken in the samples, the last `i` of them in the block that began at `base`. -/
structure Fed (h : PeakHold α) (samples : List α) (base i : Nat) : Prop where
  position : samples.length = base + i
  tracks : h.Tracks base (base + i) ((Window.initial h.length).feed h.length 0 samples).1

variable {Number : α → Prop} {h : PeakHold α} {base i : Nat} {w : Window α}
variable {samples : List α}

/-- The entries of a window that the samples have left are arranged in the store. -/
theorem Shows.arranged (shows : h.Shows base w) (order : Compared α Number)
    (numbers : ∀ x ∈ samples, Number x) (reflects : w.Reflects h.length samples (base + i))
    (position : samples.length = base + i) (short : h.length < blockLimit)
    (lasts : ∀ e ∈ w.entries.getLast?, base + i < e.expiry) : h.Arranged i := by
  have current := reflects.current
  have number : ∀ e ∈ w.entries, Number e.value := by
    intro e member
    obtain ⟨s, -, found⟩ := reflects.sampled e member
    exact numbers _ (List.mem_of_getElem? found)
  have within : ∀ e ∈ w.entries, base + i ≤ e.expiry ∧ e.expiry < base + i + h.length := by
    intro e member
    obtain ⟨s, expiry, found⟩ := reflects.sampled e member
    have inside := (List.getElem?_eq_some_iff.mp found).1
    exact ⟨current e member, by omega⟩
  constructor
  case short => exact short
  case count =>
    rw [shows.entries_eq, List.length_map]
    exact ⟨Nat.succ_pos _, Window.length_le_of_expiries reflects.expiries within⟩
  case values =>
    have descending : w.entries.Pairwise fun a b => b.value < a.value :=
      reflects.values.imp_of_mem fun first second above =>
        (order.lt_iff _ _).mpr ⟨number _ second, number _ first, above⟩
    rw [shows.entries_eq, List.pairwise_map]
    exact descending
  case expiries =>
    have increasing : w.entries.Pairwise fun a b => a.expiry - base < b.expiry - base := by
      apply reflects.expiries.imp_of_mem
      intro a b first _ before
      have since := current a first
      omega
    rw [shows.entries_eq, List.pairwise_map]
    exact increasing
  case current =>
    rw [shows.entries_eq, List.forall_mem_map]
    intro e member
    exact Nat.le_sub_of_add_le' (current e member)
  case lasts =>
    rw [shows.entries_eq, List.getLast?_map]
    rintro _ last
    obtain ⟨e, latest, rfl⟩ := Option.map_eq_some_iff.mp last
    exact Nat.lt_sub_iff_add_lt'.mpr (lasts e latest)

/-- However numbers are cut into blocks, they leave a hold arranged. -/
theorem Fed.arranged (fed : h.Fed samples base i) (order : Ordered α Number)
    (numbers : ∀ x ∈ samples, Number x) : h.Arranged i := by
  obtain ⟨position, long, short, shows, -⟩ := fed
  cases samples using List.reverseRecOn with
  | nil =>
    obtain ⟨rfl, rfl⟩ : base = 0 ∧ i = 0 := Nat.add_eq_zero_iff.mp position.symm
    have entries : h.entries = [⟨Arithmetic.bottom, h.length⟩] := shows.entries_eq
    have some : 0 < h.length := by omega
    constructor
    case short => exact short
    case count => simpa [entries] using Nat.succ_le_of_lt some
    case lasts => simpa [entries] using some
    all_goals simp [entries]
  | append_singleton earlier x =>
    have least : ∀ y ∈ earlier ++ [x], Arithmetic.bottom ≤ y := fun y member =>
      order.bottom_le (numbers y member)
    have reflects := Window.Reflects.feed order.toCompared numbers least long (by simp)
    rw [position] at reflects
    refine shows.arranged order.toCompared numbers reflects position short ?_
    rw [Window.feed_snoc, Window.update, Window.getLast?_push]
    rintro _ ⟨rfl⟩
    rw [List.length_append, List.length_singleton] at position
    dsimp only
    omega

theorem Fed.update (fed : h.Fed samples base i) (x : α) :
    ∃ h', h.update? i x = some h' ∧ h'.length = h.length ∧
      h'.Fed (samples ++ [x]) base (i + 1) := by
  obtain ⟨position, tracks⟩ := fed
  obtain ⟨h', updated, same, following⟩ := tracks.update x
  refine ⟨h', updated, same, by simp [position, Nat.add_assoc], ?_⟩
  rw [Window.feed_snoc, same, Nat.zero_add, position]
  exact following

/-- Some blocks, and the samples `xs` of the next. -/
theorem exists_fed (length : Nat) (blocks : List (List α)) (xs : List α) :
    ∃ start peaks h more, (PeakHold.new length).blocks? blocks = some (start, peaks) ∧
      start.updates? 0 xs = some (h, more) ∧ h.length = span length ∧
      h.Fed (blocks.flatten ++ xs) blocks.flatten.length xs.length := by
  have fresh : (PeakHold.new length : PeakHold α).Tracks 0 0 _ := Tracks.new length
  obtain ⟨start, whole, kept, tracked⟩ := fresh.blocks blocks
  obtain ⟨h, part, same, tracks⟩ := tracked.updates (i := 0) xs
  have size : h.length = span length := same.trans kept
  refine ⟨start, _, h, _, whole, part, size, List.length_append, ?_⟩
  rw [Window.feed_append, Nat.zero_add]
  simp only [same, kept, Nat.zero_add, Nat.add_zero] at tracks ⊢
  exact tracks

/-- Samples that descend are stored one behind the other, and so is the next one, `y`. -/
theorem Fed.updates_back (fed : h.Fed samples base i) (order : Ordered α Number) {xs : List α}
    (numbers : ∀ x ∈ samples ++ xs, Number x) {y : α}
    (descending : List.IsChain (fun a b => ¬a ≤ b) ((h.entry h.back).value :: (xs ++ [y])))
    {h' : PeakHold α} {peaks : List α} (done : h.updates? i xs = some (h', peaks)) :
    h'.back = h.back.advance xs.length ∧ ¬(h'.entry h'.back).value ≤ y := by
  induction xs generalizing h i samples peaks with
  | nil =>
    obtain ⟨rfl, -⟩ := Prod.mk.inj (Option.some.inj done)
    simpa using descending
  | cons x xs ih =>
    obtain ⟨next, updated, -, following⟩ := fed.update x
    obtain ⟨below, descending⟩ := List.isChain_cons_cons.mp descending
    have arranged := fed.arranged order fun y member => numbers y (List.mem_append_left _ member)
    have takes := arranged.takes order.toCompared updated
    have newest : next.entry next.back = ⟨x, i + h.length⟩ :=
      Option.some.inj (next.getLast?_entries.symm.trans takes.newest)
    rw [updates?, updated, Option.bind_eq_bind, Option.bind_some] at done
    obtain ⟨⟨last, more⟩, rest, found⟩ := Option.bind_eq_some_iff.mp done
    obtain ⟨rfl, -⟩ := Prod.mk.inj (Option.some.inj found)
    -- The latest entry is `x` now, at the next place, and the sample after `x` does not reach it.
    rw [List.length_cons, ← Slot.advance_next, ← (takes.back_eq below).1]
    exact ih following (by simpa using numbers) (by rwa [newest]) rest

end Stream

/-- However numbers are cut into blocks, after each sample the live places hold descending values that
outlive one another, no more of them than the hold is long. The sample found at most one entry over
and overwrote none that remains. If the block ends after it, each live expiry is lowered once and in
full. -/
theorem blocks_arranged (length : Nat) (blocks : List (List Float32)) (xs : List Float32)
    (x : Float32) (numbers : ∀ y ∈ blocks.flatten ++ xs ++ [x], Single.Number y) :
    ∃ start peaks h more h',
      (PeakHold.new length).blocks? blocks = some (start, peaks) ∧
      start.updates? 0 xs = some (h, more) ∧ h.update? xs.length x = some h' ∧
      h.length = span length ∧ h'.length = span length ∧ h.Takes xs.length x h' ∧
      h'.Arranged (xs.length + 1) ∧ h'.Rebases (xs.length + 1) := by
  obtain ⟨start, peaks, h, more, whole, part, size, fed⟩ := exists_fed length blocks xs
  obtain ⟨h', last, same, following⟩ := fed.update x
  have ready : h.Arranged xs.length := fed.arranged Single.ordered
    fun y member => numbers y (List.mem_append_left _ member)
  have arranged : h'.Arranged (xs.length + 1) := following.arranged Single.ordered numbers
  exact ⟨start, peaks, h, more, h', whole, part, last, size, same.trans size,
    ready.takes Single.ordered.toCompared last, arranged, h'.rebases arranged.current⟩

/-- The longest hold, and enough descending samples to wrap its live places around the end of the
store. -/
theorem blocks_arranged_wrapped :
    let xs : List Float32 := (List.range 1023).map fun k => .ofBits (0x80000001 + k.toUInt32)
    let x : Float32 := .ofBits 0x80000400
    (∀ y ∈ [[-0.0]].flatten ++ xs ++ [x], Single.Number y) ∧
    ∃ start peaks h more h',
      (PeakHold.new 1023).blocks? [[(-0.0 : Float32)]] = some (start, peaks) ∧
      start.updates? 0 xs = some (h, more) ∧ h.update? xs.length x = some h' ∧
      h.length = span 1023 ∧ h'.length = span 1023 ∧ h.Takes xs.length x h' ∧
      h'.Arranged (xs.length + 1) ∧ h'.Rebases (xs.length + 1) ∧ h'.back < h'.front := by
  intro xs x
  have numbers : ∀ y ∈ [[-0.0]].flatten ++ xs ++ [x], Single.Number y := by decide +kernel
  obtain ⟨start, peaks, h, more, h', whole, part, last, size, same, takes, arranged, rebases⟩ :=
    blocks_arranged 1023 [[-0.0]] xs x numbers
  refine ⟨numbers, start, peaks, h, more, h', whole, part, last, size, same, takes, arranged,
    rebases, ?_⟩
  have first : ((PeakHold.new 1023).blocks? [[(-0.0 : Float32)]]).map
      (fun r => (r.1.back, (r.1.entry r.1.back).value)) = some (.first, -0.0) := by decide +kernel
  obtain ⟨back, value⟩ := Prod.mk.inj (Option.some.inj (whole ▸ first))
  have descending : List.IsChain (fun a b : Float32 => ¬a ≤ b) (-0.0 :: (xs ++ [x])) := by
    decide +kernel
  obtain ⟨_, _, _, _, again, none, -, fed⟩ := exists_fed 1023 [[(-0.0 : Float32)]] []
  obtain ⟨rfl, -⟩ := Prod.mk.inj (Option.some.inj (whole.symm.trans again))
  obtain ⟨rfl, -⟩ := Prod.mk.inj (Option.some.inj none)
  obtain ⟨moved, stays⟩ := fed.updates_back Single.ordered
    (fun y member => numbers y (List.mem_append_left _ member)) (by rwa [value]) part
  obtain ⟨following, apart⟩ := takes.back_eq stays
  have count : xs.length = 1023 := by simp [xs]
  have origin : h'.back = .first := by
    rw [following, moved, back, count]
    rfl
  have beyond : h'.front.val ≠ 0 := by
    intro zero
    apply apart
    rw [origin]
    exact Fin.ext zero
  rw [origin]
  exact Nat.pos_of_ne_zero beyond

end PeakHold

end RealtimeAudio
