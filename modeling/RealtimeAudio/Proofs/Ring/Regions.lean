import Mathlib.Data.Nat.Prime.Pow
import Mathlib.Order.Interval.Finset.Nat
import RealtimeAudio.Proofs.Ring.Run

/-! The regions of a ring. Whatever the operations have been, every span that one of them computes
stays inside the store, with an offset and a length in bytes that fit a word; its two spans do not
overlap; and the free places are none of the queued ones. Between the two cursors there are never
more elements than the limit, so the room that is left is a proper difference. -/
namespace RealtimeAudio

def Span.places (s : Span) : Finset Nat := Finset.Ico s.start (s.start + s.count)

namespace Ring

def places (region : Span × Span) : Finset Nat := region.1.places ∪ region.2.places

/-- The span can be addressed: neither its offset nor its length overflows, and it ends inside the
allocated bytes. -/
structure Addressable (r : Ring) (s : Span) : Prop where
  offset : s.start * r.elementSize < UInt64.size
  length : s.count * r.elementSize < UInt64.size
  inside : s.start * r.elementSize + s.count * r.elementSize ≤ r.storage.length

/-- The spans of `count` elements from a cursor on. -/
structure Covers (r : Ring) (cursor : UInt64) (count : Nat) (region : Span × Span) : Prop where
  /-- The first place is the cursor under a mask. -/
  start : region.1.start = cursor.toNat &&& (r.capacity - 1)
  start_lt : region.1.start < r.capacity
  first : r.Addressable region.1
  second : r.Addressable region.2
  bytes : count * r.elementSize < UInt64.size
  total : region.1.count + region.2.count = count
  apart : Disjoint region.1.places region.2.places
  /-- Only a region that reaches past the end of the store has a second span. -/
  contiguous : region.2.count = 0 ↔ region.1.start + count ≤ r.capacity

/-- A region as it is seen in place. -/
structure Exposes (r : Ring) (cursor : UInt64) (space : Nat) (v : View) : Prop where
  size : v.size = space
  isEmpty : v.isEmpty = true ↔ v.size = 0
  contiguous : v.second = [] ↔ (cursor.toNat &&& (r.capacity - 1)) + space ≤ r.capacity

/-- What holds of the cursors and of all spans at any time. -/
structure Bounded (r : Ring) : Prop where
  capacity : ∃ k < 64, r.capacity = 2 ^ k
  allocated : r.storage.length = r.capacity * r.elementSize
  allocated_lt : r.storage.length < UInt64.size / 2
  readSpace : (r.readSpace : ℤ) = ((r.written.toNat : ℤ) - r.taken.toNat) % UInt64.size
  readSpace_le : r.readSpace ≤ r.writeLimit
  writeLimit_le : r.writeLimit ≤ r.capacity
  spaces : r.readSpace + r.writeSpace = r.writeLimit
  /-- However many elements are asked for, as many spans are computed as there is room for. -/
  written : ∀ count, r.Covers r.written (min count r.writeSpace)
    (r.spans r.written (min count r.writeSpace))
  taken : ∀ count, r.Covers r.taken (min count r.readSpace)
    (r.spans r.taken (min count r.readSpace))
  queued : r.Covers r.taken r.readSpace r.queued
  free : r.Covers r.written r.writeSpace r.free
  apart : Disjoint (places r.queued) (places r.free)
  together : (places r.queued ∪ places r.free).card = r.writeLimit
  readView : r.Exposes r.taken r.readSpace r.readView
  writeView : r.Exposes r.written r.writeSpace r.writeView

variable {r : Ring}

section Places

theorem mem_span_places {s : Span} {place : Nat} : place ∈ s.places ↔ ¬Outside s place := by
  simp only [Span.places, Finset.mem_Ico, Outside]
  omega

theorem mem_places {region : Span × Span} {place : Nat} :
    place ∈ places region ↔ ¬(Outside region.1 place ∧ Outside region.2 place) := by
  rw [places, Finset.mem_union, mem_span_places, mem_span_places]
  exact not_and_or.symm

theorem WellFormed.spans_cases (valid : r.WellFormed) (cursor : UInt64) (count : Nat) :
    (cursor.toNat % r.capacity + count ≤ r.capacity ∧
      r.spans cursor count = (⟨cursor.toNat % r.capacity, count⟩, ⟨0, 0⟩)) ∨
    (r.capacity < cursor.toNat % r.capacity + count ∧
      r.spans cursor count = (⟨cursor.toNat % r.capacity, r.capacity - cursor.toNat % r.capacity⟩,
        ⟨0, count - (r.capacity - cursor.toNat % r.capacity)⟩)) := by
  have bound := Nat.mod_lt cursor.toNat valid.capacity_pos
  unfold spans
  dsimp only
  split
  · rename_i wraps
    exact Or.inr ⟨by omega, rfl⟩
  · rename_i fits
    exact Or.inl ⟨by omega, rfl⟩

/-- The places of a region are those of its elements. -/
theorem WellFormed.mem_places_spans (valid : r.WellFormed) {cursor : UInt64} {count place : Nat}
    (bounded : count ≤ r.capacity) (member : place ∈ places (r.spans cursor count)) :
    ∃ k < count, place = (cursor.toNat + k) % r.capacity := by
  have bound := Nat.mod_lt cursor.toNat valid.capacity_pos
  have place_add (k : Nat) (less : k < r.capacity) := valid.place_add cursor.toNat less
  simp only [places, Span.places, Finset.mem_union, Finset.mem_Ico] at member
  have ahead (within : cursor.toNat % r.capacity ≤ place) (inside : place < r.capacity)
      (short : place < cursor.toNat % r.capacity + count) :
      ∃ k < count, place = (cursor.toNat + k) % r.capacity := by
    refine ⟨place - cursor.toNat % r.capacity, by omega, ?_⟩
    rw [place_add _ (by omega), if_pos (by omega)]
    omega
  rcases valid.spans_cases cursor count with ⟨fits, same⟩ | ⟨wraps, same⟩
  · simp only [same] at member
    rcases member with first | second
    · exact ahead first.1 (by omega) first.2
    · omega
  · simp only [same] at member
    rcases member with first | second
    · exact ahead first.1 (by omega) (by omega)
    · refine ⟨place + (r.capacity - cursor.toNat % r.capacity), by omega, ?_⟩
      rw [place_add _ (by omega), if_neg (by omega)]
      omega

theorem WellFormed.spans_apart (valid : r.WellFormed) (cursor : UInt64) {count : Nat}
    (bounded : count ≤ r.capacity) :
    Disjoint (r.spans cursor count).1.places (r.spans cursor count).2.places := by
  rw [Finset.disjoint_left]
  intro place first second
  simp only [Span.places, Finset.mem_Ico] at first second
  rcases valid.spans_cases cursor count with ⟨fits, same⟩ | ⟨wraps, same⟩
  · simp only [same] at second
    omega
  · simp only [same] at first second
    omega

theorem WellFormed.spans_total (valid : r.WellFormed) (cursor : UInt64) (count : Nat) :
    (r.spans cursor count).1.count + (r.spans cursor count).2.count = count := by
  rcases valid.spans_cases cursor count with ⟨fits, same⟩ | ⟨wraps, same⟩
  · rw [same]
    rfl
  · simp only [same]
    omega

theorem WellFormed.card_places_spans (valid : r.WellFormed) (cursor : UInt64) {count : Nat}
    (bounded : count ≤ r.capacity) : (places (r.spans cursor count)).card = count := by
  rw [places, Finset.card_union_of_disjoint (valid.spans_apart cursor bounded)]
  simp only [Span.places, Nat.card_Ico, Nat.add_sub_cancel_left]
  exact valid.spans_total cursor count

end Places

namespace WellFormed

theorem capacity_eq (valid : r.WellFormed) : ∃ k < 64, r.capacity = 2 ^ k := by
  have divides : r.capacity ∣ 2 ^ 64 := valid.capacity_dvd
  obtain ⟨k, -, power⟩ := (Nat.dvd_prime_pow Nat.prime_two).mp divides
  refine ⟨k, ?_, power⟩
  have less : 2 ^ k < 2 ^ 64 := power ▸ valid.capacity_lt
  exact (Nat.pow_lt_pow_iff_right (by decide)).mp less

/-- A power of two as the capacity lets a mask find the place of a cursor. -/
theorem mask_eq (valid : r.WellFormed) (n : Nat) : n &&& (r.capacity - 1) = n % r.capacity := by
  obtain ⟨k, -, power⟩ := valid.capacity_eq
  rw [power]
  exact Nat.and_two_pow_sub_one_eq_mod n k

theorem addressable (valid : r.WellFormed) {s : Span} (inside : s.start + s.count ≤ r.capacity) :
    r.Addressable s := by
  have within := Nat.mul_le_mul_right r.elementSize inside
  rw [Nat.add_mul] at within
  have bytes := valid.bytes_lt
  have half : UInt64.size / 2 < UInt64.size := by decide
  constructor
  · omega
  · omega
  · rw [valid.length_storage]
    exact within

theorem covers (valid : r.WellFormed) (cursor : UInt64) {count : Nat} (room : count ≤ r.capacity) :
    r.Covers cursor count (r.spans cursor count) := by
  have inside := spans_inside r cursor room valid.capacity_pos
  have bound := Nat.mod_lt cursor.toNat valid.capacity_pos
  have first : (r.spans cursor count).1.start = cursor.toNat % r.capacity := by
    rcases valid.spans_cases cursor count with ⟨-, same⟩ | ⟨-, same⟩ <;> rw [same]
  constructor
  case start => rw [valid.mask_eq, first]
  case start_lt => rwa [first]
  case first => exact valid.addressable inside.1
  case second => exact valid.addressable inside.2
  case bytes =>
    have within := Nat.mul_le_mul_right r.elementSize room
    have bytes := valid.bytes_lt
    have half : UInt64.size / 2 < UInt64.size := by decide
    omega
  case total => exact valid.spans_total cursor count
  case apart => exact valid.spans_apart cursor room
  case contiguous =>
    rcases valid.spans_cases cursor count with ⟨fits, same⟩ | ⟨wraps, same⟩
    · rw [same]
      exact iff_of_true rfl fits
    · rw [same]
      apply iff_of_false
      · dsimp only
        omega
      · dsimp only
        omega

/-- No place is both queued and free. -/
theorem queued_free_apart (valid : r.WellFormed) : Disjoint (places r.queued) (places r.free) := by
  rw [Finset.disjoint_left]
  intro place waiting vacant
  have bounded := Nat.le_trans valid.readSpace_le valid.limit_le
  obtain ⟨k, within, rfl⟩ := valid.mem_places_spans bounded waiting
  obtain ⟨j, beyond, inside, same⟩ := valid.queued_place within
  rw [same] at vacant
  exact mem_places.mp vacant (valid.spans_outside r.written beyond inside)

theorem card_places (valid : r.WellFormed) :
    (places r.queued ∪ places r.free).card = r.writeLimit := by
  have bounded := Nat.le_trans valid.readSpace_le valid.limit_le
  rw [Finset.card_union_of_disjoint valid.queued_free_apart]
  calc
    (places r.queued).card + (places r.free).card = r.readSpace + r.writeSpace :=
      congrArg₂ (· + ·) (valid.card_places_spans r.taken bounded)
        (valid.card_places_spans r.written valid.writeSpace_le)
    _ = r.writeLimit := valid.spaces

theorem exposes (valid : r.WellFormed) (cursor : UInt64) {space : Nat} (room : space ≤ r.capacity) :
    r.Exposes cursor space (r.view (r.spans cursor space)) := by
  have covers := valid.covers cursor room
  have inside := spans_inside r cursor room valid.capacity_pos
  have first : (r.view (r.spans cursor space)).first.length =
      (r.spans cursor space).1.count * r.elementSize := valid.length_load inside.1
  have second : (r.view (r.spans cursor space)).second.length =
      (r.spans cursor space).2.count * r.elementSize := valid.length_load inside.2
  have size : (r.view (r.spans cursor space)).size = space := by
    rw [View.size, first, second, ← Nat.add_mul, covers.total]
    exact Nat.mul_div_cancel space valid.elementSize_pos
  constructor
  case size => exact size
  case isEmpty =>
    rw [size, View.isEmpty, List.isEmpty_iff, ← List.length_eq_zero_iff, first, Nat.mul_eq_zero]
    have positive := valid.elementSize_pos
    have bound := Nat.mod_lt cursor.toNat valid.capacity_pos
    rcases valid.spans_cases cursor space with ⟨fits, same⟩ | ⟨wraps, same⟩
    · simp only [same]
      omega
    · simp only [same]
      omega
  case contiguous =>
    rw [← covers.start, ← covers.contiguous, ← List.length_eq_zero_iff, second, Nat.mul_eq_zero]
    exact or_iff_left (Nat.ne_of_gt valid.elementSize_pos)

theorem bounded (valid : r.WellFormed) : r.Bounded := by
  have queued := Nat.le_trans valid.readSpace_le valid.limit_le
  have free := valid.writeSpace_le
  constructor
  case capacity => exact valid.capacity_eq
  case allocated => exact valid.length_storage
  case allocated_lt => exact valid.length_storage ▸ valid.bytes_lt
  case readSpace =>
    have difference := UInt64.toNat_sub r.written r.taken
    have written := r.written.toNat_lt
    have taken := r.taken.toNat_lt
    simp only [Ring.readSpace, UInt64.size]
    omega
  case readSpace_le => exact valid.readSpace_le
  case writeLimit_le => exact valid.limit_le
  case spaces => exact valid.spaces
  case written =>
    intro count
    exact valid.covers r.written (Nat.le_trans (Nat.min_le_right _ _) free)
  case taken =>
    intro count
    exact valid.covers r.taken (Nat.le_trans (Nat.min_le_right _ _) queued)
  case queued => exact valid.covers r.taken queued
  case free => exact valid.covers r.written free
  case apart => exact valid.queued_free_apart
  case together => exact valid.card_places
  case readView => exact valid.exposes r.taken queued
  case writeView => exact valid.exposes r.written free

end WellFormed

/-- After any operations on a new ring the cursors are within the limit of each other, and all
spans lie in the store and out of each other's way. -/
theorem create_run_bounded {granted : Nat → Bool} {elements elementSize : Nat} {reserve : Bool}
    {start : Ring} (made : create granted elements elementSize reserve = .ok start)
    (operations : List Operation) : (start.run operations).Bounded :=
  ((wellFormed_create made).run operations).bounded

/-- A ring without a reserved place, filled up by a commit of as many elements as a word can count:
its cursors have the same place again. -/
theorem create_run_bounded_full :
    create (fun _ => true) 3 2 false = .ok ⟨4, 2, 4, 0, 0, List.replicate 8 0⟩ ∧
      (run ⟨4, 2, 4, 0, 0, List.replicate 8 0⟩
        [.write [1, 2, 3, 4, 5, 6], .read [0, 0], .commit (UInt64.size - 1)]).readSpace = 4 ∧
      (run ⟨4, 2, 4, 0, 0, List.replicate 8 0⟩
        [.write [1, 2, 3, 4, 5, 6], .read [0, 0], .commit (UInt64.size - 1)]).Bounded := by
  have made : create (fun _ => true) 3 2 false = .ok ⟨4, 2, 4, 0, 0, List.replicate 8 0⟩ := rfl
  exact ⟨made, by decide, create_run_bounded made _⟩

end Ring

end RealtimeAudio
