import RealtimeAudio.Proofs.Ring.Layout

/-! A ring as a bounded queue. The queue is what the consumer sees in place, read as records.
Each operation of the producer or of the consumer is described by what it does to the queue,
in every state that operations can lead to from a new ring; where a run of elements wraps past
the end of the store, or the cursors past the word size, does not show. -/
namespace RealtimeAudio.Ring
variable {r : Ring}

def queue (r : Ring) : List (List UInt8) :=
  Bytes.records r.elementSize (r.readView.first ++ r.readView.second)

/-- What the free places hold, in the order in which they will be used. -/
def vacant (r : Ring) : List (List UInt8) :=
  Bytes.records r.elementSize (r.writeView.first ++ r.writeView.second)

section Cursors

theorem toNat_written (r : Ring) :
    r.written.toNat = (r.taken.toNat + r.readSpace) % UInt64.size := by
  have written := r.written.toNat_lt
  have taken := r.taken.toNat_lt
  rw [readSpace, UInt64.toNat_sub]
  simp only [UInt64.size]
  omega

theorem WellFormed.written_mod (valid : r.WellFormed) :
    r.written.toNat % r.capacity = (r.taken.toNat + r.readSpace) % r.capacity := by
  rw [toNat_written, Nat.mod_mod_of_dvd _ valid.capacity_dvd]

theorem WellFormed.writeSpace_le (valid : r.WellFormed) : r.writeSpace ≤ r.capacity :=
  Nat.le_trans (Nat.sub_le _ _) valid.limit_le

theorem WellFormed.spaces (valid : r.WellFormed) : r.readSpace + r.writeSpace = r.writeLimit :=
  Nat.add_sub_cancel' valid.readSpace_le

theorem WellFormed.readSpace_commit (valid : r.WellFormed) (count : Nat) :
    (r.commit count).readSpace = r.readSpace + min count r.writeSpace := by
  have small : min count r.writeSpace ≤ r.writeSpace := Nat.min_le_right _ _
  have spaces := valid.spaces
  have limit := valid.limit_le
  have bound := valid.capacity_lt
  have written := r.toNat_written
  have taken := r.taken.toNat_lt
  simp only [commit, readSpace, UInt64.toNat_sub, UInt64.toNat_add, UInt64.toNat_ofNat',
    UInt64.size] at *
  omega

theorem WellFormed.readSpace_release (valid : r.WellFormed) (count : Nat) :
    (r.release count).readSpace = r.readSpace - count := by
  have small : min count r.readSpace ≤ r.readSpace := Nat.min_le_right _ _
  have queued := valid.readSpace_le
  have limit := valid.limit_le
  have bound := valid.capacity_lt
  have written := r.toNat_written
  have taken := r.taken.toNat_lt
  simp only [release, readSpace, UInt64.toNat_sub, UInt64.toNat_add, UInt64.toNat_ofNat',
    UInt64.size] at *
  omega

theorem WellFormed.taken_release_mod (valid : r.WellFormed) (count : Nat) :
    (r.release count).taken.toNat % r.capacity =
      (r.taken.toNat + min count r.readSpace) % r.capacity := by
  have bound := valid.capacity_lt
  have queued := valid.readSpace_le
  have limit := valid.limit_le
  have small : min count r.readSpace % UInt64.size = min count r.readSpace :=
    Nat.mod_eq_of_lt (by omega)
  rw [release, UInt64.toNat_add, UInt64.toNat_ofNat', small,
    Nat.mod_mod_of_dvd _ valid.capacity_dvd]

end Cursors

section Views

theorem WellFormed.queue_eq (valid : r.WellFormed) :
    r.queue = r.elements r.taken.toNat r.readSpace := by
  have loaded := valid.load_spans r.taken (Nat.le_trans valid.readSpace_le valid.limit_le)
  rw [queue, readView, view, queued, loaded, valid.records_elements]

theorem WellFormed.vacant_eq (valid : r.WellFormed) :
    r.vacant = r.elements r.written.toNat r.writeSpace := by
  have loaded := valid.load_spans r.written valid.writeSpace_le
  rw [vacant, writeView, view, free, loaded, valid.records_elements]

theorem WellFormed.length_queue (valid : r.WellFormed) : r.queue.length = r.readSpace := by
  rw [valid.queue_eq, length_elements]

theorem WellFormed.length_vacant (valid : r.WellFormed) : r.vacant.length = r.writeSpace := by
  rw [valid.vacant_eq, length_elements]

/-- A queued element is none of those that may be written, whatever the cursors are. -/
theorem WellFormed.queued_place (valid : r.WellFormed) {k : Nat} (queued : k < r.readSpace) :
    ∃ j, r.writeSpace ≤ j ∧ j < r.capacity ∧
      (r.taken.toNat + k) % r.capacity = (r.written.toNat + j) % r.capacity := by
  have spaces := valid.spaces
  have limit := valid.limit_le
  refine ⟨r.capacity - r.readSpace + k, by omega, by omega, ?_⟩
  rw [Nat.add_mod r.written.toNat, valid.written_mod, ← Nat.add_mod]
  have total : r.taken.toNat + r.readSpace + (r.capacity - r.readSpace + k) =
      r.taken.toNat + k + r.capacity := by omega
  rw [total, Nat.add_mod_right]

/-- A change that keeps the queued elements and both cursors keeps the queue. -/
theorem WellFormed.queue_congr {r' : Ring} (valid : r.WellFormed) (valid' : r'.WellFormed)
    (taken : r'.taken = r.taken) (written : r'.written = r.written)
    (kept : ∀ k < r.readSpace, r'.element (r.taken.toNat + k) = r.element (r.taken.toNat + k)) :
    r'.queue = r.queue := by
  have space : r'.readSpace = r.readSpace := by rw [readSpace, readSpace, taken, written]
  rw [valid.queue_eq, valid'.queue_eq, taken, space]
  exact List.map_congr_left fun k member => kept k (List.mem_range.mp member)

end Views

section Filling
variable {bytes : List UInt8} {count : Nat}

theorem WellFormed.queue_deposit (valid : r.WellFormed) (room : count ≤ r.writeSpace)
    (length : bytes.length = count * r.elementSize) :
    (r.deposit (r.spans r.written count) bytes).queue = r.queue := by
  have bounded := Nat.le_trans room valid.writeSpace_le
  refine valid.queue_congr (valid.deposit r.written bounded length) rfl rfl fun k queued => ?_
  obtain ⟨j, beyond, inside, same⟩ := valid.queued_place queued
  have placed : (r.deposit (r.spans r.written count) bytes).element (r.taken.toNat + k) =
      (r.deposit (r.spans r.written count) bytes).element (r.written.toNat + j) :=
    element_congr same
  rw [placed, valid.element_deposit r.written bounded length inside, if_neg (by omega)]
  exact (element_congr same).symm

theorem WellFormed.elements_deposit (valid : r.WellFormed) (room : count ≤ r.writeSpace)
    (length : bytes.length = count * r.elementSize) :
    (r.deposit (r.spans r.written count) bytes).elements r.written.toNat count =
      Bytes.records r.elementSize bytes := by
  have bounded := Nat.le_trans room valid.writeSpace_le
  have whole : bytes.length / r.elementSize = count := by
    rw [length, Nat.mul_div_cancel _ valid.elementSize_pos]
  rw [Bytes.records_eq_slices valid.elementSize_pos, whole]
  refine List.map_congr_left fun k member => ?_
  have within := List.mem_range.mp member
  rw [valid.element_deposit r.written bounded length (Nat.lt_of_lt_of_le within bounded),
    if_pos within]

/-- Bytes put into either free span are not seen in the queue. -/
theorem WellFormed.queue_store {s : Span} {offset : Nat} (valid : r.WellFormed)
    (region : s = r.free.1 ∨ s = r.free.2)
    (fits : offset + bytes.length ≤ s.count * r.elementSize) :
    (r.store s offset bytes).WellFormed ∧ (r.store s offset bytes).queue = r.queue := by
  have spansInside := spans_inside r r.written valid.writeSpace_le valid.capacity_pos
  have inside : s.start + s.count ≤ r.capacity := by
    rcases region with rfl | rfl
    · exact spansInside.1
    · exact spansInside.2
  have stored := valid.store inside fits
  refine ⟨stored, valid.queue_congr stored rfl rfl fun k queued => ?_⟩
  obtain ⟨j, beyond, bounded, same⟩ := valid.queued_place queued
  have outside := valid.spans_outside r.written beyond bounded
  apply valid.element_store_outside inside fits
  rw [same]
  rcases region with rfl | rfl
  · exact outside.1
  · exact outside.2

/-- A fill that succeeds has stored its bytes in one of the free spans. -/
theorem fill?_eq_some {second : Bool} {offset : Nat} {r' : Ring}
    (filled : r.fill? second offset bytes = some r') :
    ∃ s, (s = r.free.1 ∨ s = r.free.2) ∧ offset + bytes.length ≤ s.count * r.elementSize ∧
      r' = r.store s offset bytes := by
  simp only [fill?, Option.ite_none_right_eq_some, Option.some.injEq] at filled
  obtain ⟨fits, rfl⟩ := filled
  cases second
  · exact ⟨r.free.1, Or.inl rfl, fits, rfl⟩
  · exact ⟨r.free.2, Or.inr rfl, fits, rfl⟩

theorem WellFormed.fill {second : Bool} {offset : Nat} {r' : Ring} (valid : r.WellFormed)
    (filled : r.fill? second offset bytes = some r') : r'.WellFormed ∧ r'.queue = r.queue := by
  obtain ⟨s, region, fits, rfl⟩ := fill?_eq_some filled
  exact valid.queue_store region fits

end Filling

section Cursors

theorem WellFormed.commit (valid : r.WellFormed) (count : Nat) : (r.commit count).WellFormed := by
  have space := valid.readSpace_commit count
  have spaces := valid.spaces
  have small : min count r.writeSpace ≤ r.writeSpace := Nat.min_le_right _ _
  refine ⟨valid.elementSize_pos, valid.capacity_dvd, valid.bytes_lt, valid.limit_le,
    valid.length_storage, ?_⟩
  rw [space]
  change _ ≤ r.writeLimit
  omega

theorem WellFormed.queue_commit (valid : r.WellFormed) (count : Nat) :
    (r.commit count).queue = r.queue ++ r.elements r.written.toNat (min count r.writeSpace) := by
  rw [(valid.commit count).queue_eq, valid.readSpace_commit, valid.queue_eq]
  change r.elements _ _ = _
  rw [elements_add]
  exact congrArg _ (elements_congr valid.written_mod _).symm

theorem WellFormed.release (valid : r.WellFormed) (count : Nat) :
    (r.release count).WellFormed := by
  refine ⟨valid.elementSize_pos, valid.capacity_dvd, valid.bytes_lt, valid.limit_le,
    valid.length_storage, ?_⟩
  rw [valid.readSpace_release]
  exact Nat.le_trans (Nat.sub_le _ _) valid.readSpace_le

theorem WellFormed.queue_release (valid : r.WellFormed) (count : Nat) :
    (r.release count).queue = r.queue.drop count := by
  rw [(valid.release count).queue_eq, valid.readSpace_release, valid.queue_eq]
  change r.elements _ _ = _
  rw [elements_congr (valid.taken_release_mod count)]
  by_cases enough : count ≤ r.readSpace
  · rw [drop_elements r enough, Nat.min_eq_left enough]
  · rw [List.drop_of_length_le (by rw [length_elements]; omega),
      Nat.sub_eq_zero_of_le (by omega)]
    rfl

@[simp] theorem readSpace_reset (r : Ring) : r.reset.readSpace = 0 := by
  simp [readSpace, reset]

theorem WellFormed.reset (valid : r.WellFormed) : r.reset.WellFormed :=
  ⟨valid.elementSize_pos, valid.capacity_dvd, valid.bytes_lt, valid.limit_le,
    valid.length_storage, by simp⟩

theorem WellFormed.queue_reset (valid : r.WellFormed) : r.reset.queue = [] := by
  rw [valid.reset.queue_eq, readSpace_reset]
  rfl

end Cursors

section Copies
variable {source target : List UInt8}

/-- How many elements a copy from bytes can move, given the room there is. -/
def copied (r : Ring) (bytes : List UInt8) (room : Nat) : Nat :=
  min (bytes.length / r.elementSize) room

theorem WellFormed.length_whole (valid : r.WellFormed) (source : List UInt8) (room : Nat) :
    (source.take (r.copied source room * r.elementSize)).length =
      r.copied source room * r.elementSize := by
  have le : r.copied source room ≤ source.length / r.elementSize := Nat.min_le_left _ _
  have bytes := (Nat.le_div_iff_mul_le valid.elementSize_pos).mp le
  rw [List.length_take, Nat.min_eq_left bytes]

theorem WellFormed.records_whole (valid : r.WellFormed) (source : List UInt8) (room : Nat) :
    Bytes.records r.elementSize (source.take (r.copied source room * r.elementSize)) =
      (Bytes.records r.elementSize source).take (r.copied source room) := by
  have le : r.copied source room ≤ source.length / r.elementSize := Nat.min_le_left _ _
  have whole := valid.length_whole source room
  rw [Bytes.take_records valid.elementSize_pos le, Bytes.records_eq_slices valid.elementSize_pos,
    whole, Nat.mul_div_cancel _ valid.elementSize_pos]
  refine List.map_congr_left fun k member => ?_
  have slice := Nat.mul_le_mul_right r.elementSize
    (Nat.succ_le_of_lt (List.mem_range.mp member))
  rw [Nat.succ_mul] at slice
  rw [List.drop_take, List.take_take, Nat.min_eq_left (by omega)]

theorem write_eq (r : Ring) (source : List UInt8) :
    r.write source = (r.copied source r.writeSpace,
      (r.deposit (r.spans r.written (r.copied source r.writeSpace))
        (source.take (r.copied source r.writeSpace * r.elementSize))).commit
          (r.copied source r.writeSpace)) :=
  rfl

theorem WellFormed.write (valid : r.WellFormed) (source : List UInt8) :
    (r.write source).2.WellFormed ∧
      (r.write source).2.queue =
        r.queue ++ (Bytes.records r.elementSize source).take (r.write source).1 := by
  have room : r.copied source r.writeSpace ≤ r.writeSpace := Nat.min_le_right _ _
  have length := valid.length_whole source r.writeSpace
  have stored := valid.deposit r.written (Nat.le_trans room valid.writeSpace_le) length
  rw [write_eq]
  refine ⟨stored.commit _, ?_⟩
  rw [stored.queue_commit, valid.queue_deposit room length]
  change r.queue ++ Ring.elements _ r.written.toNat (min _ r.writeSpace) = _
  rw [Nat.min_eq_left room, valid.elements_deposit room length, valid.records_whole]

theorem WellFormed.size_writeView (valid : r.WellFormed) : r.writeView.size = r.writeSpace := by
  have loaded := congrArg List.length (valid.load_spans r.written valid.writeSpace_le)
  rw [List.length_append, valid.length_flatten_elements] at loaded
  change ((r.load r.free.1).length + (r.load r.free.2).length) / r.elementSize = _
  rw [free, loaded, Nat.mul_div_cancel _ valid.elementSize_pos]

theorem WellFormed.length_load (valid : r.WellFormed) {s : Span}
    (inside : s.start + s.count ≤ r.capacity) : (r.load s).length = s.count * r.elementSize := by
  rw [load_eq_elements r inside, valid.length_flatten_elements]

/-- Copying in place puts bytes where writing the same elements would. -/
theorem WellFormed.copyFrom_eq (valid : r.WellFormed) (source : List UInt8) :
    r.copyFrom source = (r.copied source r.writeSpace,
      r.deposit (r.spans r.written (r.copied source r.writeSpace))
        (source.take (r.copied source r.writeSpace * r.elementSize))) := by
  have room : r.copied source r.writeSpace ≤ r.writeSpace := Nat.min_le_right _ _
  have inside := (spans_inside r r.written valid.writeSpace_le valid.capacity_pos).1
  have first : r.writeView.first.length = r.free.1.count * r.elementSize := valid.length_load inside
  have length := valid.length_whole source r.writeSpace
  rw [← deposit_spans_of_le r r.written room length]
  simp only [copyFrom, first, valid.size_writeView]
  change (r.copied source r.writeSpace, (r.store r.free.1 0 (source.take
    (min (r.copied source r.writeSpace * r.elementSize) (r.free.1.count * r.elementSize)))).store
      r.free.2 0 ((source.take (r.copied source r.writeSpace * r.elementSize)).drop
        (min (r.copied source r.writeSpace * r.elementSize) (r.free.1.count * r.elementSize)))) =
    (_, r.deposit r.free _)
  have dropped : (source.take (r.copied source r.writeSpace * r.elementSize)).drop
      (min (r.copied source r.writeSpace * r.elementSize) (r.free.1.count * r.elementSize)) =
      (source.take (r.copied source r.writeSpace * r.elementSize)).drop
        (r.free.1.count * r.elementSize) := by
    rcases Nat.le_total (r.free.1.count * r.elementSize)
        (r.copied source r.writeSpace * r.elementSize) with le | le
    · rw [Nat.min_eq_right le]
    · rw [Nat.min_eq_left le, List.drop_of_length_le (by omega), List.drop_of_length_le (by omega)]
  rw [dropped, Ring.deposit, List.take_take, Nat.min_comm]

theorem WellFormed.copyFrom (valid : r.WellFormed) (source : List UInt8) :
    (r.copyFrom source).2.WellFormed ∧ (r.copyFrom source).2.queue = r.queue := by
  have room : r.copied source r.writeSpace ≤ r.writeSpace := Nat.min_le_right _ _
  have length := valid.length_whole source r.writeSpace
  rw [valid.copyFrom_eq]
  exact ⟨valid.deposit r.written (Nat.le_trans room valid.writeSpace_le) length,
    valid.queue_deposit room length⟩

theorem WellFormed.peek (valid : r.WellFormed) (target : List UInt8) :
    r.peek target = (r.copied target r.readSpace,
      (r.queue.take (r.copied target r.readSpace)).flatten ++
        target.drop (r.copied target r.readSpace * r.elementSize)) := by
  have available : r.copied target r.readSpace ≤ r.readSpace := Nat.min_le_right _ _
  have bounded := Nat.le_trans (Nat.le_trans available valid.readSpace_le) valid.limit_le
  rw [valid.queue_eq, take_elements r available, ← valid.load_spans r.taken bounded]
  rfl

end Copies

end RealtimeAudio.Ring
