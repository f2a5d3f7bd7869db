import RealtimeAudio.Proofs.Ring.Records
import RealtimeAudio.Ring.Transfer

/-! Where the elements of a ring lie. Elements are numbered for ever and their places repeat
after the capacity, so a run of at most a capacity's elements meets no place twice; the two
spans of the run hold just its elements, in order. -/
namespace RealtimeAudio.Ring

/-- What every operation keeps. -/
structure WellFormed (r : Ring) : Prop where
  elementSize_pos : 0 < r.elementSize
  /-- The capacity is a power of two that fits a word, so cursors may wrap at the word size. -/
  capacity_dvd : r.capacity ∣ UInt64.size
  bytes_lt : r.capacity * r.elementSize < UInt64.size / 2
  limit_le : r.writeLimit ≤ r.capacity
  length_storage : r.storage.length = r.capacity * r.elementSize
  readSpace_le : r.readSpace ≤ r.writeLimit

def element (r : Ring) (n : Nat) : List UInt8 := r.load ⟨n % r.capacity, 1⟩

def elements (r : Ring) (n count : Nat) : List (List UInt8) :=
  (List.range count).map fun k => r.element (n + k)

def Outside (s : Span) (place : Nat) : Prop := place < s.start ∨ s.start + s.count ≤ place

/-- Bytes put into a region: as many as go into the first span, then the others. -/
def deposit (r : Ring) (region : Span × Span) (bytes : List UInt8) : Ring :=
  (r.store region.1 0 (bytes.take (region.1.count * r.elementSize))).store region.2 0
    (bytes.drop (region.1.count * r.elementSize))

variable {r : Ring}

section Slices
variable {α : Type} {xs ys : List α} {position start count : Nat}

theorem slice_patch_outside (fits : position + ys.length ≤ xs.length)
    (outside : start + count ≤ position ∨ position + ys.length ≤ start) :
    ((xs.take position ++ ys ++ xs.drop (position + ys.length)).drop start).take count =
      (xs.drop start).take count := by
  apply List.ext_getElem?
  intro i
  simp only [List.getElem?_take, List.getElem?_drop, List.getElem?_append, List.length_append,
    List.length_take]
  grind

theorem slice_patch_inside (fits : position + ys.length ≤ xs.length) (lower : position ≤ start)
    (upper : start + count ≤ position + ys.length) :
    ((xs.take position ++ ys ++ xs.drop (position + ys.length)).drop start).take count =
      (ys.drop (start - position)).take count := by
  apply List.ext_getElem?
  intro i
  simp only [List.getElem?_take, List.getElem?_drop, List.getElem?_append, List.length_append,
    List.length_take]
  grind

end Slices

section Elements

theorem element_congr {m n : Nat} (same : m % r.capacity = n % r.capacity) :
    r.element m = r.element n := by
  rw [element, element, same]

theorem elements_congr {m n : Nat} (same : m % r.capacity = n % r.capacity) (count : Nat) :
    r.elements m count = r.elements n count := by
  refine List.map_congr_left fun k _ => element_congr ?_
  rw [Nat.add_mod, same, ← Nat.add_mod]

@[simp] theorem length_elements (r : Ring) (n count : Nat) :
    (r.elements n count).length = count := by
  simp [elements]

theorem elements_add (r : Ring) (n first second : Nat) :
    r.elements n (first + second) = r.elements n first ++ r.elements (n + first) second := by
  simp only [elements, List.range_add, List.map_append, List.map_map, Function.comp_def,
    Nat.add_assoc]

theorem take_elements (r : Ring) {n count fewer : Nat} (enough : fewer ≤ count) :
    (r.elements n count).take fewer = r.elements n fewer := by
  rw [elements, ← List.map_take, List.take_range, Nat.min_eq_left enough, elements]

theorem drop_elements (r : Ring) {n count fewer : Nat} (enough : fewer ≤ count) :
    (r.elements n count).drop fewer = r.elements (n + fewer) (count - fewer) := by
  obtain ⟨rest, rfl⟩ := Nat.exists_eq_add_of_le enough
  rw [elements_add, List.drop_left' (length_elements r n fewer), Nat.add_sub_cancel_left]

end Elements

namespace WellFormed

theorem capacity_pos (valid : r.WellFormed) : 0 < r.capacity :=
  Nat.pos_of_dvd_of_pos valid.capacity_dvd (by decide)

theorem capacity_lt (valid : r.WellFormed) : r.capacity < UInt64.size := by
  have := Nat.le_mul_of_pos_right r.capacity valid.elementSize_pos
  have := valid.bytes_lt
  have : UInt64.size / 2 < UInt64.size := by decide
  omega

theorem length_element (valid : r.WellFormed) (n : Nat) :
    (r.element n).length = r.elementSize := by
  have place : n % r.capacity + 1 ≤ r.capacity := Nat.mod_lt n valid.capacity_pos
  have room := Nat.mul_le_mul_right r.elementSize place
  rw [Nat.add_mul, Nat.one_mul] at room
  simp only [element, load, List.length_take, List.length_drop, valid.length_storage]
  omega

theorem records_elements (valid : r.WellFormed) (n count : Nat) :
    Bytes.records r.elementSize (r.elements n count).flatten = r.elements n count := by
  apply Bytes.records_flatten valid.elementSize_pos
  intro part member
  obtain ⟨k, -, rfl⟩ := List.mem_map.mp member
  exact valid.length_element _

theorem length_flatten_elements (valid : r.WellFormed) (n count : Nat) :
    (r.elements n count).flatten.length = count * r.elementSize := by
  induction count with
  | zero => simp [elements]
  | succ count ih =>
    rw [elements_add, List.flatten_append, List.length_append, ih]
    simp [elements, valid.length_element, Nat.add_mul]

theorem take_flatten_elements (valid : r.WellFormed) (n : Nat) {count fewer : Nat}
    (enough : fewer ≤ count) :
    (r.elements n count).flatten.take (fewer * r.elementSize) = (r.elements n fewer).flatten := by
  obtain ⟨rest, rfl⟩ := Nat.exists_eq_add_of_le enough
  rw [elements_add, List.flatten_append,
    List.take_left' (valid.length_flatten_elements n fewer)]

end WellFormed

section Spans

theorem load_add (r : Ring) (start first second : Nat) :
    r.load ⟨start, first + second⟩ = r.load ⟨start, first⟩ ++ r.load ⟨start + first, second⟩ := by
  simp only [load, Nat.add_mul, List.take_add, List.drop_drop]

/-- A span that stays inside the store holds its elements one after the other. -/
theorem load_eq_elements (r : Ring) {start count : Nat} (inside : start + count ≤ r.capacity) :
    r.load ⟨start, count⟩ = (r.elements start count).flatten := by
  induction count with
  | zero => simp [load, elements]
  | succ count ih =>
    have place : (start + count) % r.capacity = start + count := Nat.mod_eq_of_lt (by omega)
    rw [load_add, ih (by omega), elements_add, List.flatten_append]
    simp [elements, element, place]

/-- The two spans of a run hold the run's elements, also where it wraps. -/
theorem WellFormed.load_spans (valid : r.WellFormed) (cursor : UInt64) {count : Nat}
    (bounded : count ≤ r.capacity) :
    r.load (r.spans cursor count).1 ++ r.load (r.spans cursor count).2 =
      (r.elements cursor.toNat count).flatten := by
  have bound := Nat.mod_lt cursor.toNat valid.capacity_pos
  rw [← elements_congr (Nat.mod_mod cursor.toNat r.capacity)]
  unfold spans
  generalize cursor.toNat % r.capacity = start at bound ⊢
  dsimp only
  split
  · rename_i wraps
    obtain ⟨rest, rfl⟩ := Nat.exists_eq_add_of_le (Nat.le_of_lt wraps)
    have wrapped : (start + (r.capacity - start)) % r.capacity = 0 % r.capacity := by
      rw [Nat.add_sub_cancel' (Nat.le_of_lt bound), Nat.mod_self, Nat.zero_mod]
    rw [Nat.add_sub_cancel_left, load_eq_elements r (by omega), load_eq_elements r (by omega),
      elements_add, elements_congr wrapped, List.flatten_append]
  · rw [load_eq_elements r (by omega)]
    simp [load]

theorem WellFormed.place_add (valid : r.WellFormed) (n : Nat) {k : Nat} (bounded : k < r.capacity) :
    (n + k) % r.capacity =
      if n % r.capacity + k < r.capacity then n % r.capacity + k
      else n % r.capacity + k - r.capacity := by
  have bound := Nat.mod_lt n valid.capacity_pos
  rw [Nat.add_mod, Nat.mod_eq_of_lt bounded]
  split
  · rename_i inside
    exact Nat.mod_eq_of_lt inside
  · rw [Nat.mod_eq_sub_mod (by omega), Nat.mod_eq_of_lt (by omega)]

theorem spans_inside (r : Ring) (cursor : UInt64) {count : Nat} (bounded : count ≤ r.capacity)
    (positive : 0 < r.capacity) :
    (r.spans cursor count).1.start + (r.spans cursor count).1.count ≤ r.capacity ∧
      (r.spans cursor count).2.start + (r.spans cursor count).2.count ≤ r.capacity := by
  have bound := Nat.mod_lt cursor.toNat positive
  unfold spans
  dsimp only
  split <;> dsimp only <;> omega

/-- The elements of the capacity that follow a run lie outside its spans. -/
theorem WellFormed.spans_outside (valid : r.WellFormed) (cursor : UInt64) {count k : Nat}
    (after : count ≤ k) (bounded : k < r.capacity) :
    Outside (r.spans cursor count).1 ((cursor.toNat + k) % r.capacity) ∧
      Outside (r.spans cursor count).2 ((cursor.toNat + k) % r.capacity) := by
  have bound := Nat.mod_lt cursor.toNat valid.capacity_pos
  rw [valid.place_add cursor.toNat bounded]
  unfold spans Outside
  dsimp only
  split <;> split <;> dsimp only <;> omega

theorem WellFormed.spans_place (valid : r.WellFormed) (cursor : UInt64) {count k : Nat}
    (bounded : count ≤ r.capacity) (within : k < count) :
    ((r.spans cursor count).1.start ≤ (cursor.toNat + k) % r.capacity ∧
      (cursor.toNat + k) % r.capacity <
        (r.spans cursor count).1.start + (r.spans cursor count).1.count ∧
      (cursor.toNat + k) % r.capacity - (r.spans cursor count).1.start = k ∧
      Outside (r.spans cursor count).2 ((cursor.toNat + k) % r.capacity)) ∨
    ((r.spans cursor count).2.start ≤ (cursor.toNat + k) % r.capacity ∧
      (cursor.toNat + k) % r.capacity <
        (r.spans cursor count).2.start + (r.spans cursor count).2.count ∧
      (r.spans cursor count).1.count +
        ((cursor.toNat + k) % r.capacity - (r.spans cursor count).2.start) = k) := by
  have bound := Nat.mod_lt cursor.toNat valid.capacity_pos
  rw [valid.place_add cursor.toNat (Nat.lt_of_lt_of_le within bounded)]
  unfold spans Outside
  dsimp only
  split <;> split <;> dsimp only <;> omega

end Spans

section Stores
variable {s : Span} {offset n : Nat} {bytes : List UInt8}

@[simp] theorem store_capacity : (r.store s offset bytes).capacity = r.capacity := rfl
@[simp] theorem store_elementSize : (r.store s offset bytes).elementSize = r.elementSize := rfl
@[simp] theorem store_writeLimit : (r.store s offset bytes).writeLimit = r.writeLimit := rfl
@[simp] theorem store_written : (r.store s offset bytes).written = r.written := rfl
@[simp] theorem store_taken : (r.store s offset bytes).taken = r.taken := rfl
@[simp] theorem store_readSpace : (r.store s offset bytes).readSpace = r.readSpace := rfl

theorem store_nil : r.store s offset [] = r := by
  simp [store]

/-- Bytes that stay inside a span stay inside the store. -/
theorem WellFormed.store_fits (valid : r.WellFormed) (inside : s.start + s.count ≤ r.capacity)
    (fits : offset + bytes.length ≤ s.count * r.elementSize) :
    s.start * r.elementSize + offset + bytes.length ≤ r.storage.length := by
  have room := Nat.mul_le_mul_right r.elementSize inside
  rw [Nat.add_mul] at room
  rw [valid.length_storage]
  omega

theorem WellFormed.store (valid : r.WellFormed) (inside : s.start + s.count ≤ r.capacity)
    (fits : offset + bytes.length ≤ s.count * r.elementSize) :
    (r.store s offset bytes).WellFormed := by
  refine ⟨valid.elementSize_pos, valid.capacity_dvd, valid.bytes_lt, valid.limit_le, ?_,
    valid.readSpace_le⟩
  have room := valid.store_fits inside fits
  have size := valid.length_storage
  simp only [Ring.store, List.length_append, List.length_take, List.length_drop]
  omega

/-- Filling a span leaves the elements outside it alone. -/
theorem WellFormed.element_store_outside (valid : r.WellFormed)
    (inside : s.start + s.count ≤ r.capacity)
    (fits : offset + bytes.length ≤ s.count * r.elementSize)
    (outside : Outside s (n % r.capacity)) :
    (r.store s offset bytes).element n = r.element n := by
  apply slice_patch_outside (valid.store_fits inside fits)
  simp only [store_elementSize, store_capacity, Nat.one_mul]
  rcases outside with before | after
  · have room := Nat.mul_le_mul_right r.elementSize (Nat.succ_le_of_lt before)
    rw [Nat.succ_mul] at room
    exact Or.inl (by omega)
  · have room := Nat.mul_le_mul_right r.elementSize after
    rw [Nat.add_mul] at room
    exact Or.inr (by omega)

/-- Filling the first elements of a span puts the bytes' records there. -/
theorem WellFormed.element_store_inside (valid : r.WellFormed)
    (inside : s.start + s.count ≤ r.capacity)
    (exact : bytes.length = s.count * r.elementSize)
    (lower : s.start ≤ n % r.capacity) (upper : n % r.capacity < s.start + s.count) :
    (r.store s 0 bytes).element n =
      (bytes.drop ((n % r.capacity - s.start) * r.elementSize)).take r.elementSize := by
  have first := Nat.mul_le_mul_right r.elementSize lower
  have last := Nat.mul_le_mul_right r.elementSize (Nat.succ_le_of_lt upper)
  rw [Nat.succ_mul, Nat.add_mul] at last
  have fits : s.start * r.elementSize + bytes.length ≤ r.storage.length := by
    have room := Nat.mul_le_mul_right r.elementSize inside
    rw [Nat.add_mul] at room
    rw [valid.length_storage]
    omega
  have within : n % r.capacity * r.elementSize + r.elementSize ≤
      s.start * r.elementSize + bytes.length := by omega
  have patched := slice_patch_inside fits first within
  rw [← Nat.sub_mul] at patched
  simpa only [element, load, Ring.store, Nat.one_mul, Nat.add_zero] using patched

end Stores

section Deposits
variable {bytes : List UInt8} {count k : Nat}

/-- Bytes go to the same places through a longer run of spans. -/
theorem deposit_spans_of_le (r : Ring) (cursor : UInt64) {longer : Nat} (le : count ≤ longer)
    (length : bytes.length = count * r.elementSize) :
    r.deposit (r.spans cursor longer) bytes = r.deposit (r.spans cursor count) bytes := by
  unfold spans
  generalize cursor.toNat % r.capacity = start
  have short : ∀ n, count ≤ n → bytes.take (n * r.elementSize) = bytes ∧
      bytes.drop (n * r.elementSize) = [] := by
    intro n le
    have := Nat.mul_le_mul_right r.elementSize le
    exact ⟨List.take_of_length_le (by omega), List.drop_of_length_le (by omega)⟩
  dsimp only
  split
  · split
    · rfl
    · have fits := short (r.capacity - start) (by omega)
      have whole := short count (Nat.le_refl _)
      simp only [deposit, fits.1, fits.2, whole.1, whole.2, store_nil]
      rfl
  · rw [if_neg (by omega)]
    have fits := short longer le
    have whole := short count (Nat.le_refl _)
    simp only [deposit, fits.1, fits.2, whole.1, whole.2, store_nil]
    rfl

theorem deposit_fits (r : Ring) (cursor : UInt64) (length : bytes.length = count * r.elementSize) :
    (bytes.take ((r.spans cursor count).1.count * r.elementSize)).length =
        (r.spans cursor count).1.count * r.elementSize ∧
      (bytes.drop ((r.spans cursor count).1.count * r.elementSize)).length =
        (r.spans cursor count).2.count * r.elementSize := by
  unfold spans
  generalize cursor.toNat % r.capacity = start
  rw [List.length_take, List.length_drop, length]
  dsimp only
  split
  · rename_i wraps
    have head := Nat.mul_le_mul_right r.elementSize (Nat.le_of_lt wraps)
    exact ⟨Nat.min_eq_left head, (Nat.sub_mul _ _ _).symm⟩
  · simp

theorem WellFormed.deposit (valid : r.WellFormed) (cursor : UInt64)
    (bounded : count ≤ r.capacity) (length : bytes.length = count * r.elementSize) :
    (r.deposit (r.spans cursor count) bytes).WellFormed := by
  have inside := spans_inside r cursor bounded valid.capacity_pos
  have fits := deposit_fits r cursor length
  exact (valid.store inside.1 (by omega)).store inside.2 (by rw [store_elementSize]; omega)

/-- The bytes of a run become its elements; the rest of the capacity stays. -/
theorem WellFormed.element_deposit (valid : r.WellFormed) (cursor : UInt64)
    (bounded : count ≤ r.capacity) (length : bytes.length = count * r.elementSize)
    (inside : k < r.capacity) :
    (r.deposit (r.spans cursor count) bytes).element (cursor.toNat + k) =
      if k < count then (bytes.drop (k * r.elementSize)).take r.elementSize
      else r.element (cursor.toNat + k) := by
  have spansInside := spans_inside r cursor bounded valid.capacity_pos
  have fits := deposit_fits r cursor length
  have placed := valid.spans_place cursor (k := k) bounded
  have after : count ≤ k → k < r.capacity →
      Outside (r.spans cursor count).1 ((cursor.toNat + k) % r.capacity) ∧
        Outside (r.spans cursor count).2 ((cursor.toNat + k) % r.capacity) :=
    valid.spans_outside cursor
  generalize (cursor.toNat + k) = n at placed after ⊢
  generalize r.spans cursor count = region at fits spansInside placed after ⊢
  have head := Nat.le_of_eq ((Nat.zero_add _).trans fits.1)
  have tail := Nat.le_of_eq ((Nat.zero_add _).trans fits.2)
  have stored := valid.store spansInside.1 head
  have kept := stored.element_store_outside (n := n) spansInside.2 tail
  split
  · rename_i within
    obtain ⟨lower, upper, number, outside⟩ | ⟨lower, upper, number⟩ := placed within
    · have room := Nat.mul_le_mul_right r.elementSize (show k + 1 ≤ region.1.count by omega)
      rw [Nat.succ_mul] at room
      rw [Ring.deposit, kept outside, valid.element_store_inside spansInside.1 fits.1 lower upper,
        number, List.drop_take, List.take_take, Nat.min_eq_left (by omega)]
    · rw [Ring.deposit, stored.element_store_inside spansInside.2 fits.2 lower upper,
        List.drop_drop, store_elementSize, store_capacity, ← Nat.add_mul, number]
  · rename_i beyond
    have outside := after (Nat.le_of_not_lt beyond) inside
    rw [Ring.deposit, kept outside.2]
    exact valid.element_store_outside spansInside.1 head outside.1

end Deposits

end RealtimeAudio.Ring
