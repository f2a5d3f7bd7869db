import Mathlib.Algebra.Group.Nat.Defs
import Mathlib.Order.Bounds.Basic
import RealtimeAudio.Proofs.Ring.Run

/-! How a request for a ring is answered. The capacity is the least power of two above the number of
elements asked for. Adding one, rounding up and multiplying are each refused where they leave the
word, and the product already where it leaves half the address space; taken together they refuse just
the capacities and the sizes that are too large, as unbounded numbers. What is left is a question of
whether the store can be had. -/
namespace RealtimeAudio.Ring

/-- The places of a ring for so many elements, be they too many or not. -/
def IsCapacity (elements capacity : Nat) : Prop :=
  IsLeast {n | elements < n ∧ ∃ k, n = 2 ^ k} capacity

/-- More places than a word counts, or more bytes than a store may have. -/
def TooLarge (capacity elementSize : Nat) : Prop :=
  2 ^ 64 - 1 < capacity ∨ 2 ^ 63 - 1 < capacity * elementSize

instance (capacity elementSize : Nat) : Decidable (TooLarge capacity elementSize) :=
  inferInstanceAs (Decidable (_ ∨ _))

/-- An empty ring, its store zeroed. -/
def vacantRing (capacity elementSize : Nat) (reserve : Bool) : Ring where
  capacity := capacity
  elementSize := elementSize
  writeLimit := if reserve then capacity - 1 else capacity
  written := 0
  taken := 0
  storage := List.replicate (capacity * elementSize) 0

section Capacity
variable {elements capacity elementSize : Nat}

theorem isCapacity_zero : IsCapacity 0 1 :=
  ⟨⟨Nat.one_pos, 0, rfl⟩, fun _ above => above.1⟩

theorem isCapacity_log2 (some : elements ≠ 0) : IsCapacity elements (2 ^ (elements.log2 + 1)) := by
  refine ⟨⟨Nat.lt_log2_self, _, rfl⟩, ?_⟩
  rintro n ⟨above, k, rfl⟩
  have less : elements.log2 < k := (Nat.log2_lt some).mpr above
  exact Nat.pow_le_pow_right (by decide) less

theorem exists_isCapacity (elements : Nat) : ∃ capacity, IsCapacity elements capacity := by
  rcases Nat.eq_zero_or_pos elements with rfl | some
  · exact ⟨1, isCapacity_zero⟩
  · exact ⟨_, isCapacity_log2 some.ne'⟩

theorem powerOfTwoFrom?_eq (isCapacity : IsCapacity elements capacity) :
    powerOfTwoFrom? (elements + 1) = if capacity < UInt64.size then some capacity else none := by
  rcases Nat.eq_zero_or_pos elements with rfl | some
  · simp [powerOfTwoFrom?, isCapacity.unique isCapacity_zero]
  · have power := isCapacity.unique (isCapacity_log2 some.ne')
    simp [powerOfTwoFrom?, power, some.ne']

/-- One more than a word holds is asked for only where the capacity is too large as well. -/
theorem capacityFor?_eq (isCapacity : IsCapacity elements capacity) :
    capacityFor? elements = if capacity < UInt64.size then some capacity else none := by
  have above : elements < capacity := isCapacity.1.1
  simp only [capacityFor?, addWord?]
  by_cases fits : elements + 1 < UInt64.size
  · simpa [fits] using powerOfTwoFrom?_eq isCapacity
  · have large : ¬capacity < UInt64.size := by omega
    simp [fits, large]

theorem bytesFor?_eq : bytesFor? capacity elementSize =
    if capacity * elementSize < UInt64.size / 2 then some (capacity * elementSize) else none := by
  split
  · rename_i small
    exact bytesFor?_eq_some.mpr ⟨rfl, small⟩
  · rename_i large
    refine Option.eq_none_iff_forall_ne_some.mpr fun bytes found => large ?_
    obtain ⟨rfl, small⟩ := bytesFor?_eq_some.mp found
    exact small

/-- The capacity at most doubles what was asked for. -/
theorem IsCapacity.le_double (isCapacity : IsCapacity elements capacity) (some : elements ≠ 0) :
    capacity ≤ 2 * elements := by
  have least := Nat.log2_self_le some
  have power := isCapacity.unique (isCapacity_log2 some)
  rw [power, Nat.pow_succ]
  omega

end Capacity

/-- How a request is answered, with its capacity as an unbounded number. -/
structure Decides (granted : Nat → Bool) (elements elementSize : Nat) (reserve : Bool)
    (capacity : Nat) (answer : Except Fault Ring) : Prop where
  above : elements < capacity
  le_double : elements ≠ 0 → capacity ≤ 2 * elements
  misconfigured : ∀ cause, answer = .error (.misconfigured cause) ↔
    (elements = 0 ∨ elementSize = 0) ∧ cause = .emptyRing elements elementSize
  capacityOverflow : ∀ requested size, answer = .error (.capacityOverflow requested size) ↔
    ¬(elements = 0 ∨ elementSize = 0) ∧ TooLarge capacity elementSize ∧
      requested = elements ∧ size = elementSize
  allocation : ∀ bytes, answer = .error (.allocation bytes) ↔
    ¬(elements = 0 ∨ elementSize = 0) ∧ ¬TooLarge capacity elementSize ∧
      granted (capacity * elementSize) = false ∧ bytes = capacity * elementSize
  made : ∀ r, answer = .ok r ↔
    ¬(elements = 0 ∨ elementSize = 0) ∧ ¬TooLarge capacity elementSize ∧
      granted (capacity * elementSize) = true ∧ r = vacantRing capacity elementSize reserve
  empty : ∀ r, answer = .ok r → r.queue = [] ∧ r.writeSpace = r.writeLimit
  /-- What was asked for fits at once. -/
  room : ∀ r, answer = .ok r → elements ≤ r.writeLimit ∧
    ∀ source, source.length = elements * elementSize → (r.write source).1 = elements

section Answer
variable {granted : Nat → Bool} {elements elementSize capacity : Nat} {reserve : Bool}

/-- The steps of a request as one case distinction. -/
theorem create_eq (isCapacity : IsCapacity elements capacity) :
    create granted elements elementSize reserve =
      if elements = 0 ∨ elementSize = 0 then
        .error (.misconfigured (.emptyRing elements elementSize))
      else if TooLarge capacity elementSize then .error (.capacityOverflow elements elementSize)
      else if granted (capacity * elementSize) then .ok (vacantRing capacity elementSize reserve)
      else .error (.allocation (capacity * elementSize)) := by
  have limits : TooLarge capacity elementSize ↔
      ¬capacity < UInt64.size ∨ ¬capacity * elementSize < UInt64.size / 2 := by
    simp only [TooLarge, UInt64.size]
    omega
  simp only [create, capacityFor?_eq isCapacity, bytesFor?_eq, limits, bind, Except.bind, throw,
    throwThe, MonadExceptOf.throw]
  by_cases fits : capacity < UInt64.size
  · by_cases small : capacity * elementSize < UInt64.size / 2
    · cases had : granted (capacity * elementSize) <;>
        simp [fits, small, had, vacantRing, pure, Except.pure]
    · simp [fits, small]
  · simp [fits]

theorem writeSpace_vacantRing (capacity elementSize : Nat) (reserve : Bool) :
    (vacantRing capacity elementSize reserve).writeSpace =
      (vacantRing capacity elementSize reserve).writeLimit := by
  simp [writeSpace, readSpace, vacantRing]

/-- Elements and one more place leave room for the elements in either mode. -/
theorem le_writeLimit_vacantRing (above : elements < capacity) :
    elements ≤ (vacantRing capacity elementSize reserve).writeLimit := by
  cases reserve <;> simp only [vacantRing] <;> grind

theorem write_vacantRing (above : elements < capacity) (some : elementSize ≠ 0)
    {source : List UInt8} (size : source.length = elements * elementSize) :
    ((vacantRing capacity elementSize reserve).write source).1 = elements := by
  have room : elements ≤ (vacantRing capacity elementSize reserve).writeSpace := by
    rw [writeSpace_vacantRing]
    exact le_writeLimit_vacantRing above
  have whole : source.length / elementSize = elements := by
    rw [size, Nat.mul_div_cancel elements (Nat.pos_of_ne_zero some)]
  have count : ((vacantRing capacity elementSize reserve).write source).1 =
      min (source.length / elementSize) (vacantRing capacity elementSize reserve).writeSpace := rfl
  rw [count, whole, Nat.min_eq_left room]

/-- A request is refused as empty, as too large or for want of storage just where it is so, and
otherwise makes an empty ring of exactly the capacity that it stands for. -/
theorem create_decides (granted : Nat → Bool) (elements elementSize : Nat) (reserve : Bool) :
    ∃ capacity, IsCapacity elements capacity ∧ Decides granted elements elementSize reserve capacity
      (create granted elements elementSize reserve) := by
  obtain ⟨capacity, isCapacity⟩ := exists_isCapacity elements
  have answer : create granted elements elementSize reserve = _ := create_eq isCapacity
  have made : ∀ r, create granted elements elementSize reserve = .ok r ↔
      ¬(elements = 0 ∨ elementSize = 0) ∧ ¬TooLarge capacity elementSize ∧
        granted (capacity * elementSize) = true ∧
        r = vacantRing capacity elementSize reserve := by
    intro r
    rw [answer]
    split_ifs <;> simp [*, eq_comm (a := r)]
  refine ⟨capacity, isCapacity, ?_⟩
  constructor
  case above => exact isCapacity.1.1
  case le_double => exact isCapacity.le_double
  case misconfigured =>
    intro cause
    rw [answer]
    split_ifs <;> simp [*, eq_comm (a := cause)]
  case capacityOverflow =>
    intro requested size
    rw [answer]
    split_ifs <;> simp [*, eq_comm (a := requested), eq_comm (a := size)]
  case allocation =>
    intro bytes
    rw [answer]
    split_ifs <;> simp [*, eq_comm (a := bytes)]
  case made => exact made
  case empty =>
    intro r got
    obtain ⟨-, -, -, rfl⟩ := (made r).mp got
    exact ⟨(wellFormed_create got).queue_reset, writeSpace_vacantRing _ _ _⟩
  case room =>
    intro r got
    obtain ⟨some, -, -, rfl⟩ := (made r).mp got
    exact ⟨le_writeLimit_vacantRing isCapacity.1.1, fun source size =>
      write_vacantRing isCapacity.1.1 (not_or.mp some).2 size⟩

end Answer

end RealtimeAudio.Ring
