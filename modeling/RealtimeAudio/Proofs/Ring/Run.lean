import RealtimeAudio.Proofs.Ring.Queue

/-! Everything that can be done with a ring, and the states it can be brought to. A new ring is
well-formed and each operation keeps it so. Hence, in every state that any sequence of
operations leads to, each operation acts on the queue as on a bounded first-in first-out queue. -/
namespace RealtimeAudio.Ring

/-- One operation of the producer or of the consumer. Slices of plain numbers are moved as
their bytes. -/
inductive Operation where
  | write (source : List UInt8)
  | writeNumbers (width : Nat) (numbers : List Nat)
  | writeView
  | fill (second : Bool) (offset : Nat) (bytes : List UInt8)
  | copyFrom (source : List UInt8)
  | commit (count : Nat)
  | read (target : List UInt8)
  | readNumbers (width : Nat) (numbers : List Nat)
  | peek (target : List UInt8)
  | peekNumbers (width : Nat) (numbers : List Nat)
  | readView
  | release (count : Nat)
  | reset

/-- The ring after an operation. A fill that does not fit its span writes nothing, and looking
at a ring leaves it as it is. -/
def perform (r : Ring) : Operation → Ring
  | .write source => (r.write source).2
  | .writeNumbers width numbers => (r.write (Bytes.ofNats width numbers)).2
  | .fill second offset bytes => (r.fill? second offset bytes).getD r
  | .copyFrom source => (r.copyFrom source).2
  | .commit count => r.commit count
  | .read target => (r.read target).2.2
  | .readNumbers width numbers => (r.read (Bytes.ofNats width numbers)).2.2
  | .release count => r.release count
  | .reset => r.reset
  | .writeView | .readView | .peek _ | .peekNumbers _ _ => r

def run (r : Ring) (operations : List Operation) : Ring := operations.foldl perform r

/-- What each operation returns, and does to the queue. -/
structure ActsAsQueue (r : Ring) : Prop where
  bounded : r.queue.length ≤ r.writeLimit
  length_vacant : r.vacant.length = r.writeLimit - r.queue.length
  write : ∀ source,
    (r.write source).1 = min (source.length / r.elementSize) (r.writeLimit - r.queue.length) ∧
      (r.write source).2.queue =
        r.queue ++ (Bytes.records r.elementSize source).take (r.write source).1
  fill : ∀ second offset bytes r', r.fill? second offset bytes = some r' → r'.queue = r.queue
  copyFrom : ∀ source, (r.copyFrom source).2.queue = r.queue
  commit : ∀ count, (r.commit count).queue =
    r.queue ++ r.vacant.take (min count (r.writeLimit - r.queue.length))
  peek : ∀ target,
    (r.peek target).1 = min (target.length / r.elementSize) r.queue.length ∧
      (r.peek target).2 = (r.queue.take (r.peek target).1).flatten ++
        target.drop ((r.peek target).1 * r.elementSize)
  read : ∀ target,
    (r.read target).1 = (r.peek target).1 ∧ (r.read target).2.1 = (r.peek target).2 ∧
      (r.read target).2.2.queue = r.queue.drop (r.read target).1
  release : ∀ count, (r.release count).queue = r.queue.drop (min count r.queue.length)
  reset : r.reset.queue = []

namespace WellFormed
variable {r : Ring}

theorem actsAsQueue (valid : r.WellFormed) : r.ActsAsQueue where
  bounded := valid.length_queue ▸ valid.readSpace_le
  length_vacant := by rw [valid.length_vacant, valid.length_queue, writeSpace]
  write source := ⟨by rw [valid.length_queue]; rfl, (valid.write source).2⟩
  fill _ _ _ _ filled := (valid.fill filled).2
  copyFrom source := (valid.copyFrom source).2
  commit count := by
    rw [valid.queue_commit, valid.length_queue, valid.vacant_eq, ← writeSpace,
      take_elements r (Nat.min_le_right _ _)]
  peek target := by
    rw [valid.peek, valid.length_queue]
    exact ⟨rfl, rfl⟩
  read target := ⟨rfl, rfl, valid.queue_release _⟩
  release count := by
    rw [valid.queue_release, List.drop_eq_drop_min]
  reset := valid.queue_reset

theorem perform (valid : r.WellFormed) (operation : Operation) :
    (r.perform operation).WellFormed := by
  cases operation with
  | write source => exact (valid.write source).1
  | writeNumbers width numbers => exact (valid.write _).1
  | fill second offset bytes =>
    change ((r.fill? second offset bytes).getD r).WellFormed
    cases filled : r.fill? second offset bytes with
    | none => exact valid
    | some r' => exact (valid.fill filled).1
  | copyFrom source => exact (valid.copyFrom source).1
  | commit count => exact valid.commit count
  | read target => exact valid.release _
  | readNumbers width numbers => exact valid.release _
  | release count => exact valid.release count
  | reset => exact valid.reset
  | writeView | readView | peek | peekNumbers => exact valid

theorem run (valid : r.WellFormed) (operations : List Operation) :
    (r.run operations).WellFormed := by
  induction operations generalizing r with
  | nil => exact valid
  | cons operation rest ih => exact ih (valid.perform operation)

end WellFormed

section Sizes
variable {r : Ring}

theorem perform_sizes (r : Ring) (operation : Operation) :
    (r.perform operation).elementSize = r.elementSize ∧
      (r.perform operation).writeLimit = r.writeLimit := by
  cases operation with
  | fill second offset bytes =>
    unfold perform
    dsimp only
    cases filled : r.fill? second offset bytes with
    | none => exact ⟨rfl, rfl⟩
    | some r' =>
      obtain ⟨s, -, -, rfl⟩ := fill?_eq_some filled
      exact ⟨rfl, rfl⟩
  | _ => exact ⟨rfl, rfl⟩

theorem run_sizes (r : Ring) (operations : List Operation) :
    (r.run operations).elementSize = r.elementSize ∧
      (r.run operations).writeLimit = r.writeLimit := by
  induction operations generalizing r with
  | nil => exact ⟨rfl, rfl⟩
  | cons operation rest ih =>
    have step := perform_sizes r operation
    have steps := ih (r.perform operation)
    exact ⟨steps.1.trans step.1, steps.2.trans step.2⟩

end Sizes

section Creation
variable {granted : Nat → Bool} {elements elementSize : Nat} {reserve : Bool} {start : Ring}

theorem create_ok (made : create granted elements elementSize reserve = .ok start) :
    0 < elementSize ∧ ∃ capacity bytes, capacityFor? elements = some capacity ∧
      bytesFor? capacity elementSize = some bytes ∧
      start = ⟨capacity, elementSize, if reserve then capacity - 1 else capacity, 0, 0,
        List.replicate bytes 0⟩ := by
  unfold create at made
  simp only [bind, Except.bind, pure, Except.pure, throw, throwThe, MonadExceptOf.throw] at made
  split at made
  · contradiction
  · rename_i sizes
    split at made
    · rename_i capacity found
      split at made
      · rename_i bytes fits
        split at made
        · contradiction
        · exact ⟨by omega, capacity, bytes, found, fits, (Except.ok.inj made).symm⟩
      · contradiction
    · contradiction

theorem bytesFor?_eq_some {capacity bytes : Nat} :
    bytesFor? capacity elementSize = some bytes ↔
      bytes = capacity * elementSize ∧ bytes < UInt64.size / 2 := by
  simp only [bytesFor?, mulWord?, bind, Option.bind_eq_some_iff, Option.ite_none_right_eq_some,
    Option.some.injEq, pure]
  constructor
  · rintro ⟨_, ⟨_, rfl⟩, small, rfl⟩
    exact ⟨rfl, small⟩
  · rintro ⟨rfl, small⟩
    have : UInt64.size / 2 < UInt64.size := by decide
    exact ⟨_, ⟨by omega, rfl⟩, small, rfl⟩

theorem powerOfTwoFrom?_dvd {n power : Nat} (found : powerOfTwoFrom? n = some power) :
    power ∣ UInt64.size := by
  have powers : ∀ k, 2 ^ k < UInt64.size → 2 ^ k ∣ UInt64.size := by
    intro k small
    have less : k < 64 := (Nat.pow_lt_pow_iff_right (by decide)).mp small
    exact Nat.pow_dvd_pow 2 (Nat.le_of_lt less)
  simp only [powerOfTwoFrom?, Option.ite_none_right_eq_some, Option.some.injEq] at found
  obtain ⟨small, rfl⟩ := found
  split at small
  · rw [if_pos ‹_›]
    exact Nat.one_dvd _
  · rw [if_neg ‹_›]
    exact powers _ small

theorem wellFormed_create (made : create granted elements elementSize reserve = .ok start) :
    start.WellFormed := by
  obtain ⟨positive, capacity, bytes, found, fits, rfl⟩ := create_ok made
  obtain ⟨rfl, small⟩ := bytesFor?_eq_some.mp fits
  obtain ⟨_, -, rounded⟩ := Option.bind_eq_some_iff.mp found
  exact {
    elementSize_pos := positive
    capacity_dvd := powerOfTwoFrom?_dvd rounded
    bytes_lt := small
    limit_le := by dsimp only; split <;> omega
    length_storage := List.length_replicate
    readSpace_le := by simp [readSpace] }

theorem le_powerOfTwoFrom? {n power : Nat} (found : powerOfTwoFrom? n = some power) :
    n ≤ power := by
  simp only [powerOfTwoFrom?, Option.ite_none_right_eq_some, Option.some.injEq] at found
  obtain ⟨-, rfl⟩ := found
  split
  · assumption
  · have below : n - 1 < 2 ^ ((n - 1).log2 + 1) := Nat.lt_log2_self
    change n ≤ 2 ^ ((n - 1).log2 + 1)
    omega

/-- A ring is made for at least one element, and one place more. -/
theorem one_le_writeLimit (made : create granted elements elementSize reserve = .ok start) :
    1 ≤ start.writeLimit := by
  have asked : 1 ≤ elements := by
    refine Nat.pos_of_ne_zero fun zero => ?_
    simp [create, zero, bind, Except.bind, throw, throwThe, MonadExceptOf.throw] at made
  obtain ⟨-, capacity, bytes, found, -, rfl⟩ := create_ok made
  obtain ⟨wanted, sum, rounded⟩ := Option.bind_eq_some_iff.mp found
  have least := le_powerOfTwoFrom? rounded
  simp only [addWord?, Option.ite_none_right_eq_some, Option.some.injEq] at sum
  dsimp only
  split <;> omega

/-- A ring refines a bounded first-in first-out queue: a new one is empty, and after any
operations each further one does to the queue what it should. -/
theorem create_run_actsAsQueue (made : create granted elements elementSize reserve = .ok start)
    (operations : List Operation) :
    start.queue = [] ∧ (start.run operations).ActsAsQueue ∧
      (start.run operations).elementSize = elementSize ∧
      (start.run operations).writeLimit = start.writeLimit := by
  have valid := wellFormed_create made
  have sizes := run_sizes start operations
  obtain ⟨-, capacity, bytes, -, -, rfl⟩ := create_ok made
  have empty : (⟨capacity, elementSize, if reserve then capacity - 1 else capacity, 0, 0,
      List.replicate bytes 0⟩ : Ring).queue = [] :=
    List.eq_nil_of_length_eq_zero (by simp [valid.length_queue, readSpace])
  exact ⟨empty, (valid.run operations).actsAsQueue, sizes.1, sizes.2⟩

/-- A reserving ring of four places, after a run that wraps round the end of the store, an
oversized release and a fill that is committed together with stale bytes. -/
theorem create_run_actsAsQueue_wrapped :
    create (fun _ => true) 3 2 true = .ok ⟨4, 2, 3, 0, 0, List.replicate 8 0⟩ ∧
      (run ⟨4, 2, 3, 0, 0, List.replicate 8 0⟩
        [.write [1, 2, 3, 4, 5, 6, 7], .release 2, .copyFrom [8, 9, 10, 11], .commit 5,
          .read [0, 0, 0], .release 9, .fill true 0 [12], .commit 1]).ActsAsQueue := by
  have made : create (fun _ => true) 3 2 true = .ok ⟨4, 2, 3, 0, 0, List.replicate 8 0⟩ := rfl
  exact ⟨made, (create_run_actsAsQueue made _).2.1⟩

end Creation

end RealtimeAudio.Ring
