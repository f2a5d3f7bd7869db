import RealtimeAudio.Proofs.Ring.Regions

/-! Access in place against copying. What the producer puts into free places is seen neither in
the queue nor in any answer to the consumer, and it stays whatever the consumer does. So filling
first and committing later is writing later, and reading in place and releasing is reading. -/
namespace RealtimeAudio.Ring

namespace Operation

/-- The operations of the consumer. -/
def Consumes : Operation → Prop
  | read _ | readNumbers _ _ | peek _ | peekNumbers _ _ | readView | release _ => True
  | _ => False

/-- The operations with which the producer looks at and fills free places. -/
def Fills : Operation → Prop
  | writeView | fill _ _ _ | copyFrom _ => True
  | _ => False

end Operation

/-- What the caller of an operation gets. -/
inductive Answer where
  | done
  /-- Whether bytes fit the span they were meant for. -/
  | fits (fits : Bool)
  | count (count : Nat)
  /-- How many elements were copied out, and the target with them in front. -/
  | target (count : Nat) (target : List UInt8)
  | view (view : View)

def answer (r : Ring) : Operation → Answer
  | .write source => .count (r.write source).1
  | .writeNumbers width numbers => .count (r.write (Bytes.ofNats width numbers)).1
  | .writeView => .view r.writeView
  | .fill second offset bytes => .fits (r.fill? second offset bytes).isSome
  | .copyFrom source => .count (r.copyFrom source).1
  | .read target => .target (r.read target).1 (r.read target).2.1
  | .readNumbers width numbers =>
    .target (r.read (Bytes.ofNats width numbers)).1 (r.read (Bytes.ofNats width numbers)).2.1
  | .peek target => .target (r.peek target).1 (r.peek target).2
  | .peekNumbers width numbers =>
    .target (r.peek (Bytes.ofNats width numbers)).1 (r.peek (Bytes.ofNats width numbers)).2
  | .readView => .view r.readView
  | .commit _ | .release _ | .reset => .done

def answers (r : Ring) : List Operation → List Answer
  | [] => []
  | operation :: rest => r.answer operation :: (r.perform operation).answers rest

variable {r r' : Ring}

section Agreement

/-- The same ring but for bytes that are not queued. -/
structure Agrees (r r' : Ring) : Prop where
  valid : r.WellFormed
  other : r'.WellFormed
  same : ∃ storage, r' = { r with storage }
  queue : r'.queue = r.queue

namespace Agrees

theorem refl (valid : r.WellFormed) : r.Agrees r := ⟨valid, valid, ⟨r.storage, rfl⟩, rfl⟩

theorem trans {r'' : Ring} (first : r.Agrees r') (second : r'.Agrees r'') : r.Agrees r'' where
  valid := first.valid
  other := second.other
  same := by
    obtain ⟨earlier, rfl⟩ := first.same
    obtain ⟨later, rfl⟩ := second.same
    exact ⟨later, rfl⟩
  queue := second.queue.trans first.queue

theorem peek (agrees : r.Agrees r') (target : List UInt8) : r'.peek target = r.peek target := by
  obtain ⟨valid, other, ⟨storage, rfl⟩, queue⟩ := agrees
  rw [valid.peek, other.peek, queue]
  rfl

/-- The two spans are as long as before, and together they hold the queue. -/
theorem readView (agrees : r.Agrees r') : r'.readView = r.readView := by
  obtain ⟨valid, other, ⟨storage, rfl⟩, queue⟩ := agrees
  have bounded := Nat.le_trans valid.readSpace_le valid.limit_le
  have inside := (spans_inside r r.taken bounded valid.capacity_pos).1
  have contents : Ring.load { r with storage } r.queued.1 ++
      Ring.load { r with storage } r.queued.2 = r.load r.queued.1 ++ r.load r.queued.2 := by
    calc
      _ = (Ring.queue { r with storage }).flatten := by
        rw [other.queue_eq]
        exact other.load_spans r.taken bounded
      _ = r.queue.flatten := congrArg List.flatten queue
      _ = _ := by
        rw [valid.queue_eq]
        exact (valid.load_spans r.taken bounded).symm
  have first : (Ring.load { r with storage } r.queued.1).length = (r.load r.queued.1).length :=
    (other.length_load inside).trans (valid.length_load inside).symm
  obtain ⟨front, back⟩ := List.append_inj contents first
  change View.mk (Ring.load { r with storage } r.queued.1) (Ring.load { r with storage } r.queued.2)
    r.elementSize = _
  rw [front, back]
  rfl

theorem release (agrees : r.Agrees r') (count : Nat) :
    (r.release count).Agrees (r'.release count) where
  valid := agrees.valid.release count
  other := agrees.other.release count
  same := by
    obtain ⟨storage, rfl⟩ := agrees.same
    exact ⟨storage, rfl⟩
  queue := by
    rw [agrees.valid.queue_release, agrees.other.queue_release, agrees.queue]

theorem answer (agrees : r.Agrees r') {operation : Operation} (consumes : operation.Consumes) :
    r'.answer operation = r.answer operation := by
  cases operation with
  | read target => simp only [Ring.answer, Ring.read, agrees.peek]
  | readNumbers width numbers => simp only [Ring.answer, Ring.read, agrees.peek]
  | peek target => simp only [Ring.answer, agrees.peek]
  | peekNumbers width numbers => simp only [Ring.answer, agrees.peek]
  | readView => simp only [Ring.answer, agrees.readView]
  | release count => rfl
  | _ => exact consumes.elim

theorem perform (agrees : r.Agrees r') {operation : Operation} (consumes : operation.Consumes) :
    (r.perform operation).Agrees (r'.perform operation) := by
  cases operation with
  | read target =>
    have step := agrees.release (r.peek target).1
    simpa only [Ring.perform, Ring.read, agrees.peek] using step
  | readNumbers width numbers =>
    have step := agrees.release (r.peek (Bytes.ofNats width numbers)).1
    simpa only [Ring.perform, Ring.read, agrees.peek] using step
  | release count => exact agrees.release count
  | peek | peekNumbers | readView => exact agrees
  | _ => exact consumes.elim

theorem run (agrees : r.Agrees r') {operations : List Operation}
    (consume : ∀ operation ∈ operations, operation.Consumes) :
    r'.answers operations = r.answers operations ∧
      (r.run operations).Agrees (r'.run operations) := by
  induction operations generalizing r r' with
  | nil => exact ⟨rfl, agrees⟩
  | cons operation rest ih =>
    have consumes := consume operation List.mem_cons_self
    obtain ⟨same, agree⟩ := ih (agrees.perform consumes)
      fun other member => consume other (List.mem_cons_of_mem _ member)
    constructor
    · rw [answers, answers, agrees.answer consumes, same]
    · exact agree

end Agrees

/-- Bytes in free places do not tell a ring from what it was. -/
theorem WellFormed.agrees_perform (valid : r.WellFormed) (operation : Operation)
    (fills : operation.Fills) : r.Agrees (r.perform operation) := by
  cases operation with
  | writeView => exact Agrees.refl valid
  | fill second offset bytes =>
    change r.Agrees ((r.fill? second offset bytes).getD r)
    cases filled : r.fill? second offset bytes with
    | none => exact Agrees.refl valid
    | some next =>
      obtain ⟨well, queue⟩ := valid.fill filled
      obtain ⟨s, -, -, rfl⟩ := fill?_eq_some filled
      exact ⟨valid, well, ⟨_, rfl⟩, queue⟩
  | copyFrom source =>
    obtain ⟨well, queue⟩ := valid.copyFrom source
    exact ⟨valid, well, ⟨_, rfl⟩, queue⟩
  | _ => exact fills.elim

theorem WellFormed.agrees_run (valid : r.WellFormed) {operations : List Operation}
    (fill : ∀ operation ∈ operations, operation.Fills) : r.Agrees (r.run operations) := by
  induction operations generalizing r with
  | nil => exact Agrees.refl valid
  | cons operation rest ih =>
    have first := valid.agrees_perform operation (fill operation List.mem_cons_self)
    exact first.trans (ih first.other fun other member => fill other (List.mem_cons_of_mem _ member))

end Agreement

section Consumption

theorem release_zero (r : Ring) : r.release 0 = r := by
  simp [release]

/-- The consumer moves its own cursor and nothing else. -/
theorem perform_consumes (r : Ring) {operation : Operation} (consumes : operation.Consumes) :
    ∃ count, r.perform operation = r.release count := by
  cases operation with
  | read target => exact ⟨(r.peek target).1, rfl⟩
  | readNumbers width numbers => exact ⟨(r.peek (Bytes.ofNats width numbers)).1, rfl⟩
  | release count => exact ⟨count, rfl⟩
  | peek | peekNumbers | readView => exact ⟨0, (release_zero r).symm⟩
  | _ => exact consumes.elim

/-- After the consumer there is at least as much room as before. -/
theorem WellFormed.run_consumes (valid : r.WellFormed) {operations : List Operation}
    (consume : ∀ operation ∈ operations, operation.Consumes) :
    (∃ taken, r.run operations = { r with taken }) ∧
      r.writeSpace ≤ (r.run operations).writeSpace := by
  induction operations generalizing r with
  | nil => exact ⟨⟨r.taken, rfl⟩, Nat.le_refl _⟩
  | cons operation rest ih =>
    obtain ⟨count, released⟩ := perform_consumes r (consume operation List.mem_cons_self)
    have step : r.run (operation :: rest) = (r.release count).run rest :=
      congrArg (fun next => Ring.run next rest) released
    obtain ⟨⟨taken, same⟩, room⟩ := ih (valid.release count)
      fun other member => consume other (List.mem_cons_of_mem _ member)
    rw [step]
    refine ⟨⟨taken, same⟩, Nat.le_trans ?_ room⟩
    have space := valid.readSpace_release count
    change r.writeLimit - r.readSpace ≤ r.writeLimit - (r.release count).readSpace
    omega

/-- What the free places hold is still there after the consumer, first among what they hold then. -/
theorem WellFormed.vacant_run (valid : r.WellFormed) {operations : List Operation}
    (consume : ∀ operation ∈ operations, operation.Consumes) :
    r.vacant <+: (r.run operations).vacant := by
  obtain ⟨⟨taken, same⟩, room⟩ := valid.run_consumes consume
  have after := valid.run operations
  rw [same] at after room ⊢
  have kept : r.vacant = (Ring.vacant { r with taken }).take r.writeSpace := by
    rw [valid.vacant_eq, after.vacant_eq, take_elements _ room]
    rfl
  rw [kept]
  exact List.take_prefix _ _

end Consumption

section Equivalence

/-- What access in place comes to, with operations of the consumer in between. -/
structure MatchesCopying (r : Ring) (between : List Operation) : Prop where
  /-- A copy into free places does not show before it is committed. -/
  answers : ∀ source, (r.copyFrom source).2.answers between = r.answers between
  /-- Committed, it is what a copy of the same elements after the operations would have been. -/
  write : ∀ source,
    (r.run between).write (source.take ((r.copyFrom source).1 * r.elementSize)) =
      ((r.copyFrom source).1, ((r.copyFrom source).2.run between).commit (r.copyFrom source).1)
  committed : ∀ source,
    (((r.copyFrom source).2.run between).commit (r.copyFrom source).1).queue =
      (r.run between).queue ++ (Bytes.records r.elementSize source).take (r.copyFrom source).1
  /-- At once, as many elements go in as by copying. -/
  atOnce : ∀ source, r.write source =
    ((r.copyFrom source).1, (r.copyFrom source).2.commit (r.copyFrom source).1)
  read : ∀ target count, count = min (target.length / r.elementSize) r.readView.size →
    r.read target = (count,
      (r.readView.first ++ r.readView.second).take (count * r.elementSize) ++
        target.drop (count * r.elementSize),
      r.release count)
  /-- No fill touches the queue or shows in an answer, and what it leaves in the free places
  stays there. -/
  fills : ∀ fills : List Operation, (∀ operation ∈ fills, operation.Fills) →
    (r.run fills).queue = r.queue ∧
      (r.run fills).answers between = r.answers between ∧
      (r.run fills).vacant <+: ((r.run fills).run between).vacant

theorem WellFormed.read_inPlace (valid : r.WellFormed) (target : List UInt8) :
    r.read target = (r.copied target r.readSpace,
      (r.readView.first ++ r.readView.second).take (r.copied target r.readSpace * r.elementSize) ++
        target.drop (r.copied target r.readSpace * r.elementSize),
      r.release (r.copied target r.readSpace)) := by
  have available : r.copied target r.readSpace ≤ r.readSpace := Nat.min_le_right _ _
  have bounded := Nat.le_trans valid.readSpace_le valid.limit_le
  have whole : r.readView.first ++ r.readView.second =
      (r.elements r.taken.toNat r.readSpace).flatten := valid.load_spans r.taken bounded
  rw [whole, valid.take_flatten_elements _ available, ← take_elements r available,
    ← valid.queue_eq, Ring.read, valid.peek]

/-- Bytes that wait in free places while the consumer goes on are where they would be put now. -/
theorem WellFormed.run_copyFrom (valid : r.WellFormed) {between : List Operation}
    (consume : ∀ operation ∈ between, operation.Consumes) (source : List UInt8) :
    (r.copyFrom source).2.run between =
      (r.run between).deposit ((r.run between).spans r.written (r.copied source r.writeSpace))
        (source.take (r.copied source r.writeSpace * r.elementSize)) := by
  have agrees : r.Agrees (r.copyFrom source).2 :=
    valid.agrees_perform (.copyFrom source) trivial
  obtain ⟨⟨taken, same⟩, -⟩ := valid.run_consumes consume
  obtain ⟨⟨other, filled⟩, -⟩ := agrees.other.run_consumes consume
  obtain ⟨storage, alike⟩ := (agrees.run consume).2.same
  have stays : storage = (r.copyFrom source).2.storage :=
    congrArg Ring.storage (alike.symm.trans filled)
  rw [alike, stays, valid.copyFrom_eq, same]
  rfl

/-- A copy in place, committed after the consumer has gone on, is a copy made then. -/
theorem WellFormed.write_run (valid : r.WellFormed) {between : List Operation}
    (consume : ∀ operation ∈ between, operation.Consumes) (source : List UInt8) :
    (r.run between).write (source.take ((r.copyFrom source).1 * r.elementSize)) =
      ((r.copyFrom source).1, ((r.copyFrom source).2.run between).commit (r.copyFrom source).1) := by
  have count : (r.copyFrom source).1 = r.copied source r.writeSpace := by
    rw [valid.copyFrom_eq]
  have length := valid.length_whole source r.writeSpace
  have room : r.copied source r.writeSpace ≤ r.writeSpace := Nat.min_le_right _ _
  obtain ⟨⟨taken, same⟩, more⟩ := valid.run_consumes consume
  have size : (r.run between).elementSize = r.elementSize := by rw [same]
  have written : (r.run between).written = r.written := by rw [same]
  have moved : (r.run between).copied
      (source.take (r.copied source r.writeSpace * r.elementSize)) (r.run between).writeSpace =
        r.copied source r.writeSpace := by
    rw [copied, size, length, Nat.mul_div_cancel _ valid.elementSize_pos]
    exact Nat.min_eq_left (Nat.le_trans room more)
  rw [count, write_eq, moved, size, written, List.take_take, Nat.min_self,
    valid.run_copyFrom consume source]

theorem WellFormed.matchesCopying (valid : r.WellFormed) {between : List Operation}
    (consume : ∀ operation ∈ between, operation.Consumes) : r.MatchesCopying between := by
  constructor
  case answers =>
    intro source
    have agrees : r.Agrees (r.copyFrom source).2 :=
      valid.agrees_perform (.copyFrom source) trivial
    exact (agrees.run consume).1
  case write => exact valid.write_run consume
  case committed =>
    intro source
    have written := ((valid.run between).write
      (source.take ((r.copyFrom source).1 * r.elementSize))).2
    have count : (r.copyFrom source).1 = r.copied source r.writeSpace := by
      rw [valid.copyFrom_eq]
    have size : (r.run between).elementSize = r.elementSize := (run_sizes r between).1
    have records := valid.records_whole source r.writeSpace
    rw [valid.write_run consume source, size] at written
    rw [written, count, records, List.take_take, Nat.min_self]
  case atOnce =>
    intro source
    rw [write_eq, valid.copyFrom_eq]
  case read =>
    rintro target count rfl
    have size : r.readView.size = r.readSpace := valid.bounded.readView.size
    rw [size]
    exact valid.read_inPlace target
  case fills =>
    intro fills only
    have agrees := valid.agrees_run only
    exact ⟨agrees.queue, (agrees.run consume).1, agrees.other.vacant_run consume⟩

end Equivalence

section Creation

/-- In every state that operations on a new ring lead to, moving elements in place and moving them
by copy come to the same, whatever the consumer does before a commit. -/
theorem create_run_matchesCopying {granted : Nat → Bool} {elements elementSize : Nat}
    {reserve : Bool} {start : Ring}
    (made : create granted elements elementSize reserve = .ok start)
    (operations : List Operation) {between : List Operation}
    (consume : ∀ operation ∈ between, operation.Consumes) :
    (start.run operations).MatchesCopying between :=
  ((wellFormed_create made).run operations).matchesCopying consume

/-- A fill that wraps past the end of the store waits while the consumer looks at the queue, reads
part of it and lets go of more than is there. -/
theorem create_run_matchesCopying_wrapped :
    create (fun _ => true) 3 2 true = .ok ⟨4, 2, 3, 0, 0, List.replicate 8 0⟩ ∧
      (∀ operation ∈ [.readView, .read [0, 0, 0], .release 9], Operation.Consumes operation) ∧
      (run ⟨4, 2, 3, 0, 0, List.replicate 8 0⟩
        [.write [1, 2, 3, 4, 5, 6], .release 2]).MatchesCopying
          [.readView, .read [0, 0, 0], .release 9] := by
  have made : create (fun _ => true) 3 2 true = .ok ⟨4, 2, 3, 0, 0, List.replicate 8 0⟩ := rfl
  have consume : ∀ operation ∈ [.readView, .read [0, 0, 0], .release 9],
      Operation.Consumes operation := by
    simp [Operation.Consumes]
  exact ⟨made, consume, create_run_matchesCopying made _ consume⟩

end Creation

end RealtimeAudio.Ring
