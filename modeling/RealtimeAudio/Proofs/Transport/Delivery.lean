import RealtimeAudio.Proofs.Compressor.Partition
import RealtimeAudio.Proofs.Ring.Run
import RealtimeAudio.Proofs.Transport.Frames

/-! Signals through a ring into a compressor. What waits, in the ring or unsent, is always the
frames that have not come out yet, in their order; so each round hands the compressor the next
samples of every channel, and the output of all rounds is that of the compressor alone. A round
that may move at least one frame each way brings one out as long as there are any. -/
namespace RealtimeAudio

namespace Compressor
variable {α : Type} [Arithmetic α] [Elementary α]

/-- Between calls on blocks for all channels, whatever is carried over. -/
def Ready (c : Compressor α) (channels : Nat) : Prop :=
  ∃ p f lines, c.Carries p f lines ∧ p.channels = channels ∧ lines.length = channels

theorem Ready.ofParameters (p : Parameters α) : (ofParameters p).Ready p.channels :=
  ⟨p, _, _, ofParameters_carries p (Nat.le_refl _), rfl, List.length_replicate⟩

/-- A call on a block of each channel answers, and with an empty block it changes nothing. -/
theorem Ready.process {c : Compressor α} {channels n : Nat} {blocks : List (List α)}
    (ready : c.Ready channels) (fits : n ≤ blockLimit) (used : blocks ≠ [])
    (count : blocks.length = channels) (equal : ∀ xs ∈ blocks, xs.length = n) :
    ∃ c' out, c.process? n blocks = some (c', out) ∧ c'.Ready channels ∧
      out.length = channels ∧ (n = 0 → c' = c ∧ out = blocks) := by
  obtain ⟨p, f, lines, carries, rfl, lined⟩ := ready
  by_cases none : n = 0
  · have idle : blockLength c.parameters.channels n blocks = 0 := by
      have below := (blockLength_le c.parameters.channels n blocks).1
      omega
    refine ⟨c, blocks, process?_idle c n blocks (Or.inl idle), ?_, count, fun _ => ⟨rfl, rfl⟩⟩
    exact ⟨p, f, lines, carries, rfl, lined⟩
  · have whole : blocks.take p.channels = blocks := List.take_of_length_le (Nat.le_of_eq count)
    have rest : blocks.drop p.channels = [] := List.drop_of_length_le (Nat.le_of_eq count)
    have long : (raised p blocks).length = p.channels := by rw [raised, List.length_map, count]
    have cut : raised p (blocks.take p.channels) = raised p blocks := by rw [whole]
    have active : ∀ b ∈ blocks.take p.channels, b.length = n := by rwa [whole]
    obtain ⟨c', processed, carried, -⟩ := carries.processWhole ⟨by omega, fits⟩ active
      (by rwa [whole]) (lined.trans long.symm) cut
    refine ⟨c', _, processed, ⟨p, _, _, carried, rfl, ?_⟩, ?_, fun zero => absurd zero none⟩
    · rw [List.length_zipWith, lined, long, Nat.min_self]
    · rw [rest, List.append_nil, emitted, List.length_map, List.length_zipWith, lined, long,
        Nat.min_self]

end Compressor

namespace Transport
variable {t : Transport} {rest : List (List Float32)} {left : Nat}

/-- The transport after its writing side has had a turn, and how many frames that moved. -/
def send (t : Transport) (writeFrames : Nat) : Nat × Transport :=
  let (written, ring) := t.ring.write (Bytes.ofSingles (t.unsent.take (writeFrames * t.channels)))
  (written, { t with ring, unsent := t.unsent.drop (written * t.channels) })

/-- What a reading side with room for some frames gets out of the ring. -/
def receive (t : Transport) (readFrames : Nat) : Nat × List Float32 × Ring :=
  let (read, received, ring) :=
    t.ring.read (List.replicate (readFrames * frameSize t.channels) 0)
  (read, Bytes.toSingles (received.take (read * frameSize t.channels)), ring)

theorem round?_eq (t : Transport) (writeFrames readFrames : Nat) :
    t.round? writeFrames readFrames =
      let (written, sent) := t.send writeFrames
      let (read, samples, ring) := sent.receive readFrames
      (t.compressor.process? read (Frames.deinterleave t.channels samples)).map
        fun (compressor, output) =>
          ({ sent with ring, compressor }, ⟨written, read, output⟩) := by
  unfold round?
  dsimp only [send, receive]
  cases t.compressor.process? _ _ <;> rfl

/-- What is still to come out: `left` samples of each channel, as frames partly in the ring and
partly unsent. -/
structure Pending (t : Transport) (rest : List (List Float32)) (left : Nat) : Prop where
  channels : rest.length = t.channels
  equal : ∀ xs ∈ rest, xs.length = left
  used : rest ≠ []
  ring : t.ring.WellFormed
  size : t.ring.elementSize = frameSize t.channels
  room : 1 ≤ t.ring.writeLimit
  bytes : t.ring.queue.flatten ++ Bytes.ofSingles t.unsent =
    Bytes.ofSingles (Frames.interleave left rest)

namespace Pending

theorem compressor (pending : t.Pending rest left) (c : Compressor Float32) :
    { t with compressor := c : Transport }.Pending rest left :=
  ⟨pending.channels, pending.equal, pending.used, pending.ring, pending.size, pending.room,
    pending.bytes⟩

theorem positive (pending : t.Pending rest left) : 0 < t.channels :=
  pending.channels ▸ List.length_pos_of_ne_nil pending.used

theorem frameSize_eq (pending : t.Pending rest left) (count : Nat) :
    count * t.ring.elementSize = 4 * (count * t.channels) := by
  rw [pending.size, frameSize, Nat.mul_left_comm]

theorem length_queue_flatten (pending : t.Pending rest left) :
    t.ring.queue.flatten.length = 4 * (t.ring.readSpace * t.channels) := by
  rw [pending.ring.queue_eq, pending.ring.length_flatten_elements, pending.frameSize_eq]

/-- Samples that have not come out are in the ring or unsent. -/
theorem length_unsent (pending : t.Pending rest left) :
    t.ring.readSpace * t.channels + t.unsent.length = left * t.channels := by
  have total := congrArg List.length pending.bytes
  rw [List.length_append, pending.length_queue_flatten, Bytes.length_ofSingles,
    Bytes.length_ofSingles, Frames.length_interleave pending.equal, pending.channels] at total
  omega

theorem readSpace_le (pending : t.Pending rest left) : t.ring.readSpace ≤ left := by
  have total := pending.length_unsent
  exact Nat.le_of_mul_le_mul_right (by omega) pending.positive

theorem outstanding_iff (pending : t.Pending rest left) : t.outstanding = true ↔ 0 < left := by
  have total := pending.length_unsent
  have positive := pending.positive
  rw [← Nat.mul_pos_iff_of_pos_right positive, ← total]
  simp only [outstanding, Bool.or_eq_true, Bool.not_eq_true', List.isEmpty_eq_false_iff,
    bne_iff_ne, ← List.length_pos_iff]
  constructor
  · rintro (unsent | queued)
    · omega
    · have := Nat.mul_pos (Nat.pos_of_ne_zero queued) positive
      omega
  · intro some
    by_cases queued : t.ring.readSpace = 0
    · rw [queued] at some
      left
      omega
    · exact Or.inr queued

section Sending

/-- As many whole frames are written as are offered and fit. -/
theorem written_eq (pending : t.Pending rest left) (writeFrames : Nat) :
    (t.send writeFrames).1 =
      min (min writeFrames (t.unsent.length / t.channels)) t.ring.writeSpace := by
  have frame : 4 * t.channels = t.ring.elementSize := pending.size.symm
  have monotone : Monotone (· / t.channels) := fun _ _ le => Nat.div_le_div_right le
  change min ((Bytes.ofSingles (t.unsent.take (writeFrames * t.channels))).length /
    t.ring.elementSize) t.ring.writeSpace = _
  rw [Bytes.length_ofSingles, List.length_take, ← frame, Nat.mul_div_mul_left _ _ (by decide)]
  refine congrArg (min · t.ring.writeSpace) ((monotone.map_min).trans ?_)
  rw [Nat.mul_div_cancel _ pending.positive]

/-- What is written joins the queue and is unsent no more. -/
theorem bytes_send (pending : t.Pending rest left) (writeFrames : Nat) :
    (t.send writeFrames).2.ring.queue.flatten ++ Bytes.ofSingles (t.send writeFrames).2.unsent =
      Bytes.ofSingles (Frames.interleave left rest) := by
  have few : (t.send writeFrames).1 ≤ writeFrames := by
    have written := pending.written_eq writeFrames
    omega
  have offered := Nat.mul_le_mul_right t.channels few
  have enough : (t.send writeFrames).1 ≤
      (Bytes.ofSingles (t.unsent.take (writeFrames * t.channels))).length / t.ring.elementSize :=
    Nat.min_le_left _ _
  have queue : (t.send writeFrames).2.ring.queue = t.ring.queue ++ (Bytes.records
      t.ring.elementSize (Bytes.ofSingles (t.unsent.take (writeFrames * t.channels)))).take
        (t.send writeFrames).1 := (pending.ring.write _).2
  have unsent : (t.send writeFrames).2.unsent =
      t.unsent.drop ((t.send writeFrames).1 * t.channels) := rfl
  generalize (t.send writeFrames).1 = count at *
  calc
    _ = t.ring.queue.flatten ++ (Bytes.ofSingles (t.unsent.take (count * t.channels)) ++
        Bytes.ofSingles (t.unsent.drop (count * t.channels))) := by
      rw [queue, unsent, List.flatten_append,
        Bytes.flatten_take_records pending.ring.elementSize_pos enough, pending.frameSize_eq,
        Bytes.take_ofSingles, List.take_take, Nat.min_eq_left offered, List.append_assoc]
    _ = t.ring.queue.flatten ++ Bytes.ofSingles t.unsent := by
      rw [← Bytes.ofSingles_append, List.take_append_drop]
    _ = Bytes.ofSingles (Frames.interleave left rest) := pending.bytes

theorem send (pending : t.Pending rest left) (writeFrames : Nat) :
    (t.send writeFrames).2.Pending rest left where
  channels := pending.channels
  equal := pending.equal
  used := pending.used
  ring := (pending.ring.write _).1
  size := pending.size
  room := pending.room
  bytes := pending.bytes_send writeFrames

/-- A turn that may write what there is leaves something to read, as long as anything is to come. -/
theorem readSpace_send (pending : t.Pending rest left) (writeFrames : Nat) (some : 0 < left)
    (may : t.unsent ≠ [] → 1 ≤ writeFrames) : 0 < (t.send writeFrames).2.ring.readSpace := by
  have positive := pending.positive
  have before := pending.length_unsent
  have after : (t.send writeFrames).2.ring.readSpace * t.channels +
      (t.send writeFrames).2.unsent.length = left * t.channels :=
    (pending.send writeFrames).length_unsent
  have unsent : (t.send writeFrames).2.unsent.length =
      t.unsent.length - (t.send writeFrames).1 * t.channels := List.length_drop
  have all : 0 < left * t.channels := Nat.mul_pos some positive
  by_contra none
  have empty : (t.send writeFrames).2.ring.readSpace = 0 := by omega
  rw [empty, Nat.zero_mul, Nat.zero_add, unsent] at after
  -- Nothing was queued and nothing is: so nothing was written, though all of it was offered.
  have queued : t.ring.readSpace = 0 :=
    (Nat.mul_eq_zero.mp (show t.ring.readSpace * t.channels = 0 by omega)).resolve_right
      (Nat.ne_of_gt positive)
  have still : (t.send writeFrames).1 = 0 :=
    (Nat.mul_eq_zero.mp (show (t.send writeFrames).1 * t.channels = 0 by omega)).resolve_right
      (Nat.ne_of_gt positive)
  have frames : t.unsent.length / t.channels = left := by
    rw [show t.unsent.length = left * t.channels by omega, Nat.mul_div_cancel _ positive]
  have offered := may (List.ne_nil_of_length_pos (by omega))
  have written := pending.written_eq writeFrames
  have room := pending.room
  rw [still, frames, Ring.writeSpace, queued] at written
  omega

end Sending

section Receiving

theorem read_eq (pending : t.Pending rest left) (readFrames : Nat) :
    (t.receive readFrames).1 = min readFrames t.ring.readSpace := by
  change min ((List.replicate (readFrames * frameSize t.channels) (0 : UInt8)).length /
    t.ring.elementSize) t.ring.readSpace = _
  rw [List.length_replicate, ← pending.size,
    Nat.mul_div_cancel _ pending.ring.elementSize_pos]

/-- The first frames of the queue are the first that are to come; the others stay. -/
theorem bytes_take (pending : t.Pending rest left) {count : Nat} (few : count ≤ t.ring.readSpace) :
    (t.ring.queue.take count).flatten = Bytes.ofSingles (Frames.interleave count rest) ∧
      (t.ring.queue.drop count).flatten ++ Bytes.ofSingles t.unsent =
        Bytes.ofSingles (Frames.interleave (left - count) (rest.map (List.drop count))) := by
  have enough := pending.readSpace_le
  obtain ⟨more, rfl⟩ := Nat.exists_eq_add_of_le (Nat.le_trans few enough)
  have front : (t.ring.queue.take count).flatten.length =
      (Bytes.ofSingles (Frames.interleave count rest)).length := by
    have taken := Compressor.equal_take pending.equal
    have length := Frames.length_interleave taken
    rw [Frames.interleave_take, List.length_map, pending.channels] at length
    rw [pending.ring.queue_eq, Ring.take_elements _ few, pending.ring.length_flatten_elements,
      pending.frameSize_eq, Bytes.length_ofSingles, length]
  rw [Nat.add_sub_cancel_left]
  apply List.append_inj _ front
  calc
    _ = t.ring.queue.flatten ++ Bytes.ofSingles t.unsent := by
      rw [← List.append_assoc, ← List.flatten_append, List.take_append_drop]
    _ = Bytes.ofSingles (Frames.interleave (count + more) rest) := pending.bytes
    _ = _ := by rw [Frames.interleave_add, Bytes.ofSingles_append]

theorem receive (pending : t.Pending rest left) (readFrames : Nat) :
    (t.receive readFrames).2.1 = Frames.interleave (t.receive readFrames).1 rest ∧
      { t with ring := (t.receive readFrames).2.2 : Transport }.Pending
        (rest.map (List.drop (t.receive readFrames).1)) (left - (t.receive readFrames).1) := by
  have read := pending.read_eq readFrames
  have few : (t.receive readFrames).1 ≤ t.ring.readSpace := by omega
  obtain ⟨front, back⟩ := pending.bytes_take few
  have samples : (t.receive readFrames).2.1 =
      Bytes.toSingles (t.ring.queue.take (t.receive readFrames).1).flatten := by
    have peeked := pending.ring.peek (List.replicate (readFrames * frameSize t.channels) 0)
    have count : t.ring.copied (List.replicate (readFrames * frameSize t.channels) 0)
        t.ring.readSpace = (t.receive readFrames).1 := rfl
    have length : (t.ring.queue.take (t.receive readFrames).1).flatten.length =
        (t.receive readFrames).1 * frameSize t.channels := by
      rw [pending.ring.queue_eq, Ring.take_elements _ few, pending.ring.length_flatten_elements,
        pending.size]
    rw [count] at peeked
    have bytes : (t.ring.peek (List.replicate (readFrames * frameSize t.channels) 0)).2.take
        ((t.receive readFrames).1 * frameSize t.channels) =
          (t.ring.queue.take (t.receive readFrames).1).flatten := by
      rw [peeked]
      exact List.take_left' length
    exact congrArg Bytes.toSingles bytes
  have queue : (t.receive readFrames).2.2.queue = t.ring.queue.drop (t.receive readFrames).1 :=
    pending.ring.queue_release _
  constructor
  · rw [samples, front, Bytes.toSingles_ofSingles]
  · constructor
    case channels =>
      rw [List.length_map]
      exact pending.channels
    case equal =>
      apply Compressor.equal_drop
      intro xs member
      have enough := pending.readSpace_le
      rw [pending.equal xs member]
      omega
    case used => simpa using pending.used
    case ring => exact pending.ring.release _
    case size => exact pending.size
    case room => exact pending.room
    case bytes => rwa [queue]

end Receiving

end Pending

section Rounds

/-- What a round does: the compressor gets the next samples of every channel. -/
structure Moves (t next : Transport) (rest : List (List Float32)) (left : Nat) (round : Round) :
    Prop where
  channels : next.channels = t.channels
  few : round.read ≤ left
  fits : round.read ≤ blockLimit
  processed : t.compressor.process? round.read (rest.map (List.take round.read)) =
    some (next.compressor, round.output)
  ready : next.compressor.Ready t.channels
  output : round.output.length = t.channels
  idle : round.read = 0 →
    next.compressor = t.compressor ∧ round.output = rest.map (List.take round.read)
  pending : next.Pending (rest.map (List.drop round.read)) (left - round.read)

theorem Pending.round (pending : t.Pending rest left) (ready : t.compressor.Ready t.channels)
    (writeFrames : Nat) {readFrames : Nat} (fits : readFrames ≤ blockLimit) :
    ∃ next round, t.round? writeFrames readFrames = some (next, round) ∧
      t.Moves next rest left round ∧
      (0 < left → (t.unsent ≠ [] → 1 ≤ writeFrames) → 1 ≤ readFrames → 1 ≤ round.read) := by
  have sent := pending.send writeFrames
  have read := sent.read_eq readFrames
  have available := sent.readSpace_le
  have some := pending.readSpace_send writeFrames
  obtain ⟨samples, kept⟩ := sent.receive readFrames
  have unfolded := round?_eq t writeFrames readFrames
  dsimp only at unfolded
  generalize (t.send writeFrames).2.receive readFrames = received at *
  obtain ⟨count, frames, ring⟩ := received
  dsimp only at *
  have width : (rest.map (List.take count)).length = t.channels := by
    rw [List.length_map]
    exact pending.channels
  have equal : ∀ xs ∈ rest.map (List.take count), xs.length = count := by
    apply Compressor.equal_take (m := left - count)
    intro xs member
    rw [pending.equal xs member]
    omega
  have used : rest.map (List.take count) ≠ [] := by simpa using pending.used
  have blocks : Frames.deinterleave t.channels frames = rest.map (List.take count) := by
    rw [samples, ← Frames.interleave_take, ← width]
    exact Frames.deinterleave_interleave used equal
  obtain ⟨c, out, processed, again, long, idle⟩ :=
    ready.process (show count ≤ blockLimit by omega) used width equal
  rw [blocks, processed] at unfolded
  refine ⟨_, _, unfolded, ⟨rfl, ?_, ?_, processed, again, long, idle, kept.compressor c⟩, ?_⟩
  · dsimp only
    omega
  · dsimp only
    omega
  · intro outstanding write read
    have queued := some outstanding write
    dsimp only
    omega

/-- A call on the next samples and then further calls on what is left are calls on all of it. -/
theorem stream?_cons {c next last : Compressor Float32} {count more : Nat} {sizes : List Nat}
    {block outputs : List (List Float32)} {readings : List Float32}
    (processed : c.process? count (rest.map (List.take count)) = some (next, block))
    (streamed : next.stream? sizes ((rest.map (List.drop count)).map (List.take more)) =
      some (last, outputs, readings)) :
    c.stream? (count :: sizes) (rest.map (List.take (count + more))) =
      some (last, List.zipWith (· ++ ·) block outputs, next.meter.get :: readings) := by
  have front : (rest.map (List.take (count + more))).map (List.take count) =
      rest.map (List.take count) := by
    rw [List.map_map]
    apply List.map_congr_left
    intro xs _
    rw [Function.comp_apply, List.take_take, Nat.min_eq_left (Nat.le_add_right _ _)]
  have back : (rest.map (List.take (count + more))).map (List.drop count) =
      (rest.map (List.drop count)).map (List.take more) := by
    rw [List.map_map, List.map_map]
    apply List.map_congr_left
    intro xs _
    rw [Function.comp_apply, Function.comp_apply, List.drop_take, Nat.add_sub_cancel_left]
  rw [Compressor.stream?, front, processed, Option.bind_eq_bind, Option.bind_some]
  dsimp only
  rw [back, streamed]
  rfl

def brought (rounds : List Round) : Nat := (rounds.map Round.read).sum

/-- What a run does: the rounds that bring something make the calls on the first samples. -/
structure Carries (t last : Transport) (rest : List (List Float32)) (left : Nat)
    (rounds : List Round) : Prop where
  few : brought rounds ≤ left
  length : (output t.channels rounds).length = t.channels
  streamed : ∃ sizes readings, Compressor.Cut (brought rounds) sizes ∧
    t.compressor.stream? sizes (rest.map (List.take (brought rounds))) =
      some (last.compressor, output t.channels rounds, readings)
  pending : last.Pending (rest.map (List.drop (brought rounds))) (left - brought rounds)

theorem Pending.carries_nil (pending : t.Pending rest left) : t.Carries t rest left [] where
  few := Nat.zero_le _
  length := List.length_replicate
  streamed := by
    refine ⟨[], [], ⟨rfl, fun _ member => by cases member⟩, ?_⟩
    have none : rest.map (List.take 0) = List.replicate t.channels [] := by
      rw [← pending.channels]
      exact List.map_const'
    exact congrArg (fun out => some (t.compressor, out, ([] : List Float32))) none
  pending := by
    have whole : rest.map (List.drop 0) = rest := List.map_id'' (fun _ => List.drop_zero) rest
    exact whole.symm ▸ pending

theorem Moves.carries_cons {next last : Transport} {round : Round} {rounds : List Round}
    (moves : t.Moves next rest left round)
    (carries : next.Carries last (rest.map (List.drop round.read)) (left - round.read) rounds) :
    t.Carries last rest left (round :: rounds) := by
  obtain ⟨channels, few, fits, processed, -, long, idle, -⟩ := moves
  obtain ⟨later, length, ⟨sizes, readings, cut, streamed⟩, pending⟩ := carries
  rw [channels] at length streamed
  have sum : brought (round :: rounds) = round.read + brought rounds := by
    simp only [brought, List.map_cons, List.sum_cons]
  have joined : Transport.output t.channels (round :: rounds) =
      List.zipWith (· ++ ·) round.output (Transport.output t.channels rounds) := rfl
  constructor
  case few =>
    rw [sum]
    omega
  case length => rw [joined, List.length_zipWith, long, length, Nat.min_self]
  case streamed =>
    rw [sum, joined]
    by_cases none : round.read = 0
    · -- Nothing was read: the call is left out, and adds nothing to what comes out.
      obtain ⟨same, silent⟩ := idle none
      have still : rest.map (List.drop 0) = rest := List.map_id'' (fun _ => List.drop_zero) rest
      have added : List.zipWith (· ++ ·) round.output (Transport.output t.channels rounds) =
          Transport.output t.channels rounds := by
        apply List.ext_getElem
        · rw [List.length_zipWith, long, length, Nat.min_self]
        · intro channel _ _
          simp [silent, none]
      rw [same, none, still] at streamed
      rw [added, none, Nat.zero_add]
      exact ⟨sizes, readings, cut, streamed⟩
    · refine ⟨round.read :: sizes, _, ?_, stream?_cons processed streamed⟩
      constructor
      case total => rw [List.sum_cons, cut.total]
      case bounded =>
        intro size member
        cases member with
        | head => exact ⟨Nat.pos_of_ne_zero none, fits⟩
        | tail _ member => exact cut.bounded size member
  case pending =>
    have dropped : (rest.map (List.drop round.read)).map (List.drop (brought rounds)) =
        rest.map (List.drop (round.read + brought rounds)) := by
      rw [List.map_map]
      apply List.map_congr_left
      intro xs _
      exact List.drop_drop
    rw [dropped, Nat.sub_sub] at pending
    rwa [sum]

/-- Each round, as long as there are any, attempts to write a frame, if one is left to write, and
to read one. -/
def Attempts (t : Transport) : (schedule : List (Nat × Nat)) → Prop
  | [] => True
  | (writeFrames, readFrames) :: rest => t.outstanding = true →
    (t.unsent ≠ [] → 1 ≤ writeFrames) ∧ 1 ≤ readFrames ∧
      ∀ next round, t.round? writeFrames readFrames = some (next, round) → next.Attempts rest

/-- A run goes on round by round as long as anything is to come. -/
theorem Pending.run (pending : t.Pending rest left) (ready : t.compressor.Ready t.channels)
    {schedule : List (Nat × Nat)} (fit : ∀ step ∈ schedule, step.2 ≤ blockLimit) :
    ∃ last rounds, t.run? schedule = some (last, rounds) ∧ t.Carries last rest left rounds ∧
      (brought rounds < left → rounds.length = schedule.length) ∧
      (t.Attempts schedule → ∀ round ∈ rounds, 1 ≤ round.read) := by
  induction schedule generalizing t rest left with
  | nil => exact ⟨t, [], rfl, pending.carries_nil, fun _ => rfl, fun _ _ member => by cases member⟩
  | cons step schedule ih =>
    by_cases outstanding : t.outstanding = true
    · obtain ⟨next, round, done, moves, progress⟩ :=
        pending.round ready step.1 (fit step List.mem_cons_self)
      have again : next.compressor.Ready next.channels := by
        rw [moves.channels]
        exact moves.ready
      obtain ⟨last, rounds, ran, carries, complete, prompt⟩ := ih moves.pending again
        fun other member => fit other (List.mem_cons_of_mem _ member)
      refine ⟨last, round :: rounds, ?_, moves.carries_cons carries, ?_, ?_⟩
      · rw [run?, if_pos outstanding, done, Option.bind_eq_bind, Option.bind_some]
        dsimp only
        rw [ran]
        rfl
      · intro missing
        simp only [brought, List.map_cons, List.sum_cons] at missing complete
        rw [List.length_cons, List.length_cons, complete (by omega)]
      · intro attempts other member
        obtain ⟨writes, reads, later⟩ := attempts outstanding
        cases member with
        | head => exact progress (pending.outstanding_iff.mp outstanding) writes reads
        | tail _ member => exact prompt (later next round done) other member
    · refine ⟨t, [], ?_, pending.carries_nil, ?_, fun _ _ member => by cases member⟩
      · rw [run?, if_neg outstanding]
      · intro missing
        exact absurd ((pending.outstanding_iff).mpr missing) outstanding

end Rounds

end Transport

end RealtimeAudio
