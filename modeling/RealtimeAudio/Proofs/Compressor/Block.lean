import RealtimeAudio.Proofs.Compressor.Flow
import RealtimeAudio.Proofs.Compressor.Link

/-! A compressor between calls shows a flow: what its stores hold is what the flow carries over.
One call on a block of any length takes the compressor to where the block's levels take the
flow, and multiplies each delayed channel by the flow's gains. -/
namespace RealtimeAudio.Compressor
variable {α : Type} [Arithmetic α] [Elementary α]
open Arithmetic

/-- The level store has the pending levels in front, and whatever a block left after them. -/
structure Shows (c : Compressor α) (f : Flow α) : Prop where
  crest : c.crest = f.crest
  gain : c.gain = f.gain
  pending : f.pending.length = c.parameters.lookAhead
  levels : ∃ rest, rest.length = blockLimit ∧ c.levels = f.pending ++ rest
  crests : c.crests.length = blockLimit
  unused : c.parameters.auto.usesCrest = false → c.crests = List.replicate blockLimit 0.0
  unheld : c.parameters.holdLength = none → c.hold = none
  held : ∀ length, c.parameters.holdLength = some length →
    ∃ h, c.hold = some h ∧ h.length = PeakHold.span length ∧ h.Tracks f.position f.position f.window

namespace Shows
variable {c : Compressor α} {f : Flow α}

theorem ofParameters (p : Parameters α) : (ofParameters p).Shows (Flow.start p) where
  crest := rfl
  gain := rfl
  pending := List.length_replicate
  levels := ⟨List.replicate blockLimit 0.0, List.length_replicate, rfl⟩
  crests := List.length_replicate
  unused _ := rfl
  unheld unasked := by
    have unasked : p.holdLength = none := unasked
    simp only [Compressor.ofParameters, unasked, Option.map_none]
  held length asked := by
    have asked : p.holdLength = some length := asked
    refine ⟨PeakHold.new length, ?_, rfl, ?_⟩
    · simp only [Compressor.ofParameters, asked, Option.map_some]
    · have start : (PeakHold.new length : PeakHold α).Tracks 0 0 _ := PeakHold.Tracks.new length
      simpa only [Flow.start, asked, Option.getD_some] using start

theorem detect (shows : c.Shows f) (linked : List α) :
    ∃ hold, detect? c.hold linked = some (hold, f.detected c.parameters linked) ∧
      (c.parameters.holdLength = none → hold = none) ∧
      ∀ length, c.parameters.holdLength = some length →
        ∃ h, hold = some h ∧ h.length = PeakHold.span length ∧
          h.Tracks (f.position + linked.length) (f.position + linked.length)
            (f.detect c.parameters linked).1 := by
  unfold Flow.detected Flow.detect
  cases asked : c.parameters.holdLength with
  | none =>
    refine ⟨none, ?_, fun _ => rfl, fun length some => by contradiction⟩
    rw [shows.unheld asked]
    rfl
  | some length =>
    obtain ⟨h, present, size, tracks⟩ := shows.held length asked
    obtain ⟨next, done, kept, tracked⟩ := tracks.block (linked.map Level.amplitudeToLog)
    rw [size, List.length_map] at tracked
    refine ⟨some next, ?_, fun none => by contradiction, ?_⟩
    · rw [present, detect?, done, size]
      rfl
    · rintro _ ⟨rfl⟩
      exact ⟨next, rfl, kept.trans size, tracked⟩

omit [Elementary α] in
/-- The crest store after a block: the block's factors in front, where they are used. -/
theorem crestStore (shows : c.Shows f) (linked : List α) (fits : linked.length ≤ blockLimit) :
    ∃ crests, Segment.write? 0
        ((if c.parameters.auto.usesCrest then
          c.crest.trajectory c.parameters.crestCoefficient linked else []).map Crest.factor)
        c.crests = some crests ∧
      crests.length = blockLimit ∧
      crests.take linked.length = f.factors c.parameters linked ∧
      (c.parameters.auto.usesCrest = false → crests = List.replicate blockLimit 0.0) := by
  unfold Flow.factors
  cases used : c.parameters.auto.usesCrest with
  | true =>
    simp only [if_true]
    rw [← shows.crest]
    generalize written : (c.crest.trajectory c.parameters.crestCoefficient linked).map
      Crest.factor = factors
    have size : factors.length = linked.length := by
      rw [← written, List.length_map, Crest.trajectory_eq, length_trajectory]
    have room : 0 + factors.length ≤ c.crests.length := by
      rw [shows.crests]
      omega
    refine ⟨_, if_pos room, ?_, ?_, fun unused => by contradiction⟩
    · simp only [List.take_zero, List.nil_append, List.length_append, List.length_drop,
        shows.crests]
      omega
    · rw [List.take_zero, List.nil_append, ← size, List.take_left]
  | false =>
    have store := shows.unused used
    refine ⟨c.crests, ?_, shows.crests, ?_, fun _ => store⟩
    · simp [Segment.write?]
    · rw [store, List.take_replicate]
      simp [Nat.min_eq_left fits]

omit [Elementary α] in
/-- The level store with a block's levels written behind those that were pending. -/
theorem levelStore (shows : c.Shows f) {block : List α} (fits : block.length ≤ blockLimit) :
    ∃ store tail, Segment.write? c.parameters.lookAhead block c.levels = some store ∧
      store.length = c.parameters.lookAhead + blockLimit ∧
      tail.length + block.length = blockLimit ∧
      store.take block.length = Delay.leaving f.pending block ∧
      (store.drop c.parameters.lookAhead).take block.length = block ∧
      store.drop block.length = Delay.remaining f.pending block ++ tail := by
  obtain ⟨rest, spare, levels⟩ := shows.levels
  have pending := shows.pending
  have whole : block.length ≤ (f.pending ++ block).length := by
    rw [List.length_append]
    omega
  refine ⟨f.pending ++ block ++ rest.drop block.length, rest.drop block.length, ?_, ?_, ?_, ?_, ?_,
    ?_⟩
  · have parts : c.levels = f.pending ++ rest.take block.length ++ rest.drop block.length := by
      rw [levels, List.append_assoc, List.take_append_drop]
    rw [parts]
    refine Segment.write?_append pending ?_
    rw [List.length_take]
    omega
  · simp only [List.length_append, List.length_drop]
    omega
  · rw [List.length_drop]
    omega
  · rw [List.take_append_of_le_length whole, Delay.leaving]
  · rw [List.append_assoc, List.drop_left' pending, List.take_left]
  · rw [List.drop_append_of_le_length whole, Delay.remaining]

theorem crest_trajectory (shows : c.Shows f) (linked : List α) :
    (if c.parameters.auto.usesCrest then
        c.crest.trajectory c.parameters.crestCoefficient linked else []).getLast?.getD c.crest =
      (f.advance c.parameters linked).crest := by
  rw [shows.crest]
  unfold Flow.advance
  split
  · rw [Crest.trajectory_eq, getLast?_trajectory]
  · rfl

/-- After the gains are computed the level store has them in front and the levels now pending behind
them. With these moved to the front the compressor shows the flow after the block. -/
theorem computeGains (shows : c.Shows f) (linked : List α) (fits : linked.length ≤ blockLimit) :
    ∃ c' levels, c.computeGains? linked = some c' ∧
      c'.parameters = c.parameters ∧ c'.delays = c.delays ∧
      c'.meter.get = Level.logToDecibel (GainState.deepest 0.0 (f.states c.parameters linked)) ∧
      Segment.read? 0 linked.length c'.levels = some (f.gains c.parameters linked) ∧
      Segment.read? linked.length c.parameters.lookAhead c'.levels =
        some (f.advance c.parameters linked).pending ∧
      Segment.write? 0 (f.advance c.parameters linked).pending c'.levels = some levels ∧
      ∀ delays, { c' with delays, levels }.Shows (f.advance c.parameters linked) := by
  obtain ⟨crests, stored, size, factors, unused⟩ := shows.crestStore linked fits
  obtain ⟨hold, detected, unheld, held⟩ := shows.detect linked
  have count : (f.detected c.parameters linked).length = linked.length := Flow.length_detected _
  obtain ⟨store, tail, written, room, spare, leaving, entering, remaining⟩ :=
    shows.levelStore (count.trans_le fits)
  rw [count] at spare leaving entering remaining
  have swept := GainState.sweep?_eq (p := c.parameters) crests store linked.length 0 c.gain 0.0
    (by omega) (by omega)
  dsimp only at swept
  rw [List.drop_zero, List.drop_zero, Nat.add_zero, Nat.zero_add, leaving, entering, factors,
    List.take_zero, List.nil_append, remaining, shows.gain] at swept
  have gains : (f.gains c.parameters linked).length = linked.length := Flow.length_gains _
  have pending : (f.advance c.parameters linked).pending.length = c.parameters.lookAhead :=
    (Delay.length_remaining _ _).trans shows.pending
  have sum : ((f.advance c.parameters linked).pending ++ tail).length + linked.length =
      c.parameters.lookAhead + blockLimit := by
    rw [List.length_append]
    omega
  refine ⟨{ c with
      crest := (f.advance c.parameters linked).crest
      gain := (f.advance c.parameters linked).gain
      levels := f.gains c.parameters linked ++ ((f.advance c.parameters linked).pending ++ tail)
      crests, hold
      meter := c.meter.set
        (Level.logToDecibel (GainState.deepest 0.0 (f.states c.parameters linked))) },
    _, ?_, rfl, rfl, rfl, ?_, ?_, Segment.write?_front ?_, fun delays => ?_⟩
  · unfold Compressor.computeGains?
    dsimp only
    rw [shows.crest_trajectory, stored]
    simp only [Option.bind_eq_bind, Option.bind_some, detected, written, shows.gain, swept]
    rfl
  · exact Segment.read?_append (rfl : ([] : List α).length = 0) gains
  · rw [← List.append_assoc]
    exact Segment.read?_append gains pending
  · rw [List.length_append]
    omega
  · refine ⟨rfl, rfl, pending, ⟨_, ?_, rfl⟩, size, unused, unheld, held⟩
    rw [List.length_drop, List.length_append]
    omega

end Shows

/-- The delay lines of the first channels. Without look-ahead there are none, and these are
empty. -/
structure Delays (c : Compressor α) (lines : List (List α)) : Prop where
  length : ∀ line ∈ lines, line.length = c.parameters.lookAhead
  stored : 0 < c.parameters.lookAhead → ∃ spare, c.delays = lines ++ spare

omit [Arithmetic α] [Elementary α] in
theorem Delays.of_eq {c c' : Compressor α} {lines : List (List α)} (delays : c.Delays lines)
    (parameters : c'.parameters = c.parameters) (kept : c'.delays = c.delays) :
    c'.Delays lines := by
  constructor
  · rw [parameters]
    exact delays.length
  · rw [parameters, kept]
    exact delays.stored

omit [Arithmetic α] [Elementary α] in
/-- Blocks as long as the lines are many go through the lines. -/
theorem Delays.exchange {c : Compressor α} {lines blocks : List (List α)} (delays : c.Delays lines)
    (count : lines.length = blocks.length) :
    ∃ stored, (if 0 < c.parameters.lookAhead then
        Delay.exchangeAll? c.parameters.lookAhead c.delays blocks else some (blocks, c.delays)) =
          some (List.zipWith Delay.leaving lines blocks, stored) ∧
      (0 < c.parameters.lookAhead →
        ∃ spare, stored = List.zipWith Delay.remaining lines blocks ++ spare) := by
  by_cases ahead : 0 < c.parameters.lookAhead
  · obtain ⟨spare, stored⟩ := delays.stored ahead
    rw [if_pos ahead, stored, Delay.exchangeAll?_eq count delays.length]
    exact ⟨_, rfl, fun _ => ⟨spare, rfl⟩⟩
  · have same : List.zipWith Delay.leaving lines blocks = blocks := by
      refine List.ext_getElem (by simp [count]) fun i _ inside => ?_
      have empty : lines[i].length = 0 := by
        have := delays.length lines[i] (List.getElem_mem _)
        omega
      rw [List.getElem_zipWith, List.eq_nil_of_length_eq_zero empty, Delay.leaving, List.nil_append,
        List.take_length]
    rw [if_neg ahead, same]
    exact ⟨_, rfl, fun some => absurd some ahead⟩

theorem ite_bind {β γ : Type} (test : Prop) [Decidable test] (x y : Option β) (k : β → Option γ) :
    (if test then x else y).bind k = if test then x.bind k else y.bind k := by
  split <;> rfl

section Lists
omit [Elementary α]

omit [Arithmetic α] in
theorem mapM_eq_some {β γ : Type} {g : β → Option γ} {h : β → γ} {xs : List β}
    (each : ∀ x ∈ xs, g x = some (h x)) : xs.mapM g = some (xs.map h) := by
  induction xs with
  | nil => rfl
  | cons x xs ih =>
    rw [List.mapM_cons, each x List.mem_cons_self,
      ih fun y member => each y (List.mem_cons_of_mem _ member)]
    rfl

omit [Arithmetic α] in
theorem blockLength_le (channels count : Nat) (buffers : List (List α)) :
    blockLength channels count buffers ≤ min count blockLimit ∧
      ∀ b ∈ buffers.take channels, blockLength channels count buffers ≤ b.length := by
  unfold blockLength
  generalize buffers.take channels = active
  generalize min count blockLimit = start
  induction active generalizing start with
  | nil => exact ⟨Nat.le_refl _, fun b member => by cases member⟩
  | cons b rest ih =>
    obtain ⟨below, shortest⟩ := ih (min start b.length)
    rw [List.foldl_cons]
    refine ⟨Nat.le_trans below (Nat.min_le_left _ _), ?_⟩
    intro other member
    cases member with
    | head => exact Nat.le_trans below (Nat.min_le_right _ _)
    | tail _ member => exact shortest other member

omit [Arithmetic α] in
theorem blockLength_eq {channels n : Nat} {buffers : List (List α)} (fits : n ≤ blockLimit)
    (equal : ∀ b ∈ buffers.take channels, b.length = n) : blockLength channels n buffers = n := by
  unfold blockLength
  rw [Nat.min_eq_left fits]
  generalize buffers.take channels = active at equal
  induction active with
  | nil => rfl
  | cons b rest ih =>
    rw [List.foldl_cons, equal b List.mem_cons_self, Nat.min_self]
    exact ih fun other member => equal other (List.mem_cons_of_mem _ member)

end Lists

def raised (p : Parameters α) (channels : List (List α)) : List (List α) :=
  channels.map (List.map (· * p.preGain))

omit [Elementary α] in
theorem equal_raised {p : Parameters α} {n : Nat} {channels : List (List α)}
    (equal : ∀ xs ∈ channels, xs.length = n) : ∀ xs ∈ raised p channels, xs.length = n := by
  intro xs member
  obtain ⟨ys, among, rfl⟩ := List.mem_map.mp member
  rw [List.length_map, equal ys among]

omit [Elementary α] in
theorem raised_take (p : Parameters α) (n : Nat) (channels : List (List α)) :
    raised p (channels.map (List.take n)) = (raised p channels).map (List.take n) := by
  rw [raised, raised, List.map_map, List.map_map]
  exact List.map_congr_left fun xs _ => List.map_take

omit [Elementary α] in
theorem raised_drop (p : Parameters α) (n : Nat) (channels : List (List α)) :
    raised p (channels.map (List.drop n)) = (raised p channels).map (List.drop n) := by
  rw [raised, raised, List.map_map, List.map_map]
  exact List.map_congr_left fun xs _ => List.map_drop

/-- A channel's samples as they leave its delay line, multiplied by the gains. -/
def emitted (gains : List α) (lines blocks : List (List α)) : List (List α) :=
  (List.zipWith Delay.leaving lines blocks).map fun xs => List.zipWith (· * ·) xs gains

omit [Elementary α] in
theorem length_emitted {n : Nat} {gains : List α} {lines blocks : List (List α)}
    (size : gains.length = n) (equal : ∀ xs ∈ blocks, xs.length = n) :
    ∀ out ∈ emitted gains lines blocks, out.length = n := by
  intro out member
  obtain ⟨xs, among, rfl⟩ := List.mem_map.mp member
  rw [← List.map_uncurry_zip_eq_zipWith] at among
  obtain ⟨⟨line, block⟩, paired, rfl⟩ := List.mem_map.mp among
  rw [List.length_zipWith, Function.uncurry_apply_pair, Delay.length_leaving,
    equal block (List.of_mem_zip paired).2, size, Nat.min_self]

omit [Arithmetic α] [Elementary α] in
/-- Outputs of `n` samples take the place of the first samples of their buffers. -/
theorem mapM_write?_front {n : Nat} {outs buffers : List (List α)}
    (equal : ∀ out ∈ outs, out.length = n) (long : ∀ b ∈ buffers, n ≤ b.length) :
    (outs.zip buffers).mapM (fun (out, buffer) => Segment.write? 0 out buffer) =
      some (List.zipWith (fun out buffer => out ++ buffer.drop n) outs buffers) := by
  rw [← List.map_uncurry_zip_eq_zipWith]
  refine mapM_eq_some fun pair member => ?_
  obtain ⟨out, buffer⟩ := pair
  obtain ⟨produced, among⟩ := List.of_mem_zip member
  have size := equal out produced
  dsimp only
  rw [Segment.write?_front (size.trans_le (long buffer among)), size]
  rfl

omit [Arithmetic α] [Elementary α] in
/-- What takes the place of the first buffers, and what stands behind it. -/
theorem take_drop_of_replaced {channels : Nat} {outs buffers : List (List α)}
    (complete : outs.length = (buffers.take channels).length) :
    (outs ++ buffers.drop channels).take channels = outs ∧
      (outs ++ buffers.drop channels).drop channels = buffers.drop channels := by
  rw [List.length_take] at complete
  by_cases few : buffers.length ≤ channels
  · have fits : outs.length ≤ channels := by omega
    rw [List.drop_of_length_le few, List.append_nil]
    exact ⟨List.take_of_length_le fits, List.drop_of_length_le fits⟩
  · have exact : outs.length = channels := by omega
    exact ⟨List.take_left' exact, List.drop_left' exact⟩

omit [Elementary α] [Arithmetic α] in
theorem length_remaining_lines {n : Nat} {lines blocks : List (List α)}
    (equal : ∀ line ∈ lines, line.length = n) :
    ∀ line ∈ List.zipWith Delay.remaining lines blocks, line.length = n := by
  intro line member
  rw [← List.map_uncurry_zip_eq_zipWith] at member
  obtain ⟨⟨earlier, block⟩, paired, rfl⟩ := List.mem_map.mp member
  rw [Function.uncurry_apply_pair, Delay.length_remaining]
  exact equal earlier (List.of_mem_zip paired).1

theorem process?_idle (c : Compressor α) (count : Nat) (buffers : List (List α))
    (idle : blockLength c.parameters.channels count buffers = 0 ∨
      buffers.take c.parameters.channels = []) :
    c.process? count buffers = some (c, buffers) := by
  rw [process?]
  exact if_pos idle

/-- What a compressor has between calls: a flow's state, and the samples in the delay lines. -/
structure Carries (c : Compressor α) (p : Parameters α) (f : Flow α) (lines : List (List α)) :
    Prop where
  parameters : c.parameters = p
  shows : c.Shows f
  delays : c.Delays lines

/-- A call takes the flow through the levels of the block it handles. -/
theorem Carries.process {c : Compressor α} {f : Flow α} {lines blocks : List (List α)}
    {p : Parameters α} {n count : Nat} {buffers : List (List α)} (carries : c.Carries p f lines)
    (block : blockLength p.channels count buffers = n) (some : 0 < n)
    (used : buffers.take p.channels ≠ [])
    (channels : lines.length = (buffers.take p.channels).length)
    (cut : raised p ((buffers.take p.channels).map (List.take n)) = blocks) :
    ∃ c', c.process? count buffers = .some (c',
        List.zipWith (fun out buffer => out ++ buffer.drop n)
          (emitted (f.gains p (link n blocks)) lines blocks) (buffers.take p.channels) ++
          buffers.drop p.channels) ∧
      c'.Carries p (f.advance p (link n blocks)) (List.zipWith Delay.remaining lines blocks) ∧
      c'.meter.get =
        Level.logToDecibel (GainState.deepest 0.0 (f.states p (link n blocks))) := by
  obtain ⟨fixed, shows, delays⟩ := carries
  subst fixed
  obtain ⟨limit, shortest⟩ := blockLength_le c.parameters.channels count buffers
  rw [block] at limit shortest
  have taken : (buffers.take c.parameters.channels).mapM (Segment.read? 0 n) =
      .some ((buffers.take c.parameters.channels).map (List.take n)) := by
    exact mapM_eq_some fun b member => Segment.read?_front (shortest b member)
  have sizes : ∀ xs ∈ blocks, xs.length = n := by
    intro xs member
    simp only [← cut, raised, List.mem_map] at member
    obtain ⟨_, ⟨b, among, rfl⟩, rfl⟩ := member
    rw [List.length_map, List.length_take]
    exact Nat.min_eq_left (shortest b among)
  have size : (link n blocks).length = n := length_link n blocks sizes
  obtain ⟨c', levels, computed, parameters, kept, meter, front, behind, carried, shown⟩ :=
    shows.computeGains (link n blocks) (by omega)
  rw [size] at front behind
  have gains : (f.gains c.parameters (link n blocks)).length = n := (Flow.length_gains _).trans size
  obtain ⟨stored, exchanged, after⟩ := (delays.of_eq parameters kept).exchange
    (show lines.length = blocks.length by simpa [← cut, raised] using channels)
  rw [parameters] at exchanged after
  have outs : ∀ out ∈ emitted (f.gains c.parameters (link n blocks)) lines blocks, out.length = n :=
    length_emitted gains sizes
  have written := mapM_write?_front outs shortest
  refine ⟨{ c' with delays := stored, levels }, ?_, ⟨parameters, shown stored, ?_, ?_⟩, meter⟩
  · have busy : ¬(n = 0 ∨ buffers.take c.parameters.channels = []) := by
      rintro (none | empty)
      · omega
      · exact used empty
    rw [raised] at cut
    rw [process?]
    dsimp only
    rw [block, if_neg busy]
    simp only [Option.bind_eq_bind]
    rw [taken, Option.bind_some, cut, computed, Option.bind_some, ← ite_bind, exchanged]
    unfold emitted at written ⊢
    simp only [front, behind, carried, written, Option.bind_some, Option.pure_def]
  · exact length_remaining_lines (delays.of_eq parameters kept).length
  · intro ahead
    exact after (by rwa [parameters] at ahead)

end RealtimeAudio.Compressor
