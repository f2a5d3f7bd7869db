import Mathlib.Order.Bounds.Basic
import RealtimeAudio.Proofs.Compressor.Block

/-! Calls of every kind. However many samples are asked for, and however many buffers of whatever
lengths are given, a call has a result: nothing is read or written outside a store, no two pieces
that change places differ in length, and no search goes round for ever. It keeps the sizes of the
stores and spares the samples it does not handle. Nothing is assumed of the arithmetic. -/
namespace RealtimeAudio
variable {α : Type}

/-- An exchange keeps the number of lines and their lengths. -/
theorem Delay.exchangeAll?_sizes {length : Nat} {lines blocks outs after : List (List α)}
    (fits : ∀ line ∈ lines, line.length = length)
    (exchanged : exchangeAll? length lines blocks = some (outs, after)) :
    after.length = lines.length ∧ ∀ line ∈ after, line.length = length := by
  induction lines generalizing blocks outs after with
  | nil =>
    obtain ⟨-, rfl⟩ : blocks = outs ∧ [] = after := by simpa [exchangeAll?] using exchanged
    exact ⟨rfl, fits⟩
  | cons line lines ih =>
    cases blocks with
    | nil =>
      obtain ⟨-, rfl⟩ : [] = outs ∧ line :: lines = after := by
        simpa [exchangeAll?] using exchanged
      exact ⟨rfl, fits⟩
    | cons block blocks =>
      have first := exchange?_eq (fits line List.mem_cons_self) block
      simp only [exchangeAll?, first, Option.bind_eq_bind, Option.bind_some,
        Option.bind_eq_some_iff, Option.pure_def, Option.some.injEq, Prod.mk.injEq] at exchanged
      obtain ⟨⟨rest, kept⟩, later, -, rfl⟩ := exchanged
      obtain ⟨count, sizes⟩ := ih (fun other member =>
        fits other (List.mem_cons_of_mem _ member)) later
      refine ⟨congrArg (· + 1) count, ?_⟩
      intro other member
      rcases List.mem_cons.mp member with rfl | member
      · rw [length_remaining]
        exact fits line List.mem_cons_self
      · exact sizes other member

namespace Compressor

/-- Each buffer keeps its length and its samples from the `n`-th on, and those beyond the channels
keep everything. -/
structure Spares (channels n : Nat) (buffers outputs : List (List α)) : Prop where
  each : List.Forall₂ (fun before after => after.length = before.length ∧
    after.drop n = before.drop n) buffers outputs
  beyond : outputs.drop channels = buffers.drop channels

namespace Spares

theorem refl (channels n : Nat) (buffers : List (List α)) :
    Spares channels n buffers buffers :=
  ⟨List.forall₂_same.mpr fun _ _ => ⟨rfl, rfl⟩, rfl⟩

/-- Outputs of `n` samples for the first buffers, each in front of what its buffer had behind. -/
theorem replaced {channels n : Nat} {outs buffers : List (List α)}
    (complete : outs.length = (buffers.take channels).length)
    (equal : ∀ out ∈ outs, out.length = n) (long : ∀ b ∈ buffers.take channels, n ≤ b.length) :
    Spares channels n buffers
      (List.zipWith (fun out buffer => out ++ buffer.drop n) outs (buffers.take channels) ++
        buffers.drop channels) := by
  have size : (List.zipWith (fun out buffer => out ++ buffer.drop n) outs
      (buffers.take channels)).length = (buffers.take channels).length := by
    rw [List.length_zipWith, complete, Nat.min_self]
  constructor
  case each =>
    conv => lhs; rw [← List.take_append_drop channels buffers]
    refine List.rel_append (List.forall₂_iff_get.mpr ⟨size.symm, fun i inside among => ?_⟩)
      (List.forall₂_same.mpr fun _ _ => ⟨rfl, rfl⟩)
    have produced : i < outs.length := by omega
    have front := equal outs[i] (List.getElem_mem produced)
    have room : n ≤ (buffers.take channels)[i].length := long _ (List.getElem_mem inside)
    rw [List.get_eq_getElem, List.get_eq_getElem, List.getElem_zipWith]
    constructor
    · rw [List.length_append, List.length_drop, front]
      exact Nat.add_sub_of_le room
    · rw [List.drop_left' front]
  case beyond => exact (take_drop_of_replaced size).2

end Spares

theorem foldl_min_cases (start : Nat) (active : List (List α)) :
    active.foldl (fun n b => min n b.length) start = start ∨
      ∃ b ∈ active, b.length = active.foldl (fun n b => min n b.length) start := by
  induction active generalizing start with
  | nil => exact Or.inl rfl
  | cons b rest ih =>
    rw [List.foldl_cons]
    rcases ih (min start b.length) with first | ⟨other, member, same⟩
    · rw [first]
      rcases Nat.le_total start b.length with less | more
      · exact Or.inl (Nat.min_eq_left less)
      · exact Or.inr ⟨b, List.mem_cons_self, (Nat.min_eq_right more).symm⟩
    · exact Or.inr ⟨other, List.mem_cons_of_mem b member, same⟩

/-- A call handles as many samples as the least of the count, the limit and the lengths of the
buffers in use. -/
theorem isLeast_blockLength (channels count : Nat) (buffers : List (List α)) :
    IsLeast ({count, blockLimit} ∪ {n | ∃ b ∈ buffers.take channels, b.length = n})
      (blockLength channels count buffers) := by
  obtain ⟨below, shortest⟩ := blockLength_le channels count buffers
  constructor
  · rcases foldl_min_cases (min count blockLimit) (buffers.take channels) with start | buffer
    · left
      change blockLength channels count buffers = min count blockLimit at start
      rw [start]
      rcases Nat.le_total count blockLimit with less | more
      · exact Or.inl (Nat.min_eq_left less)
      · exact Or.inr (Nat.min_eq_right more)
    · exact Or.inr buffer
  · rintro n ((rfl | rfl) | ⟨b, member, rfl⟩)
    · exact below.trans (Nat.min_le_left _ _)
    · exact below.trans (Nat.min_le_right _ _)
    · exact shortest b member

variable [Arithmetic α] {p : Parameters α} {c c' : Compressor α}

/-- The sizes of the stores. -/
structure Sized (p : Parameters α) (c : Compressor α) : Prop where
  levels : c.levels.length = blockLimit + p.lookAhead
  crests : c.crests.length = blockLimit
  lines : c.delays.length = if 0 < p.lookAhead then p.channels else 0
  line : ∀ line ∈ c.delays, line.length = p.lookAhead
  hold : c.hold.map PeakHold.length = p.holdLength.map PeakHold.span
  slots : ∀ h ∈ c.hold, h.front.val < blockLimit ∧ h.back.val < blockLimit

/-- A compressor between calls: it shows some flow, and each channel has its line. -/
structure Standing (p : Parameters α) (c : Compressor α) : Prop where
  parameters : c.parameters = p
  shows : ∃ f, c.Shows f
  lines : c.delays.length = if 0 < p.lookAhead then p.channels else 0
  line : ∀ line ∈ c.delays, line.length = p.lookAhead

namespace Standing

theorem sized (standing : Standing p c) : Sized p c := by
  obtain ⟨rfl, ⟨f, shows⟩, lines, line⟩ := standing
  obtain ⟨rest, room, levels⟩ := shows.levels
  refine ⟨?_, shows.crests, lines, line, ?_, fun h _ => ⟨h.front.isLt, h.back.isLt⟩⟩
  · rw [levels, List.length_append, shows.pending, room, Nat.add_comm]
  · cases asked : c.parameters.holdLength with
    | none =>
      rw [shows.unheld asked]
      rfl
    | some length =>
      obtain ⟨h, present, size, -⟩ := shows.held length asked
      rw [present, Option.map_some, Option.map_some, size]

/-- There are lines for as many buffers as are in use. -/
theorem delays (standing : Standing p c) {active : Nat} (few : active ≤ p.channels) :
    ∃ lines, lines.length = active ∧ c.Delays lines := by
  obtain ⟨rfl, -, lines, line⟩ := standing
  by_cases ahead : 0 < c.parameters.lookAhead
  · rw [if_pos ahead] at lines
    refine ⟨c.delays.take active, ?_, fun line' member => line line' (List.mem_of_mem_take member),
      fun _ => ⟨c.delays.drop active, (List.take_append_drop active c.delays).symm⟩⟩
    rw [List.length_take, lines, Nat.min_eq_left few]
  · refine ⟨List.replicate active [], List.length_replicate, ?_, fun some => absurd some ahead⟩
    intro line' member
    rw [List.eq_of_mem_replicate member, List.length_nil]
    omega

end Standing

variable [Elementary α] {count : Nat} {buffers outputs : List (List α)}

theorem computeGains?_keeps {linked : List α} (computed : c.computeGains? linked = some c') :
    c'.parameters = c.parameters ∧ c'.delays = c.delays := by
  simp only [computeGains?, Option.bind_eq_bind, Option.bind_eq_some_iff, Option.pure_def,
    Option.some.injEq] at computed
  obtain ⟨crests, -, ⟨hold, detected⟩, -, levels, -, ⟨gain, deepest, left⟩, -, rfl⟩ := computed
  exact ⟨rfl, rfl⟩

/-- The lines after a call are those before it, or have been through an exchange. -/
theorem process?_delays (processed : c.process? count buffers = some (c', outputs)) :
    c'.delays = c.delays ∨ ∃ blocks outs,
      Delay.exchangeAll? c.parameters.lookAhead c.delays blocks = some (outs, c'.delays) := by
  unfold process? at processed
  dsimp only at processed
  split at processed
  · obtain ⟨rfl, -⟩ := Prod.mk.inj (Option.some.inj processed)
    exact Or.inl rfl
  · simp only [Option.bind_eq_bind, Option.bind_eq_some_iff] at processed
    obtain ⟨blocks, -, c₁, computed, processed⟩ := processed
    rw [← ite_bind] at processed
    simp only [Option.bind_eq_some_iff, Option.pure_def, Option.some.injEq,
      Prod.mk.injEq] at processed
    obtain ⟨⟨outs, lines⟩, exchanged, gains, -, done, -, kept, -, levels, -, rfl, -⟩ := processed
    obtain ⟨-, same⟩ := computeGains?_keeps computed
    rw [same] at exchanged
    split at exchanged
    · exact Or.inr ⟨_, _, exchanged⟩
    · obtain ⟨-, rfl⟩ := Prod.mk.inj (Option.some.inj exchanged)
      exact Or.inl rfl

namespace Standing

theorem new (p : Parameters α) : Standing p (ofParameters p) where
  parameters := rfl
  shows := ⟨_, .ofParameters p⟩
  lines := by
    unfold ofParameters
    dsimp only
    split
    · exact List.length_replicate
    · rfl
  line := by
    unfold ofParameters
    dsimp only
    split
    · intro line member
      rw [List.eq_of_mem_replicate member, List.length_replicate]
    · intro line member
      cases member

theorem process (standing : Standing p c) (count : Nat) (buffers : List (List α)) :
    ∃ c' outputs, c.process? count buffers = some (c', outputs) ∧ Standing p c' ∧
      Spares p.channels (blockLength p.channels count buffers) buffers outputs ∧
      (blockLength p.channels count buffers = 0 ∨ buffers.take p.channels = [] →
        c' = c ∧ outputs = buffers) := by
  by_cases idle : blockLength p.channels count buffers = 0 ∨ buffers.take p.channels = []
  · have same : c.process? count buffers = some (c, buffers) :=
      process?_idle c count buffers (by rwa [standing.parameters])
    exact ⟨c, buffers, same, standing, .refl _ _ _, fun _ => ⟨rfl, rfl⟩⟩
  · have few : (buffers.take p.channels).length ≤ p.channels := List.length_take_le _ _
    obtain ⟨lines, active, delays⟩ := standing.delays few
    obtain ⟨f, shows⟩ := standing.shows
    have carries : c.Carries p f lines := ⟨standing.parameters, shows, delays⟩
    obtain ⟨some, used⟩ := not_or.mp idle
    obtain ⟨-, shortest⟩ := blockLength_le p.channels count buffers
    obtain ⟨c', processed, carried, -⟩ :=
      carries.process rfl (Nat.pos_of_ne_zero some) used active rfl
    have cut : ∀ xs ∈ raised p ((buffers.take p.channels).map
        (List.take (blockLength p.channels count buffers))),
        xs.length = blockLength p.channels count buffers := by
      apply equal_raised
      intro xs member
      obtain ⟨b, among, rfl⟩ := List.mem_map.mp member
      rw [List.length_take, Nat.min_eq_left (shortest b among)]
    have sizes : c'.delays.length = c.delays.length ∧
        ∀ line ∈ c'.delays, line.length = p.lookAhead := by
      rcases process?_delays processed with same | ⟨blocks, outs, exchanged⟩
      · rw [same]
        exact ⟨rfl, standing.line⟩
      · rw [standing.parameters] at exchanged
        exact Delay.exchangeAll?_sizes standing.line exchanged
    refine ⟨c', _, processed, ⟨carried.parameters, ⟨_, carried.shows⟩, ?_, sizes.2⟩, ?_,
      fun unused => absurd unused idle⟩
    · rw [sizes.1, standing.lines]
    · refine Spares.replaced ?_ (length_emitted ?_ cut) shortest
      · simp only [emitted, raised, List.length_map, List.length_zipWith, active, Nat.min_self]
      · rw [Flow.length_gains, length_link _ _ cut]

end Standing

/-- Calls one after another, each with the number of samples asked for and its buffers. -/
def calls? (c : Compressor α) :
    List (Nat × List (List α)) → Option (Compressor α × List (List (List α)))
  | [] => some (c, [])
  | (count, buffers) :: rest => do
    let (c, outputs) ← c.process? count buffers
    let (last, more) ← c.calls? rest
    return (last, outputs :: more)

theorem Standing.calls (standing : Standing p c) (calls : List (Nat × List (List α))) :
    ∃ last outputs, c.calls? calls = some (last, outputs) ∧ Standing p last := by
  induction calls generalizing c with
  | nil => exact ⟨c, [], rfl, standing⟩
  | cons call rest ih =>
    obtain ⟨count, buffers⟩ := call
    obtain ⟨next, outputs, processed, stands, -⟩ := standing.process count buffers
    obtain ⟨last, more, done, ends⟩ := ih stands
    refine ⟨last, outputs :: more, ?_, ends⟩
    rw [calls?, processed, Option.bind_eq_bind, Option.bind_some]
    dsimp only
    rw [done]
    rfl

/-- After any calls the stores have their sizes, and one more call, whatever it asks for and
whatever buffers it is given, has a result: it handles the least of the count, the limit and the
lengths in use, spares all else, and changes nothing where that is nothing. -/
theorem calls_total (preset : Preset α) (calls : List (Nat × List (List α))) :
    let p := Parameters.ofPreset preset
    ∃ c outputs, (ofPreset preset).calls? calls = some (c, outputs) ∧ Sized p c ∧
      ∀ count buffers, ∃ n c' outs,
        IsLeast ({count, blockLimit} ∪ {m | ∃ b ∈ buffers.take p.channels, b.length = m}) n ∧
        c.process? count buffers = some (c', outs) ∧ Sized p c' ∧
        Spares p.channels n buffers outs ∧
        (n = 0 ∨ buffers.take p.channels = [] → c' = c ∧ outs = buffers) := by
  intro p
  obtain ⟨c, outputs, done, standing⟩ := (Standing.new p).calls calls
  refine ⟨c, outputs, done, standing.sized, ?_⟩
  intro count buffers
  obtain ⟨c', outs, processed, stands, spares, idle⟩ := standing.process count buffers
  exact ⟨_, c', outs, isLeast_blockLength _ _ _, processed, stands.sized, spares, idle⟩

end Compressor

end RealtimeAudio
