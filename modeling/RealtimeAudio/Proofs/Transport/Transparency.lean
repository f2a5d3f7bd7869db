import RealtimeAudio.Proofs.Transport.Delivery

/-! What comes out of the transport, set against the compressor fed directly. Both are the
compressor's response to the signals, which for the first samples is the first of the response;
so a run that is cut short has delivered a first part of it, and a whole run all of it. -/
namespace RealtimeAudio

namespace Compressor
variable {α : Type} [Arithmetic α] [Elementary α]

section Prefixes
omit [Arithmetic α] [Elementary α]

theorem map_take_zipWith_append {m : Nat} {front back : List (List α)}
    (equal : ∀ xs ∈ front, xs.length = m) (count : front.length = back.length) :
    (List.zipWith (· ++ ·) front back).map (List.take m) = front := by
  apply List.ext_getElem
  · simp [count]
  · intro i _ inside
    rw [List.getElem_map, List.getElem_zipWith]
    exact List.take_left' (equal _ (List.getElem_mem inside))

end Prefixes

/-- The first samples of the output are the output for the first samples. -/
theorem response_take (p : Parameters α) {m k : Nat} {signals : List (List α)}
    (equal : ∀ xs ∈ signals.take p.channels, xs.length = m + k) :
    response p m (signals.map (List.take m)) = (response p (m + k) signals).map (List.take m) := by
  have active : (signals.map (List.take m)).take p.channels =
      (signals.take p.channels).map (List.take m) := List.map_take.symm
  have blocks := equal_raised (p := p) equal
  have size : (link m ((raised p (signals.take p.channels)).map (List.take m))).length = m :=
    length_link m _ (equal_take blocks)
  have gains : ((Flow.start p).gains p
      (link m ((raised p (signals.take p.channels)).map (List.take m)))).length = m := by
    rw [Flow.length_gains, size]
  unfold response
  dsimp only
  rw [active, raised_take, List.length_map, link_add m k _ blocks, Flow.gains_append,
    emitted_append gains blocks, List.map_append, map_take_zipWith_append, List.map_drop]
  · exact length_emitted gains (equal_take blocks)
  · simp [emitted]

end Compressor

namespace Transport
variable {granted : Nat → Bool} {elements : Nat} {reserve : Bool} {t : Transport}

/-- What a run has delivered of signals of `n` samples, where the compressor by itself makes
`outputs` of them. -/
structure Delivers (t : Transport) (signals outputs : List (List Float32)) (n : Nat) (schedule : List (Nat × Nat))
    (last : Transport) (rounds : List Round) : Prop where
  few : brought rounds ≤ n
  output : Transport.output signals.length rounds = outputs.map (List.take (brought rounds))
  waiting : last.ring.queue.flatten ++ Bytes.ofSingles last.unsent =
    Bytes.ofSingles (Frames.interleave (n - brought rounds)
      (signals.map (List.drop (brought rounds))))
  complete : last.outstanding = false ↔ brought rounds = n
  whole : last.outstanding = false → Transport.output signals.length rounds = outputs
  steady : last.outstanding = true → rounds.length = schedule.length
  prompt : t.Attempts schedule →
    (∀ round ∈ rounds, 1 ≤ round.read) ∧ rounds.length ≤ n ∧
      (n ≤ schedule.length → last.outstanding = false)

theorem length_le_brought {rounds : List Round} (some : ∀ round ∈ rounds, 1 ≤ round.read) :
    rounds.length ≤ brought rounds := by
  induction rounds with
  | nil => exact Nat.zero_le _
  | cons round rounds ih =>
    have first := some round List.mem_cons_self
    have later := ih fun other member => some other (List.mem_cons_of_mem _ member)
    simp only [brought, List.map_cons, List.sum_cons, List.length_cons] at later ⊢
    omega

/-- A transport that was just set out has everything before it. -/
theorem start_pending {c : Compressor Float32} {signals : List (List Float32)} {n : Nat}
    (equal : ∀ xs ∈ signals, xs.length = n)
    (made : start granted elements reserve c signals = .ok t) :
    t.compressor = c ∧ t.Pending signals n := by
  obtain ⟨ring, created, done⟩ : ∃ ring,
      Ring.create granted elements (frameSize signals.length) reserve = .ok ring ∧
        ⟨signals.length, ring, c, Frames.interleave (Frames.count signals) signals⟩ = t := by
    unfold start at made
    cases created : Ring.create granted elements (frameSize signals.length) reserve with
    | error fault => simp [created, bind, Except.bind] at made
    | ok ring => exact ⟨ring, rfl, by simpa [created, bind, Except.bind, pure, Except.pure] using made⟩
  obtain rfl := done
  have used : signals ≠ [] := by
    rintro rfl
    have positive := (Ring.create_ok created).1
    exact absurd positive (by decide)
  have queue := (Ring.create_run_actsAsQueue created []).1
  refine ⟨rfl, ?_⟩
  constructor
  case channels => rfl
  case equal => exact equal
  case used => exact used
  case ring => exact Ring.wellFormed_create created
  case size =>
    obtain ⟨-, _, _, -, -, rfl⟩ := Ring.create_ok created
    rfl
  case room => exact Ring.one_le_writeLimit created
  case bytes =>
    dsimp only
    rw [queue, List.flatten_nil, List.nil_append, Frames.count_eq used equal]

/-- What a run from a new compressor brings out is the first of the compressor's response. -/
theorem Carries.output_eq {last : Transport} {p : Parameters Float32}
    {signals : List (List Float32)} {n : Nat} {rounds : List Round}
    (carries : t.Carries last signals n rounds) (new : t.compressor = .ofParameters p)
    (equal : ∀ xs ∈ signals, xs.length = n) :
    output t.channels rounds =
      (Compressor.response p n signals).map (List.take (brought rounds)) := by
  obtain ⟨few, -, ⟨calls, readings, cut, streamed⟩, -⟩ := carries
  obtain ⟨more, rfl⟩ := Nat.exists_eq_add_of_le few
  have front : ∀ xs ∈ (signals.map (List.take (brought rounds))).take p.channels,
      xs.length = brought rounds :=
    Compressor.equal_front (Compressor.equal_take equal)
  obtain ⟨c, direct⟩ := Compressor.ofParameters_stream p cut front
  rw [new] at streamed
  have same := streamed.symm.trans direct
  calc
    _ = Compressor.response p (brought rounds) (signals.map (List.take (brought rounds))) :=
      (Prod.mk.inj (Prod.mk.inj (Option.some.inj same)).2).1
    _ = _ := Compressor.response_take p (Compressor.equal_front equal)

/-- Behind a ring the compressor makes of signals what it makes of them alone. Whatever the
schedule of writes and reads, the samples that have come out are the first ones and the frames of
all others wait; and where each round attempts to move a frame each way, each does bring some
out. -/
theorem start_run_transparent {preset : Preset Float32} {signals : List (List Float32)} {n : Nat}
    {sizes : List Nat} {schedule : List (Nat × Nat)} (channels : signals.length = preset.channels)
    (equal : ∀ xs ∈ signals, xs.length = n)
    (made : start granted elements reserve (.ofPreset preset) signals = .ok t)
    (cut : Compressor.Cut n sizes) (fit : ∀ step ∈ schedule, step.2 ≤ blockLimit) :
    ∃ last rounds c outputs readings, t.run? schedule = some (last, rounds) ∧
      (Compressor.ofPreset preset).stream? sizes signals = some (c, outputs, readings) ∧
      t.Delivers signals outputs n schedule last rounds := by
  obtain ⟨new, pending⟩ := start_pending equal made
  have wide : t.channels = signals.length := pending.channels.symm
  have ready : t.compressor.Ready t.channels := by
    rw [new, wide, channels]
    exact Compressor.Ready.ofParameters (.ofPreset preset)
  have active : ∀ xs ∈ signals.take (Parameters.ofPreset preset).channels, xs.length = n :=
    Compressor.equal_front equal
  obtain ⟨last, rounds, ran, carries, steady, prompt⟩ := pending.run ready fit
  obtain ⟨c, alone⟩ := Compressor.ofParameters_stream (.ofPreset preset) cut active
  have delivered := carries.output_eq new equal
  have few := carries.few
  have rest := carries.pending
  rw [wide] at delivered
  have complete : last.outstanding = false ↔ brought rounds = n := by
    rw [← Bool.not_eq_true, rest.outstanding_iff]
    omega
  refine ⟨last, rounds, c, _, _, ran, alone, ?_⟩
  constructor
  case few => exact few
  case output => exact delivered
  case waiting => exact rest.bytes
  case complete => exact complete
  case whole =>
    intro done
    have all : signals.map (List.take n) = signals := by
      conv => rhs; rw [← List.map_id signals]
      exact List.map_congr_left fun xs member =>
        List.take_of_length_le (Nat.le_of_eq (equal xs member))
    have last := Compressor.response_take (.ofPreset preset) (k := 0) active
    rw [all] at last
    rw [delivered, complete.mp done]
    exact last.symm
  case steady =>
    intro missing
    have := rest.outstanding_iff.mp missing
    exact steady (by omega)
  case prompt =>
    intro may
    have each := prompt may
    have most := length_le_brought each
    refine ⟨each, by omega, fun enough => complete.mpr ?_⟩
    by_contra missing
    have used := steady (by omega)
    omega

/-- Three frames through a ring with two places; some rounds write nothing, or read nothing. -/
theorem start_run_transparent_standard :
    let signals := [[0.5, -1.0, 0.25], [0.0, 0.75, -0.5]]
    let schedule := [(2, 0), (9, 1), (0, 2), (5, 3), (1, 1)]
    let t : Transport := ⟨2, ⟨2, 8, 2, 0, 0, List.replicate 16 0⟩, .ofPreset Preset.standard,
      [0.5, 0.0, -1.0, 0.75, 0.25, -0.5]⟩
    start (fun _ => true) 1 false (.ofPreset Preset.standard) signals = .ok t ∧
      ∃ last rounds c outputs readings, t.run? schedule = some (last, rounds) ∧
        (Compressor.ofPreset Preset.standard).stream? [1, 2] signals =
          some (c, outputs, readings) ∧
        t.Delivers signals outputs 3 schedule last rounds := by
  intro signals schedule t
  have made : start (fun _ => true) 1 false (.ofPreset Preset.standard) signals = .ok t := rfl
  have cut : Compressor.Cut 3 [1, 2] := ⟨rfl, by decide⟩
  exact ⟨made, start_run_transparent rfl (by decide) made cut (by decide)⟩

end Transport

end RealtimeAudio
