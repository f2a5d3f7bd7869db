import RealtimeAudio.Proofs.Compressor.Partition

/-! The gains against the samples. All channels are multiplied by the same gains, each of which
depends on the linked levels up to its position only; the channels come out late by the
look-ahead, so that a gain meets the sample whose level the declipping sees. -/
namespace RealtimeAudio
variable {α : Type} [Arithmetic α] [Elementary α]
open Arithmetic

namespace Flow
variable {p : Parameters α}

/-- What is put out sample by sample for a first part of the levels is a first part of what is put
out for all of them. -/
theorem take_of_append {β γ : Type} {g : List β → List γ} {next : List β → List β → List γ}
    (length : ∀ xs, (g xs).length = xs.length)
    (append : ∀ xs ys, g (xs ++ ys) = g xs ++ next xs ys) (xs : List β) (t : Nat) :
    g (xs.take t) = (g xs).take t := by
  have first : g (xs.take t) <+: g xs := by
    conv => rhs; rw [← List.take_append_drop t xs, append]
    exact List.prefix_append _ _
  rw [List.prefix_iff_eq_take.mp first, List.take_eq_take_iff, length, length, List.length_take]
  omega

theorem detected_take (f : Flow α) (levels : List α) (t : Nat) :
    f.detected p (levels.take t) = (f.detected p levels).take t :=
  take_of_append length_detected detected_append levels t

theorem seen_take (f : Flow α) (levels : List α) (t : Nat) :
    f.seen p (levels.take t) = (f.seen p levels).take t :=
  take_of_append length_seen seen_append levels t

def computer (p : Parameters α) (levels : List α) : GainState α :=
  ((start p).advance p levels).gain

/-- The gain at position `t`, from the levels up to there. -/
def gainAt (p : Parameters α) (levels : List α) (t : Nat) : α :=
  (computer p (levels.take (t + 1))).gain p

theorem computer_take (levels : List α) (t : Nat) :
    computer p (levels.take t) =
      (((start p).seen p levels).take t).foldl (GainState.step p) .still := by
  rw [← seen_take]
  rfl

theorem getElem?_states {levels : List α} {t : Nat} (inside : t < levels.length) :
    ((start p).states p levels)[t]? = some (computer p (levels.take (t + 1))) := by
  rw [states, getElem?_trajectory _ _ _ (by rwa [length_seen]), computer_take]
  rfl

theorem getElem?_gains {levels : List α} {t : Nat} (inside : t < levels.length) :
    ((start p).gains p levels)[t]? = some (gainAt p levels t) := by
  rw [gains, List.getElem?_map, getElem?_states inside]
  rfl

/-- The level of the sample that leaves the delay is as late as that sample. -/
theorem getElem?_seen {levels : List α} {t : Nat} (inside : t < levels.length) :
    ((start p).seen p levels)[t]? = some
      { leaving := Delay.behind (Elementary.ln Level.amplitudeFloor) p.lookAhead
          ((start p).detected p levels) t
        entering := ((start p).detected p levels).getD t 0.0
        crest := ((start p).factors p levels).getD t 0.0 } := by
  have detected : t < ((start p).detected p levels).length := by rwa [length_detected]
  have factors : t < ((start p).factors p levels).length := by rwa [length_factors]
  have leaving := Delay.getElem?_leaving (Elementary.ln Level.amplitudeFloor) p.lookAhead detected
  have entering := List.getElem?_eq_getElem detected
  have crest := List.getElem?_eq_getElem factors
  rw [← List.getD_eq_getElem _ (0.0 : α)] at entering crest
  have pending : (start p).pending =
      List.replicate p.lookAhead (Elementary.ln Level.amplitudeFloor) := rfl
  rw [seen, sights, List.zip, List.getElem?_zipWith, List.getElem?_zipWith, pending, leaving,
    entering, crest]

theorem computer_take_succ {levels : List α} {t : Nat} (inside : t < levels.length) :
    computer p (levels.take (t + 1)) = (computer p (levels.take t)).step p
      { leaving := Delay.behind (Elementary.ln Level.amplitudeFloor) p.lookAhead
          ((start p).detected p levels) t
        entering := ((start p).detected p levels).getD t 0.0
        crest := ((start p).factors p levels).getD t 0.0 } := by
  rw [computer_take, computer_take, List.take_add_one, getElem?_seen inside, List.foldl_append]
  rfl

/-- Levels after a position do not change the gain there. -/
theorem gainAt_congr {levels others : List α} {t : Nat}
    (agree : others.take (t + 1) = levels.take (t + 1)) {s : Nat} (early : s ≤ t) :
    gainAt p others s = gainAt p levels s := by
  have shorter (xs : List α) : xs.take (s + 1) = (xs.take (t + 1)).take (s + 1) := by
    rw [List.take_take, Nat.min_eq_left (Nat.succ_le_succ early)]
  rw [gainAt, gainAt, shorter others, agree, ← shorter]

end Flow

namespace Compressor

/-- One channel's output: its pre-gained samples, late by the look-ahead and after silence, each
multiplied by the gain for its position. -/
def Emits (p : Parameters α) (levels xs ys : List α) : Prop :=
  ys.length = xs.length ∧ ∀ t < xs.length, ys[t]? = some
    (Delay.behind 0.0 p.lookAhead (xs.map (· * p.preGain)) t * Flow.gainAt p levels t)

/-- The attenuation asked for at a level: none below the knee, along a parabola within it, and in
proportion to the excess over the threshold above it. -/
inductive Asks (p : Parameters α) (knee level : α) : (demand : α) → Prop
  | below : level - p.threshold ≤ -(0.5 * knee) → Asks p knee level (-p.slope * 0.0)
  | within : ¬ level - p.threshold ≤ -(0.5 * knee) →
      magnitude (level - p.threshold) < 0.5 * knee →
      Asks p knee level (-p.slope * ((level - p.threshold + 0.5 * knee) *
        (level - p.threshold + 0.5 * knee) / (2.0 * knee)))
  | above : ¬ level - p.threshold ≤ -(0.5 * knee) →
      ¬ magnitude (level - p.threshold) < 0.5 * knee →
      Asks p knee level (-p.slope * (level - p.threshold))

/-- How the gain computer goes on by a sample and which gain it then gives. The level that enters
the look-ahead meets the static curve; the one that leaves it only raises the deviation. -/
structure Responds (p : Parameters α) (entering leaving crest : α) (s next : GainState α)
    (gain : α) : Prop where
  released : ∃ demand, Asks p (p.kneeWidth s.deviation) entering demand ∧
    next.released =
      larger demand (mix demand s.released (Time.smoothing (p.releaseTime crest)))
  attenuation : next.attenuation =
    mix next.released s.attenuation (Time.smoothing (p.attackTime crest))
  tracked : (p.auto.postGain && p.auto.declip) = false → next.deviation =
    mix (-(next.attenuation + p.gainEstimate)) s.deviation p.adaptCoefficient
  declipped : (p.auto.postGain && p.auto.declip) = true → next.deviation =
    larger (mix (-(next.attenuation + p.gainEstimate)) s.deviation p.adaptCoefficient)
      (leaving - next.attenuation - p.threshold - p.gainEstimate)
  fixed : p.auto.postGain = false → gain = Elementary.exp (p.postGain - next.attenuation)
  automatic : p.auto.postGain = true →
    gain = Elementary.exp (-(next.deviation + p.gainEstimate) - next.attenuation)

omit [Elementary α] in
theorem asks_demand (p : Parameters α) (deviation level : α) :
    Asks p (p.kneeWidth deviation) level (p.demand deviation level) := by
  unfold Parameters.demand Parameters.overshoot
  dsimp only
  split_ifs with low near
  · exact .below low
  · exact .within low near
  · exact .above low near

theorem responds_step (p : Parameters α) (s : GainState α) (entering leaving crest : α) :
    Responds p entering leaving crest s (s.step p ⟨leaving, entering, crest⟩)
      ((s.step p ⟨leaving, entering, crest⟩).gain p) where
  released := ⟨_, asks_demand p s.deviation entering, rfl⟩
  attenuation := rfl
  tracked off := by
    simp only [GainState.step, Parameters.declipped, off, Bool.false_eq_true, if_false]
  declipped on := by simp only [GainState.step, Parameters.declipped, on, if_true]
  fixed off := by simp only [GainState.gain, Parameters.makeUp, off, Bool.false_eq_true, if_false]
  automatic on := by simp only [GainState.gain, Parameters.makeUp, on, if_true]

/-- How whole signals of `n` samples come out. -/
structure Aligned [Elementary Float32] (p : Parameters Float32) (n : Nat)
    (signals outputs : List (List Float32)) (levels detected : List Float32) : Prop where
  /-- All channels share the gains, which depend on the signals through the levels only. -/
  emits : List.Forall₂ (Emits p levels) signals outputs
  /-- A level is the greatest magnitude at its position. -/
  level : ∀ t < n, ∃ x, levels[t]? = some x ∧
    Greatest x (0.0 :: signals.map fun xs => loudness (xs.getD t 0.0 * p.preGain))
  order : ∀ others, others.Perm signals → link n (raised p others) = levels
  detects : ∃ hold, detect? (ofParameters p).hold levels = some (hold, detected)
  prompt : ∀ t, ∃ hold, detect? (ofParameters p).hold (levels.take t) =
    some (hold, detected.take t)
  start : Flow.computer p (levels.take 0) = .still
  /-- The static curve sees the level at its position, and the declipping that of the sample
  which is put out there. -/
  responds : ∀ t < n, Responds p (detected.getD t 0.0)
    (Delay.behind (Elementary.ln Level.amplitudeFloor) p.lookAhead detected t)
    (((Flow.start p).factors p levels).getD t 0.0)
    (Flow.computer p (levels.take t)) (Flow.computer p (levels.take (t + 1)))
    (Flow.gainAt p levels t)
  /-- Signals whose levels agree up to a position have the same gains up to there. -/
  causal : ∀ m others t, (link m (raised p others)).take (t + 1) = levels.take (t + 1) →
    ∀ s ≤ t, Flow.gainAt p (link m (raised p others)) s = Flow.gainAt p levels s

theorem emits_response {p : Parameters α} {n : Nat} {levels : List α} {signals : List (List α)}
    (size : levels.length = n) (equal : ∀ xs ∈ signals, xs.length = n) :
    List.Forall₂ (Emits p levels) signals (emitted ((Flow.start p).gains p levels)
      (List.replicate signals.length (List.replicate p.lookAhead 0.0)) (raised p signals)) := by
  induction signals with
  | nil => exact .nil
  | cons xs rest ih =>
    have long := equal xs List.mem_cons_self
    have later := ih fun ys member => equal ys (List.mem_cons_of_mem _ member)
    refine .cons ⟨?_, fun t inside => ?_⟩ later
    · rw [List.length_zipWith, Delay.length_leaving, List.length_map, Flow.length_gains, size, long,
        Nat.min_self]
    · have delayed := Delay.getElem?_leaving (0.0 : α) p.lookAhead
        (inside.trans_eq (List.length_map (· * p.preGain)).symm)
      rw [List.getElem?_zipWith, delayed, Flow.getElem?_gains (by omega)]

/-- The channels that are worked on come out as they should, and the others as they are. -/
theorem response_emits {p : Parameters α} {n : Nat} {signals : List (List α)}
    (equal : ∀ xs ∈ signals.take p.channels, xs.length = n) :
    List.Forall₂ (Emits p (link n (raised p (signals.take p.channels))))
        (signals.take p.channels) ((response p n signals).take p.channels) ∧
      (response p n signals).drop p.channels = signals.drop p.channels := by
  have size : (link n (raised p (signals.take p.channels))).length = n :=
    length_link n _ (equal_raised equal)
  have emits := emits_response (p := p) size equal
  obtain ⟨first, rest⟩ := take_drop_of_replaced emits.length_eq.symm
  rw [response, raised, List.length_map, ← raised]
  refine ⟨?_, rest⟩
  rwa [first]

theorem level_raised {p : Parameters Float32} {n t : Nat} {signals : List (List Float32)}
    (equal : ∀ xs ∈ signals, xs.length = n) (inside : t < n) :
    ∃ x, (link n (raised p signals))[t]? = some x ∧
      Greatest x (0.0 :: signals.map fun xs => loudness (xs.getD t 0.0 * p.preGain)) := by
  have samples : (raised p signals).map (·.getD t 0.0) =
      signals.map fun xs => xs.getD t 0.0 * p.preGain := by
    rw [raised, List.map_map]
    refine List.map_congr_left fun xs member => ?_
    have within : t < xs.length := by rwa [equal xs member]
    simp [within]
  refine ⟨_, getElem?_link (equal_raised equal) inside, ?_⟩
  have greatest := greatest_loudness (signals.map fun xs => xs.getD t 0.0 * p.preGain)
  rw [samples]
  simpa only [List.map_map, Function.comp_def] using greatest

/-- Over any calls, a gain meets the sample whose level the declipping has seen. Nothing is assumed
of `exp`, `ln` and the powers. -/
theorem stream_alignment [Elementary Float32] (preset : Preset Float32) {n : Nat}
    {signals : List (List Float32)} {sizes : List Nat}
    (complete : signals.length = preset.channels) (equal : ∀ xs ∈ signals, xs.length = n)
    (cut : Cut n sizes) :
    let p := Parameters.ofPreset preset
    ∃ c outputs readings detected,
      (ofPreset preset).stream? sizes signals = some (c, outputs, readings) ∧
      Aligned p n signals outputs (link n (raised p signals)) detected := by
  intro p
  have channels : p.channels = signals.length := complete.symm
  have whole : signals.take p.channels = signals := by rw [channels, List.take_length]
  have rest : signals.drop p.channels = [] := by rw [channels, List.drop_length]
  have size : (link n (raised p signals)).length = n := length_link n _ (equal_raised equal)
  have detect (levels : List Float32) :
      ∃ hold, detect? (ofParameters p).hold levels =
        some (hold, (Flow.start p).detected p levels) := by
    obtain ⟨hold, found, -⟩ := (Shows.ofParameters p).detect levels
    exact ⟨hold, found⟩
  obtain ⟨c, streamed⟩ := ofParameters_stream p cut (by rwa [whole])
  refine ⟨c, _, _, (Flow.start p).detected p (link n (raised p signals)), streamed, ?_⟩
  rw [response, whole, rest, List.append_nil, raised, List.length_map, ← raised]
  constructor
  case emits => exact emits_response size equal
  case level => exact fun t inside => level_raised equal inside
  case order => exact fun others perm => link_perm (perm.map _) (equal_raised equal)
  case detects => exact detect _
  case prompt =>
    intro t
    rw [← Flow.detected_take]
    exact detect _
  case start =>
    rw [List.take_zero, Flow.computer, Flow.advance_nil]
    rfl
  case responds =>
    intro t inside
    rw [Flow.gainAt, Flow.computer_take_succ (inside.trans_eq size.symm)]
    exact responds_step p _ _ _ _
  case causal =>
    intro m others t agree s early
    exact Flow.gainAt_congr agree early

theorem stream_alignment_limiter :
    [[0.5, -1.0, 0.25], [0.0, 0.75, -0.5]].length = (Preset.limiter 2 44100.0).channels ∧
    Cut 3 [1, 2] ∧
    let p := Parameters.ofPreset (Preset.limiter 2 44100.0)
    ∃ c outputs readings detected,
      (ofPreset (Preset.limiter 2 44100.0)).stream? [1, 2]
        [[0.5, -1.0, 0.25], [0.0, 0.75, -0.5]] = some (c, outputs, readings) ∧
      Aligned p 3 [[0.5, -1.0, 0.25], [0.0, 0.75, -0.5]] outputs
        (link 3 (raised p [[0.5, -1.0, 0.25], [0.0, 0.75, -0.5]])) detected := by
  have cut : Cut 3 [1, 2] := ⟨rfl, by decide⟩
  exact ⟨rfl, cut, stream_alignment (Preset.limiter 2 44100.0) rfl (by decide) cut⟩

end Compressor

end RealtimeAudio
