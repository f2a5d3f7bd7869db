import RealtimeAudio.Proofs.Arithmetic.Exact
import RealtimeAudio.Proofs.Compressor.Partition

/-! The ceiling of a compressor that declips, without rounding. Every level in the look-ahead
bounds the sample that waits beside it in each channel's line, and the declipping sees the level
that leaves just as the sample does: whatever the gain computer had come to, the gain it gives
next brings that sample down to the threshold. -/
namespace RealtimeAudio
open Arithmetic Exact

section Related
variable {β γ δ : Type}

theorem forall₂_trans {R : β → γ → Prop} {S : γ → δ → Prop} {T : β → δ → Prop} {xs : List β}
    {ys : List γ} {zs : List δ} (step : ∀ {x y z}, R x y → S y z → T x z)
    (first : List.Forall₂ R xs ys) (second : List.Forall₂ S ys zs) : List.Forall₂ T xs zs := by
  induction first generalizing zs with
  | nil =>
    cases second
    exact .nil
  | cons related _ ih =>
    cases second with
    | cons again later => exact .cons (step related again) (ih later)

theorem forall_mem_zipWith {f : β → γ → δ} {P : δ → Prop} {xs : List β} {ys : List γ}
    (each : ∀ x ∈ xs, ∀ y ∈ ys, P (f x y)) : ∀ z ∈ List.zipWith f xs ys, P z := by
  intro z member
  rw [← List.map_uncurry_zip_eq_zipWith] at member
  obtain ⟨⟨x, y⟩, paired, rfl⟩ := List.mem_map.mp member
  obtain ⟨left, right⟩ := List.of_mem_zip paired
  exact each x left y right

theorem forall₂_trajectory {step : γ → β → γ} {R : γ → β → Prop}
    (each : ∀ s x, R (step s x) x) (s : γ) (xs : List β) :
    List.Forall₂ R (trajectory step s xs) xs := by
  induction xs generalizing s with
  | nil => exact .nil
  | cons x xs ih => exact .cons (each s x) (ih (step s x))

end Related

/-- Samples that are no larger than the levels beside them say. -/
def Within (samples levels : List ℝ) : Prop :=
  List.Forall₂ (fun x level => |x| ≤ Real.exp level) samples levels

section Levels

/-- A new entry is the maximum or is below it. -/
theorem Window.le_peak_update (length : Nat) (w : Window ℝ) (position : Nat) (x : ℝ) :
    x ≤ (w.update length position x).peak := by
  rw [Window.update, Window.push]
  split
  · exact le_refl x
  · rename_i above
    exact (not_le.mp above).le

theorem Window.le_feed (length : Nat) (w : Window ℝ) (position : Nat) (xs : List ℝ) :
    List.Forall₂ (· ≤ ·) xs (w.feed length position xs).2 := by
  induction xs generalizing w position with
  | nil => exact .nil
  | cons x xs ih => exact .cons (w.le_peak_update length position x) (ih _ _)

/-- With or without a hold, no level is detected lower than it is. -/
theorem Flow.le_detected (p : Parameters ℝ) (f : Flow ℝ) (linked : List ℝ) :
    List.Forall₂ (fun x level => Level.amplitudeToLog x ≤ level) linked (f.detected p linked) := by
  rw [← List.forall₂_map_left_iff]
  unfold Flow.detected Flow.detect
  cases p.holdLength with
  | none => exact List.forall₂_same.mpr fun level _ => le_refl level
  | some length => exact f.window.le_feed (PeakHold.span length) f.position _

theorem Compressor.abs_le_link {n : Nat} {channels : List (List ℝ)} {xs : List ℝ}
    (equal : ∀ ys ∈ channels, ys.length = n) (member : xs ∈ channels) :
    List.Forall₂ (fun x level => |x| ≤ level) xs (link n channels) := by
  have size := length_link n channels equal
  apply List.forall₂_iff_get.mpr
  constructor
  · rw [size, equal xs member]
  · intro t inside among
    have level := getElem?_link equal (among.trans_eq size)
    rw [List.getElem?_eq_getElem among, Option.some.injEq] at level
    rw [List.get_eq_getElem, List.get_eq_getElem, level]
    apply le_foldl_larger
    rw [List.map_map]
    refine List.mem_map.mpr ⟨xs, member, ?_⟩
    rw [Function.comp_apply, List.getD_eq_getElem xs _ inside]
    rfl

/-- What is detected for a block bounds the samples of each channel. -/
theorem Flow.within_detected (p : Parameters ℝ) (f : Flow ℝ) {n : Nat} {blocks : List (List ℝ)}
    {xs : List ℝ} (equal : ∀ ys ∈ blocks, ys.length = n) (member : xs ∈ blocks) :
    Within xs (f.detected p (Compressor.link n blocks)) := by
  apply forall₂_trans _ (Compressor.abs_le_link equal member) (f.le_detected p _)
  intro x linked level below detected
  calc
    |x| ≤ linked := below
    _ ≤ Real.exp (Level.amplitudeToLog linked) := le_exp_amplitudeToLog linked
    _ ≤ Real.exp level := Real.exp_le_exp.mpr detected

end Levels

section Gains
variable {p : Parameters ℝ}

/-- The deviation is high enough for the level that leaves. -/
theorem Parameters.le_declipped (lifts : p.auto.postGain = true) (declips : p.auto.declip = true)
    (leaving attenuation deviation : ℝ) :
    leaving - attenuation - p.threshold - p.gainEstimate ≤
      p.declipped leaving attenuation deviation := by
  rw [Parameters.declipped, lifts, declips, Bool.and_self, if_pos rfl, larger_eq_max]
  exact le_max_right _ _

/-- Whatever state a step starts from, its gain brings the level that leaves to the threshold. -/
theorem GainState.gain_step_le (lifts : p.auto.postGain = true) (declips : p.auto.declip = true)
    (s : GainState ℝ) (x : Sight ℝ) :
    (s.step p x).gain p ≤ Real.exp (p.threshold - x.leaving) := by
  have enough : x.leaving - (s.step p x).attenuation - p.threshold - p.gainEstimate ≤
      (s.step p x).deviation := Parameters.le_declipped lifts declips _ _ _
  have made : p.makeUp (s.step p x).deviation = -((s.step p x).deviation + p.gainEstimate) := by
    rw [Parameters.makeUp, lifts, if_pos rfl]
  apply Real.exp_le_exp.mpr
  rw [made]
  linarith

theorem Flow.gains_le (lifts : p.auto.postGain = true) (declips : p.auto.declip = true)
    (f : Flow ℝ) (linked : List ℝ) :
    List.Forall₂ (fun gain level => 0 ≤ gain ∧ gain ≤ Real.exp (p.threshold - level))
      (f.gains p linked) (Delay.leaving f.pending (f.detected p linked)) := by
  have leaving : (f.seen p linked).map Sight.leaving =
      Delay.leaving f.pending (f.detected p linked) := by
    apply List.ext_getElem
    · simp
    · intro t _ _
      simp [Flow.seen, sights]
  rw [← leaving, List.forall₂_map_right_iff, Flow.gains, List.forall₂_map_left_iff]
  apply forall₂_trajectory
  intro s x
  exact ⟨Real.exp_nonneg _, GainState.gain_step_le lifts declips s x⟩

end Gains

namespace Within
variable {samples levels : List ℝ}

/-- Gains that bring each level down to a ceiling bring the samples down to it. -/
theorem mul_le {gains : List ℝ} {ceiling : ℝ} (within : Within samples levels)
    (gained : List.Forall₂ (fun gain level => 0 ≤ gain ∧ gain ≤ Real.exp (ceiling - level))
      gains levels) :
    ∀ y ∈ List.zipWith (· * ·) samples gains, |y| ≤ Real.exp ceiling := by
  induction within generalizing gains with
  | nil =>
    intro y member
    cases member
  | @cons x level samples levels below _ ih =>
    cases gained with
    | @cons gain _ gains _ bound later =>
      intro y member
      rw [List.zipWith_cons_cons] at member
      cases member with
      | head =>
        calc
          |x * gain| = |x| * gain := by rw [abs_mul, abs_of_nonneg bound.1]
          _ ≤ Real.exp level * Real.exp (ceiling - level) :=
            mul_le_mul below bound.2 bound.1 (Real.exp_nonneg _)
          _ = Real.exp ceiling := by rw [← Real.exp_add, add_sub_cancel]
      | tail _ member => exact ih later y member

variable {line pending : List ℝ}

theorem leaving (stored : Within line pending) (entering : Within samples levels) :
    Within (Delay.leaving line samples) (Delay.leaving pending levels) := by
  have joined : Within (line ++ samples) (pending ++ levels) := List.rel_append stored entering
  rw [Delay.leaving, Delay.leaving, entering.length_eq]
  exact List.forall₂_take _ joined

theorem remaining (stored : Within line pending) (entering : Within samples levels) :
    Within (Delay.remaining line samples) (Delay.remaining pending levels) := by
  have joined : Within (line ++ samples) (pending ++ levels) := List.rel_append stored entering
  rw [Delay.remaining, Delay.remaining, entering.length_eq]
  exact List.forall₂_drop _ joined

end Within

namespace Compressor

/-- The compressors that calls on all channels lead to, where anything may at any time have
become of the release, the attack and the deviation. -/
inductive Reached (p : Parameters ℝ) : Compressor ℝ → Prop
  | new : Reached p (ofParameters p)
  | replaced {c : Compressor ℝ} (gain : GainState ℝ) : Reached p c → Reached p { c with gain }
  | streamed {c last : Compressor ℝ} {n : Nat} {sizes : List Nat}
      {signals outputs : List (List ℝ)} {readings : List ℝ} : Reached p c →
      signals.length = p.channels → (∀ xs ∈ signals, xs.length = n) → Cut n sizes →
      c.stream? sizes signals = some (last, outputs, readings) → Reached p last

/-- Between calls: each channel's line holds nothing larger than the pending levels say. -/
structure Guarded (p : Parameters ℝ) (c : Compressor ℝ) (f : Flow ℝ) (lines : List (List ℝ)) :
    Prop where
  carries : c.Carries p f lines
  count : lines.length = p.channels
  within : ∀ line ∈ lines, Within line f.pending

namespace Guarded
variable {p : Parameters ℝ} {c : Compressor ℝ} {f : Flow ℝ} {lines : List (List ℝ)}

theorem new (p : Parameters ℝ) : Guarded p (ofParameters p) (.start p)
    (List.replicate p.channels (List.replicate p.lookAhead 0.0)) where
  carries := ofParameters_carries p (Nat.le_refl _)
  count := List.length_replicate
  within := by
    intro line member
    rw [List.eq_of_mem_replicate member]
    have silence : (0.0 : ℝ) = 0 := by norm_num
    apply List.forall₂_iff_get.mpr
    constructor
    · rw [List.length_replicate]
      exact List.length_replicate.symm
    · intro t _ _
      rw [List.get_eq_getElem, List.getElem_replicate, silence, abs_zero]
      exact Real.exp_nonneg _

theorem replaced (guarded : Guarded p c f lines) (gain : GainState ℝ) :
    Guarded p { c with gain } { f with gain } lines := by
  obtain ⟨⟨parameters, shows, delays⟩, count, within⟩ := guarded
  refine ⟨⟨parameters, ?_, delays.of_eq rfl rfl⟩, count, within⟩
  exact ⟨shows.crest, rfl, shows.pending, shows.levels, shows.crests, shows.unused, shows.unheld,
    shows.held⟩

/-- Calls keep to the ceiling and leave the lines guarded. -/
theorem stream (guarded : Guarded p c f lines) (lifts : p.auto.postGain = true)
    (declips : p.auto.declip = true) {n : Nat} {signals : List (List ℝ)} {sizes : List Nat}
    (complete : signals.length = p.channels) (equal : ∀ xs ∈ signals, xs.length = n)
    (cut : Cut n sizes) :
    ∃ last outputs readings, c.stream? sizes signals = some (last, outputs, readings) ∧
      (∀ ys ∈ outputs, ∀ y ∈ ys, |y| ≤ Real.exp p.threshold) ∧
      ∃ f lines, Guarded p last f lines := by
  obtain ⟨rfl, bounded⟩ := cut
  obtain ⟨carries, count, within⟩ := guarded
  by_cases silent : signals = []
  · have idle : signals.take c.parameters.channels = [] := by rw [silent, List.take_nil]
    refine ⟨c, signals, _, stream?_idle c sizes signals idle, ?_, f, lines, carries, count, within⟩
    intro ys member
    rw [silent] at member
    cases member
  · have whole : signals.take p.channels = signals := by rw [← complete, List.take_length]
    have rest : signals.drop p.channels = [] := by rw [← complete, List.drop_length]
    have channels : lines.length = (raised p signals).length := by
      rw [raised, List.length_map, count, complete]
    have entering : ∀ xs ∈ raised p signals,
        Within xs (f.detected p (link sizes.sum (raised p signals))) :=
      fun xs member => f.within_detected p (equal_raised equal) member
    obtain ⟨last, streamed, carried⟩ := carries.stream bounded (by rwa [whole])
      (by rwa [whole]) channels (by rw [whole])
    have delayed : ∀ out ∈ List.zipWith Delay.leaving lines (raised p signals),
        Within out (Delay.leaving f.pending (f.detected p (link sizes.sum (raised p signals)))) :=
      forall_mem_zipWith fun line stored xs used => (within line stored).leaving (entering xs used)
    rw [rest, List.append_nil] at streamed
    refine ⟨last, _, _, streamed, ?_, _, _, carried, ?_, ?_⟩
    · intro ys member
      obtain ⟨out, among, rfl⟩ := List.mem_map.mp member
      exact (delayed out among).mul_le (f.gains_le lifts declips _)
    · rw [List.length_zipWith, ← channels, Nat.min_self, count]
    · exact forall_mem_zipWith fun line stored xs used =>
        (within line stored).remaining (entering xs used)

end Guarded

theorem Reached.guarded {p : Parameters ℝ} {c : Compressor ℝ} (reached : Reached p c)
    (lifts : p.auto.postGain = true) (declips : p.auto.declip = true) :
    ∃ f lines, Guarded p c f lines := by
  induction reached with
  | new => exact ⟨_, _, Guarded.new p⟩
  | replaced gain _ ih =>
    obtain ⟨f, lines, guarded⟩ := ih
    exact ⟨_, _, guarded.replaced gain⟩
  | streamed _ complete equal cut streamed ih =>
    obtain ⟨f, lines, guarded⟩ := ih
    obtain ⟨_, _, _, again, -, next⟩ := guarded.stream lifts declips complete equal cut
    obtain ⟨rfl, -⟩ := Prod.mk.inj (Option.some.inj (again.symm.trans streamed))
    exact next

/-- Without rounding, a compressor that declips through its make-up gain puts out nothing above
the threshold, from its first sample on and whatever it carries over. -/
theorem stream_ceiling {preset : Preset ℝ} (lifts : preset.auto.postGain = true)
    (declips : preset.auto.declip = true) {c : Compressor ℝ}
    (reached : Reached (.ofPreset preset) c) {n : Nat} {signals : List (List ℝ)}
    {sizes : List Nat} (complete : signals.length = preset.channels)
    (equal : ∀ xs ∈ signals, xs.length = n) (cut : Cut n sizes) :
    ∃ last outputs readings, c.stream? sizes signals = some (last, outputs, readings) ∧
      (∀ ys ∈ outputs, ∀ y ∈ ys, |y| ≤ Real.exp (Parameters.ofPreset preset).threshold) ∧
      Real.exp (Parameters.ofPreset preset).threshold = (10 : ℝ) ^ (preset.thresholdDb / 20) := by
  have effective : (Parameters.ofPreset preset).auto.declip = true := by
    change (preset.auto.declip && preset.auto.postGain) = true
    rw [declips, lifts, Bool.and_self]
  obtain ⟨f, lines, guarded⟩ := reached.guarded lifts effective
  obtain ⟨last, outputs, readings, streamed, below, -⟩ :=
    guarded.stream lifts effective complete equal cut
  exact ⟨last, outputs, readings, streamed, below, exp_decibelToLog preset.thresholdDb⟩

theorem stream_ceiling_replaced :
    let preset : Preset ℝ := ⟨2, 44100, .on, 0.001, 0.002, 6, 0, -12, 4, 0, 0.02, 0.2⟩
    let c : Compressor ℝ := { ofPreset preset with gain := ⟨-7, 3, -100⟩ }
    preset.auto.postGain = true ∧ preset.auto.declip = true ∧ Reached (.ofPreset preset) c ∧
      Cut 3 [1, 2] ∧ ∃ last outputs readings,
        c.stream? [1, 2] [[4, -1, 0.5], [0, -8, 2]] = some (last, outputs, readings) ∧
        (∀ ys ∈ outputs, ∀ y ∈ ys, |y| ≤ Real.exp (Parameters.ofPreset preset).threshold) ∧
        Real.exp (Parameters.ofPreset preset).threshold =
          (10 : ℝ) ^ (preset.thresholdDb / 20) := by
  intro preset c
  have reached : Reached (.ofPreset preset) c := .replaced ⟨-7, 3, -100⟩ .new
  have cut : Cut 3 [1, 2] := ⟨rfl, by decide⟩
  exact ⟨rfl, rfl, reached, cut, stream_ceiling rfl rfl reached rfl (by simp) cut⟩

end Compressor

end RealtimeAudio
