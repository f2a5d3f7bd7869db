import Mathlib.Analysis.SpecificLimits.Basic
import RealtimeAudio.Proofs.Compressor.MakeUp

/-! Silence, without rounding. Its level stays below the knee, also below one that the deviation
widens, so nothing is attenuated; the make-up gain falls off from the estimate it starts from by a
constant factor with each sample, and declipping can only bring it nearer to none. -/
namespace RealtimeAudio
open Arithmetic Exact

theorem zero_literal : (0.0 : ℝ) = 0 := by
  norm_num

/-- The level of silence. -/
noncomputable def Level.silence : ℝ := Elementary.ln Level.amplitudeFloor

theorem Level.silence_neg : Level.silence < 0 :=
  Real.log_neg amplitudeFloor_pos (by norm_num [Level.amplitudeFloor])

theorem Level.amplitudeToLog_zero : Level.amplitudeToLog (0 : ℝ) = Level.silence := by
  have floor : max (0 : ℝ) Level.amplitudeFloor = Level.amplitudeFloor :=
    max_eq_right amplitudeFloor_pos.le
  rw [Level.amplitudeToLog, larger_eq_max, floor]
  rfl

section Levels

/-- The maxima of one value are that value. -/
theorem Window.eq_bottom_of_mem_feed {length n : Nat} (long : 2 ≤ length) :
    ∀ peak ∈ ((initial length).feed length 0 (List.replicate n (bottom : ℝ))).2, peak = bottom := by
  have constant : ∀ x ∈ List.replicate n (bottom : ℝ), x = bottom :=
    fun x member => List.eq_of_mem_replicate member
  intro peak member
  obtain ⟨t, inside, rfl⟩ := List.getElem_of_mem member
  have greatest := feed_greatest_of_least compared long (fun _ _ => trivial)
    (fun x member => (constant x member).ge) t inside
  exact constant _ (List.mem_of_mem_take (List.mem_of_mem_drop greatest.1))

/-- With or without a hold, silence has one level. -/
theorem Flow.detected_silence (p : Parameters ℝ) (n : Nat) :
    (start p).detected p (List.replicate n 0) = List.replicate n Level.silence := by
  have logs : (List.replicate n (0 : ℝ)).map Level.amplitudeToLog =
      List.replicate n Level.silence := by
    rw [List.map_replicate, Level.amplitudeToLog_zero]
  unfold detected detect start
  cases p.holdLength with
  | none => exact logs
  | some length =>
    have long : 2 ≤ PeakHold.span length := Nat.le_max_left _ _
    dsimp only
    rw [logs]
    apply List.eq_replicate_iff.mpr
    exact ⟨by rw [Window.length_feed, List.length_replicate], Window.eq_bottom_of_mem_feed long⟩

theorem Compressor.link_silence (p : Parameters ℝ) {n : Nat} {signals : List (List ℝ)}
    (silent : ∀ xs ∈ signals, xs = List.replicate n 0) :
    link n (raised p signals) = List.replicate n 0 := by
  have step (channels : List (List ℝ)) (zero : ∀ xs ∈ channels, xs = List.replicate n 0) :
      channels.foldl joined (List.replicate n 0) = List.replicate n 0 := by
    induction channels with
    | nil => rfl
    | cons xs rest ih =>
      have same : joined (List.replicate n 0) xs = List.replicate n (0 : ℝ) := by
        rw [zero xs List.mem_cons_self, joined, List.zipWith_replicate', larger_eq_max]
        congr 1
        change max 0 |(0 : ℝ)| = 0
        simp
      rw [List.foldl_cons, same]
      exact ih fun ys member => zero ys (List.mem_cons_of_mem _ member)
  rw [link_eq, zero_literal]
  apply step
  intro xs member
  obtain ⟨ys, among, rfl⟩ := List.mem_map.mp member
  rw [silent ys among, List.map_replicate, zero_mul]

end Levels

/-- A compressor with automatic make-up gain whose knee silence does not reach. -/
structure Parameters.Unmoved (p : Parameters ℝ) : Prop where
  lifts : p.auto.postGain = true
  above : Level.silence < p.threshold
  narrow : p.auto.knee = false → 0.5 * p.knee ≤ p.threshold - Level.silence
  estimate : p.auto.knee = true → p.gainEstimate = 0.5 * p.threshold
  adapts : 0 < p.adaptCoefficient ∧ p.adaptCoefficient < 1

namespace GainState
variable {p : Parameters ℝ}

/-- Nothing is attenuated, and the deviation widens the knee no more than at the start. -/
structure Unmoved (p : Parameters ℝ) (s : GainState ℝ) : Prop where
  released : s.released = 0
  attenuation : s.attenuation = 0
  deviation : s.deviation + p.gainEstimate ≤ max p.gainEstimate 0

theorem Unmoved.still (p : Parameters ℝ) : Unmoved p .still where
  released := zero_literal
  attenuation := zero_literal
  deviation := by
    rw [GainState.still, zero_literal, zero_add]
    exact le_max_left _ _

/-- The curve asks for nothing: an automatic knee is no wider than five quarters of the threshold,
and the level of silence lies lower than that. -/
theorem Unmoved.demand_eq_zero {s : GainState ℝ} (unmoved : s.Unmoved p) (quiet : p.Unmoved) :
    p.demand s.deviation Level.silence = 0 := by
  have negative := Level.silence_neg
  have above := quiet.above
  have below : Level.silence - p.threshold ≤ -(0.5 * p.kneeWidth s.deviation) := by
    rw [Parameters.kneeWidth]
    split
    · rename_i automatic
      have wide := unmoved.deviation
      rw [quiet.estimate automatic, half_mul] at wide
      rw [quiet.estimate automatic, half_mul, half_mul, larger_eq_max, zero_literal]
      rcases max_cases (2.5 * (s.deviation + p.threshold / 2)) 0 with ⟨opened, -⟩ | ⟨shut, -⟩
      · rcases max_cases (p.threshold / 2) 0 with ⟨half, -⟩ | ⟨half, -⟩
        · linarith
        · linarith
      · linarith
    · rename_i fixed
      have narrow := quiet.narrow (Bool.not_eq_true _ ▸ fixed)
      linarith
  rw [Parameters.demand, Parameters.overshoot_eq, bend, if_pos below, mul_zero]

/-- A maximum with something negative is no larger. -/
theorem abs_max_le {x y : ℝ} (negative : y ≤ 0) : |max x y| ≤ |x| := by
  rcases max_cases x y with ⟨same, -⟩ | ⟨same, less⟩
  · rw [same]
  · rw [same, abs_of_nonpos negative, abs_of_nonpos (less.le.trans negative)]
    exact neg_le_neg less.le

variable {s : GainState ℝ} {x : Sight ℝ}

/-- A sample of silence attenuates nothing and brings the deviation nearer to its rest. -/
theorem Unmoved.step (unmoved : s.Unmoved p) (quiet : p.Unmoved)
    (leaving : x.leaving = Level.silence) (entering : x.entering = Level.silence) :
    (s.step p x).Unmoved p ∧ |(s.step p x).deviation + p.gainEstimate| ≤
      p.adaptCoefficient * |s.deviation + p.gainEstimate| := by
  have demand : p.demand s.deviation x.entering = 0 := by
    rw [entering]
    exact unmoved.demand_eq_zero quiet
  have released : (s.step p x).released = 0 := by
    unfold GainState.step
    dsimp only
    rw [demand, unmoved.released, mix_self, larger_eq_max, max_self]
  have attenuation : (s.step p x).attenuation = 0 := by
    change mix (s.step p x).released s.attenuation _ = 0
    rw [released, unmoved.attenuation, mix_self]
  have shrunk : mix (-(0 + p.gainEstimate)) s.deviation p.adaptCoefficient + p.gainEstimate =
      p.adaptCoefficient * (s.deviation + p.gainEstimate) := by
    unfold mix
    ring
  have sunk : Level.silence - 0 - p.threshold - p.gainEstimate + p.gainEstimate ≤ 0 := by
    linarith [quiet.above]
  obtain ⟨positive, less⟩ := quiet.adapts
  have wide : p.adaptCoefficient * (s.deviation + p.gainEstimate) ≤ max p.gainEstimate 0 := calc
    _ ≤ p.adaptCoefficient * max p.gainEstimate 0 :=
      mul_le_mul_of_nonneg_left unmoved.deviation positive.le
    _ ≤ max p.gainEstimate 0 := mul_le_of_le_one_left (le_max_right _ _) less.le
  have deviation : (s.step p x).deviation =
      p.declipped Level.silence 0 (mix (-(0 + p.gainEstimate)) s.deviation p.adaptCoefficient) := by
    rw [← attenuation, ← leaving]
    rfl
  -- What the declipping raises the deviation to still lies below its rest.
  have declipped : (s.step p x).deviation + p.gainEstimate ≤ max p.gainEstimate 0 ∧
      |(s.step p x).deviation + p.gainEstimate| ≤
        |p.adaptCoefficient * (s.deviation + p.gainEstimate)| := by
    rw [deviation, Parameters.declipped]
    split
    · rw [larger_eq_max, ← max_add_add_right, shrunk]
      exact ⟨max_le wide (sunk.trans (le_max_right _ _)), abs_max_le sunk⟩
    · rw [shrunk]
      exact ⟨wide, le_rfl⟩
  refine ⟨⟨released, attenuation, declipped.1⟩, ?_⟩
  rw [abs_mul, abs_of_pos positive] at declipped
  exact declipped.2

/-- Without attenuation the logarithm of the gain is the make-up alone. -/
theorem Unmoved.abs_log_gain (unmoved : s.Unmoved p) (quiet : p.Unmoved) :
    |Real.log (s.gain p)| = |s.deviation + p.gainEstimate| := by
  change |Real.log (Real.exp (p.makeUp s.deviation - s.attenuation))| = _
  rw [Real.log_exp, unmoved.attenuation, sub_zero, Parameters.makeUp_eq quiet.lifts, abs_neg]

end GainState

namespace Flow
variable {p : Parameters ℝ} {n t : Nat}

theorem behind_replicate (x : ℝ) (delay n t : Nat) :
    Delay.behind x delay (List.replicate n x) t = x := by
  unfold Delay.behind
  split
  · rfl
  · rw [List.getD_eq_getElem?_getD, List.getElem?_replicate]
    split <;> rfl

/-- Every sample of silence shrinks the deviation by the same factor. -/
theorem computer_succ_unmoved (quiet : p.Unmoved) (inside : t < n)
    (unmoved : (computer p ((List.replicate n 0).take t)).Unmoved p) :
    (computer p ((List.replicate n 0).take (t + 1))).Unmoved p ∧
      |(computer p ((List.replicate n 0).take (t + 1))).deviation + p.gainEstimate| ≤
        p.adaptCoefficient *
          |(computer p ((List.replicate n 0).take t)).deviation + p.gainEstimate| := by
  have known : t < (List.replicate n (0 : ℝ)).length := by rwa [List.length_replicate]
  rw [computer_take_succ known, detected_silence]
  apply unmoved.step quiet
  · exact behind_replicate Level.silence p.lookAhead n t
  · exact List.getD_replicate _ inside

theorem computer_unmoved (quiet : p.Unmoved) (inside : t ≤ n) :
    (computer p ((List.replicate n 0).take t)).Unmoved p := by
  induction t with
  | zero =>
    rw [List.take_zero, computer, advance_nil]
    exact .still p
  | succ t ih => exact (computer_succ_unmoved quiet inside (ih (by omega))).1

theorem states_unmoved (quiet : p.Unmoved) :
    ∀ s ∈ (start p).states p (List.replicate n 0), s.Unmoved p := by
  intro s member
  obtain ⟨t, inside, rfl⟩ := List.getElem_of_mem member
  rw [length_states] at inside
  obtain ⟨_, same⟩ := List.getElem?_eq_some_iff.mp (getElem?_states (p := p) inside)
  rw [same]
  exact computer_unmoved quiet (by simpa using inside)

theorem abs_log_gain_succ (quiet : p.Unmoved) (inside : t < n) :
    |Real.log ((computer p ((List.replicate n 0).take (t + 1))).gain p)| ≤
      p.adaptCoefficient * |Real.log ((computer p ((List.replicate n 0).take t)).gain p)| := by
  have before := computer_unmoved quiet inside.le
  obtain ⟨after, shrunk⟩ := computer_succ_unmoved quiet inside before
  rw [before.abs_log_gain quiet, after.abs_log_gain quiet]
  exact shrunk

theorem abs_log_gain_le (quiet : p.Unmoved) (inside : t ≤ n) :
    |Real.log ((computer p ((List.replicate n 0).take t)).gain p)| ≤
      p.adaptCoefficient ^ t * |p.gainEstimate| := by
  induction t with
  | zero =>
    have start : (computer p ((List.replicate n 0).take 0)).deviation = 0 := by
      rw [List.take_zero, computer, advance_nil]
      exact zero_literal
    rw [(computer_unmoved quiet inside).abs_log_gain quiet, start, zero_add, pow_zero, one_mul]
  | succ t ih =>
    have positive := quiet.adapts.1.le
    calc
      _ ≤ p.adaptCoefficient * |Real.log ((computer p ((List.replicate n 0).take t)).gain p)| :=
        abs_log_gain_succ quiet inside
      _ ≤ p.adaptCoefficient * (p.adaptCoefficient ^ t * |p.gainEstimate|) := by
        gcongr
        exact ih (by omega)
      _ = p.adaptCoefficient ^ (t + 1) * |p.gainEstimate| := by ring

end Flow

namespace Compressor
variable {p : Parameters ℝ}

/-- The meter shows nothing where nothing was attenuated. -/
theorem meterReadings_eq_zero {sizes : List Nat} {states : List (GainState ℝ)}
    (cut : states.length = sizes.sum) (still : ∀ s ∈ states, s.attenuation = 0) :
    ∀ reading ∈ meterReadings sizes states, reading = 0 := by
  intro reading member
  obtain ⟨block, among, rfl⟩ := List.mem_map.mp member
  have none : GainState.deepest 0.0 block = 0 := by
    rw [deepest_eq_foldl]
    rcases Ordered.foldl_larger_mem (0.0 : ℝ) (block.map (·.attenuation)) with start | reached
    · rw [start, zero_literal]
    · obtain ⟨s, inside, same⟩ := List.mem_map.mp reached
      rw [← same]
      apply still
      rw [← List.flatten_splitLengths states sizes cut.le]
      exact List.mem_flatten.mpr ⟨block, among, inside⟩
  rw [none]
  exact zero_div _

theorem levelsOf_silence {n : Nat} {signals : List (List ℝ)}
    (silent : ∀ xs ∈ signals, xs = List.replicate n 0) :
    levelsOf p n signals = List.replicate n 0 :=
  link_silence p fun xs member => silent xs (List.mem_of_mem_take member)

theorem responseReadings_silence {n : Nat} {sizes : List Nat} {signals : List (List ℝ)}
    (quiet : p.Unmoved) (cut : Cut n sizes) (silent : ∀ xs ∈ signals, xs = List.replicate n 0) :
    (responseReadings p sizes signals).length = sizes.length ∧
      ∀ reading ∈ responseReadings p sizes signals, reading = 0 := by
  have levels : link sizes.sum (raised p (signals.take p.channels)) = List.replicate n 0 := by
    rw [cut.total]
    exact levelsOf_silence silent
  rw [responseReadings, levels]
  split
  · refine ⟨List.length_map _, fun reading member => ?_⟩
    obtain ⟨-, -, rfl⟩ := List.mem_map.mp member
    exact zero_literal
  · have counted : ((Flow.start p).states p (List.replicate n 0)).length = sizes.sum := by
      rw [Flow.length_states, List.length_replicate, cut.total]
    refine ⟨by simp [meterReadings], meterReadings_eq_zero counted fun s member => ?_⟩
    exact (Flow.states_unmoved quiet s member).attenuation

theorem Emits.eq_silence {levels ys : List ℝ} {n : Nat}
    (emits : Emits p levels (List.replicate n 0) ys) : ys = List.replicate n 0 := by
  obtain ⟨size, each⟩ := emits
  rw [List.length_replicate] at size each
  apply List.ext_getElem?
  intro t
  by_cases inside : t < n
  · have late := Flow.behind_replicate 0 p.lookAhead n t
    rw [each t inside, List.map_replicate, zero_mul, zero_literal, late, zero_mul,
      List.getElem?_replicate_of_lt inside]
  · rw [List.getElem?_eq_none (by omega), List.getElem?_eq_none (by simpa using inside)]

theorem outputs_of_silence {levels : List ℝ} {n : Nat} {signals outputs : List (List ℝ)}
    (emits : List.Forall₂ (Emits p levels) signals outputs)
    (silent : ∀ xs ∈ signals, xs = List.replicate n 0) : outputs = signals := by
  induction emits with
  | nil => rfl
  | cons each _ ih =>
    rw [List.forall_mem_cons] at silent
    obtain ⟨rfl, others⟩ := silent
    rw [each.eq_silence, ih others]

/-- How silence comes out, and what it leaves behind. -/
structure Silent (p : Parameters ℝ) (n : Nat) (sizes : List Nat) (signals outputs : List (List ℝ))
    (readings : List ℝ) (c : Compressor ℝ) : Prop where
  emits : List.Forall₂ (Emits p (levelsOf p n signals)) (signals.take p.channels)
    (outputs.take p.channels)
  outputs : outputs = signals
  readings : readings.length = sizes.length ∧ ∀ reading ∈ readings, reading = 0
  attenuation : ∀ t < n, Flow.attenuationAt p (levelsOf p n signals) t = 0
  gain : ∀ t < n, |Real.log (Flow.gainAt p (levelsOf p n signals) t)| ≤
    p.adaptCoefficient ^ (t + 1) * |p.gainEstimate|
  falls : ∀ t, t + 1 < n → |Real.log (Flow.gainAt p (levelsOf p n signals) (t + 1))| ≤
    p.adaptCoefficient * |Real.log (Flow.gainAt p (levelsOf p n signals) t)|
  /-- What the compressor carries over, once it has had a channel to work on. -/
  carried : signals.take p.channels ≠ [] → c.gain.attenuation = 0 ∧
    |Real.log (c.gain.gain p)| ≤ p.adaptCoefficient ^ n * |p.gainEstimate|

theorem Parameters.adaptCoefficient_mem (preset : Preset ℝ) :
    0 < (Parameters.ofPreset preset).adaptCoefficient ∧
      (Parameters.ofPreset preset).adaptCoefficient < 1 := by
  have one : (1.0 : ℝ) = 1 := by norm_num
  have two : (Parameters.adaptTime : ℝ) = 2 := by norm_num [Parameters.adaptTime]
  have rate : (1 : ℝ) ≤ larger preset.sampleRate 1.0 := by
    rw [larger_eq_max, one]
    exact le_max_right _ _
  refine ⟨Real.exp_pos _, Real.exp_lt_one_iff.mpr ?_⟩
  change -1.0 / (Parameters.adaptTime * larger preset.sampleRate 1.0) < 0
  rw [one, two]
  exact div_neg_of_neg_of_pos (by norm_num) (by linarith)

theorem Parameters.ofPreset_unmoved {preset : Preset ℝ} (lifts : preset.auto.postGain = true)
    (above : Level.silence < (Parameters.ofPreset preset).threshold)
    (narrow : preset.auto.knee = false → (Parameters.ofPreset preset).knee ≤
      2 * ((Parameters.ofPreset preset).threshold - Level.silence)) :
    (Parameters.ofPreset preset).Unmoved where
  lifts := lifts
  above := above
  narrow fixed := by
    rw [half_mul]
    linarith [narrow fixed]
  estimate automatic := by
    have automatic : preset.auto.effective.knee = true := automatic
    have slope : Parameters.slopeOf preset.auto.effective preset.ratio = -1.0 := by
      rw [Parameters.slopeOf, automatic, if_pos rfl]
    have estimate : (Parameters.ofPreset preset).gainEstimate =
        (Parameters.ofPreset preset).threshold * -0.5 *
          Parameters.slopeOf preset.auto.effective preset.ratio := rfl
    rw [estimate, slope]
    generalize (Parameters.ofPreset preset).threshold = threshold
    norm_num
    ring
  adapts := Parameters.adaptCoefficient_mem preset

/-- Without rounding, a new compressor with automatic make-up gain comes to rest on silence: it puts
out silence and attenuates nothing, and its gain approaches one by a constant factor with each
sample, whatever the sign of the estimate that it starts from. -/
theorem stream_silent {preset : Preset ℝ} (lifts : preset.auto.postGain = true)
    (above : Level.silence < (Parameters.ofPreset preset).threshold)
    (narrow : preset.auto.knee = false → (Parameters.ofPreset preset).knee ≤
      2 * ((Parameters.ofPreset preset).threshold - Level.silence))
    {n : Nat} {signals : List (List ℝ)} {sizes : List Nat}
    (silent : ∀ xs ∈ signals, xs = List.replicate n 0) (cut : Cut n sizes) :
    let p := Parameters.ofPreset preset
    (∃ c outputs readings, (ofPreset preset).stream? sizes signals = some (c, outputs, readings) ∧
      Silent p n sizes signals outputs readings c) ∧
    Filter.Tendsto (fun t => p.adaptCoefficient ^ t * |p.gainEstimate|) .atTop (nhds 0) := by
  intro p
  have quiet : p.Unmoved := Parameters.ofPreset_unmoved lifts above narrow
  have equal : ∀ xs ∈ signals, xs.length = n := by
    intro xs member
    rw [silent xs member, List.length_replicate]
  have active : ∀ xs ∈ signals.take p.channels, xs.length = n := equal_front equal
  have levels : levelsOf p n signals = List.replicate n 0 := levelsOf_silence silent
  obtain ⟨c, streamed, m, known, all, -, gain⟩ := ofParameters_stream_state p cut active
  obtain ⟨emits, spared⟩ := response_emits active
  refine ⟨⟨c, _, _, streamed, ?_⟩, ?_⟩
  · constructor
    case emits => exact emits
    case outputs =>
      have front : (response p n signals).take p.channels = signals.take p.channels :=
        outputs_of_silence emits fun xs member => silent xs (List.mem_of_mem_take member)
      rw [← List.take_append_drop p.channels (response p n signals), front, spared,
        List.take_append_drop]
    case readings => exact responseReadings_silence quiet cut silent
    case attenuation =>
      intro t inside
      rw [levels]
      exact (Flow.computer_unmoved quiet inside).attenuation
    case gain =>
      intro t inside
      rw [levels]
      exact Flow.abs_log_gain_le quiet inside
    case falls =>
      intro t inside
      rw [levels]
      exact Flow.abs_log_gain_succ quiet inside
    case carried =>
      intro used
      change c.gain = Flow.computer p ((levelsOf p n signals).take m) at gain
      rw [gain, levels, all used]
      exact ⟨(Flow.computer_unmoved quiet le_rfl).attenuation, Flow.abs_log_gain_le quiet le_rfl⟩
  · have vanishes := tendsto_pow_atTop_nhds_zero_of_lt_one quiet.adapts.1.le quiet.adapts.2
    simpa only [zero_mul] using vanishes.mul_const |p.gainEstimate|

/-- A fixed knee over a threshold below full scale, where the estimate is negative and the
declipping interferes. -/
theorem stream_silent_declipped :
    let preset : Preset ℝ :=
      ⟨2, 44100, { Automation.on with knee := false }, 0.001, 0.002, 6, 0, -12, 4, 6, 0.02, 0.2⟩
    let p := Parameters.ofPreset preset
    preset.auto.postGain = true ∧ Level.silence < p.threshold ∧
      p.knee ≤ 2 * (p.threshold - Level.silence) ∧ Cut 3 [1, 2] ∧
      (∃ c outputs readings, (ofPreset preset).stream? [1, 2] [[0, 0, 0], [0, 0, 0]] =
        some (c, outputs, readings) ∧
        Silent p 3 [1, 2] [[0, 0, 0], [0, 0, 0]] outputs readings c) ∧
      Filter.Tendsto (fun t => p.adaptCoefficient ^ t * |p.gainEstimate|) .atTop (nhds 0) := by
  intro preset p
  have unit : (0 : ℝ) < Level.lnPerDecibel := div_pos (Real.log_pos (by norm_num)) (by norm_num)
  have silence : Level.silence = -120 * Level.lnPerDecibel := by
    have floor : (0.000001 : ℝ) = 10.0 ^ (-6 : ℤ) := by norm_num
    have twenty : (20.0 : ℝ) = 20 := by norm_num
    change Real.log 0.000001 = -120 * (Real.log 10.0 / 20.0)
    rw [floor, Real.log_zpow, twenty]
    push_cast
    ring
  have threshold : p.threshold = -12 * Level.lnPerDecibel := rfl
  have knee : p.knee = 6 * Level.lnPerDecibel := by
    change larger (6 * Level.lnPerDecibel) (0.0 : ℝ) = _
    rw [larger_eq_max, zero_literal]
    exact max_eq_left (by positivity)
  have above : Level.silence < p.threshold := by
    rw [silence, threshold]
    linarith
  have narrow : p.knee ≤ 2 * (p.threshold - Level.silence) := by
    rw [silence, threshold, knee]
    linarith
  have cut : Cut 3 [1, 2] := ⟨rfl, by decide⟩
  have silent : ∀ xs ∈ [[0, 0, 0], [0, 0, (0 : ℝ)]], xs = List.replicate 3 0 := by simp
  exact ⟨rfl, above, narrow, cut,
    @stream_silent preset rfl above (fun _ => narrow) 3 _ _ silent cut⟩

end Compressor

end RealtimeAudio
