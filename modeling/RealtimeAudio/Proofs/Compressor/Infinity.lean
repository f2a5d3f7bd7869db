import RealtimeAudio.Proofs.Compressor.Alignment
import RealtimeAudio.Proofs.Compressor.Bounded
import RealtimeAudio.Proofs.PeakHold.Maximum

/-! Infinite samples. A level that is infinite makes the smoothing take infinity from infinity, and
what is then no number stays so in the attenuation and the deviation, and makes every later gain no
number either. Nothing else does: without an infinite level the states are bounded. -/
namespace RealtimeAudio
open Arithmetic Binary Single
open Float.Model (Format UnpackedFloat)
open Float.Model.UnpackedFloat

section Poison
variable {p : Parameters Float32} {knee deviation : Float32} {s : GainState Float32}
  {x : Sight Float32}

/-- Half of a knee is not infinitely far below zero. -/
theorem half_ne_infinity (wide : ¬knee < 0.0) :
    (0.5 * knee).toModel.unpack ≠ .infinity .negative := by
  have half : (0.5 : Float32).toModel.unpack = .finite .positive 8388608 (-24) (by decide) := rfl
  have never {u : UnpackedFloat} (sign : HasSign .positive u) : u ≠ .infinity .negative := by
    rintro rfl
    cases sign
  rw [unpack_mul, half]
  rcases unpack_of_not_neg wide with known | ⟨s, known⟩ | known | ⟨m, e, some, known⟩ <;> rw [known]
  · exact fun same => by cases same
  · exact fun same => by cases same
  · exact fun same => by cases same
  · have factor : HasSign .positive (.finite .positive m e some) := rfl
    exact never (hasSign_mul (s := .positive) (by decide) factor).stored

/-- An infinite level counts as infinitely far above any threshold, or has no place there. -/
theorem Parameters.not_finite_overshoot (wide : ¬knee < 0.0) :
    ¬Finite (p.overshoot knee top) := by
  unfold overshoot
  dsimp only
  split
  · rename_i below
    rw [top_sub (ordered.numbers below).1] at below
    have opposite := eq_top_iff.mp (eq_top_of_le below)
    have least : (0.5 * knee).toModel.unpack = .infinity .negative := by
      rw [unpack_neg] at opposite
      generalize (0.5 * knee).toModel.unpack = u at opposite
      rcases u with (_ | _) | _ | s | ⟨s, m, e, some⟩ <;> first | rfl | cases opposite
    exact absurd least (half_ne_infinity wide)
  · split
    · rename_i within
      obtain ⟨number, half, above⟩ := (ordered.lt_iff _ _).mp within
      rw [top_sub ((number_abs _).mp number)] at above
      exact absurd (le_top half) above
    · intro finite
      rw [top_sub finite.number] at finite
      exact absurd finite (by decide +kernel)

theorem Parameters.not_finite_demand (wide : ¬p.knee < 0.0) :
    ¬Finite (p.demand deviation top) := by
  have knee : ¬p.kneeWidth deviation < 0.0 := by
    unfold kneeWidth
    split
    · intro below
      exact ((ordered.lt_iff _ _).mp below).2.2 (ordered.le_larger_right zero_finite.number)
    · exact wide
  exact not_finite_mul (not_finite_overshoot knee)

variable [Elementary Float32]

/-- The attenuation does not come back from what is no number, and takes the deviation with it. -/
theorem GainState.not_number_step (lost : ¬Number s.attenuation) :
    ¬Number (s.step p x).attenuation :=
  not_number_mix (Or.inr lost)

theorem GainState.not_number_deviation (lost : ¬Number (s.step p x).attenuation) :
    ¬Number (s.step p x).deviation := by
  have estimate : ¬Number (-((s.step p x).attenuation + p.gainEstimate)) :=
    not_number_neg.mpr (not_number_add (Or.inl lost))
  have tracked : ¬Number (mix (-((s.step p x).attenuation + p.gainEstimate)) s.deviation
      p.adaptCoefficient) := not_number_mix (Or.inl estimate)
  have rest : ¬Number (x.leaving - (s.step p x).attenuation - p.threshold - p.gainEstimate) :=
    not_number_sub (Or.inl (not_number_sub (Or.inl (not_number_sub (Or.inr lost)))))
  change ¬Number (p.declipped x.leaving (s.step p x).attenuation _)
  unfold Parameters.declipped
  split
  · rwa [ordered.larger_of_not_number rest]
  · exact tracked

/-- An infinite level on its way into the delay is enough. -/
theorem GainState.not_number_step_of_top (documented : Elementary.Documented)
    (wide : ¬p.knee < 0.0) (infinite : x.entering = top) :
    ¬Number (s.step p x).attenuation := by
  have demand : ¬Finite (p.demand s.deviation x.entering) := by
    rw [infinite]
    exact Parameters.not_finite_demand wide
  have lost {b samples : Float32} : ¬Number (mix (p.demand s.deviation x.entering) b
      (Time.smoothing samples)) :=
    not_number_mix_of_not_finite demand (Time.not_smoothing_neg documented samples)
  have released : (s.step p x).released = p.demand s.deviation x.entering :=
    ordered.larger_of_not_number lost
  change ¬Number (mix (s.step p x).released s.attenuation _)
  rw [released]
  exact lost

theorem GainState.not_number_gain (documented : Elementary.Documented)
    (lost : ¬Number s.attenuation) : ¬Number (s.gain p) :=
  documented.exp_undefined (not_number_sub (Or.inr lost))

end Poison

namespace Flow
variable [Elementary Float32] {p : Parameters Float32} {levels : List Float32} {t : Nat}

/-- What the gain computer sees at a position. -/
def sightAt (p : Parameters Float32) (levels : List Float32) (t : Nat) : Sight Float32 where
  leaving := Delay.behind (Elementary.ln Level.amplitudeFloor) p.lookAhead
    ((start p).detected p levels) t
  entering := ((start p).detected p levels).getD t 0.0
  crest := ((start p).factors p levels).getD t 0.0

theorem computer_succ (inside : t < levels.length) :
    computer p (levels.take (t + 1)) =
      (computer p (levels.take t)).step p (sightAt p levels t) :=
  computer_take_succ inside

/-- What is detected at a position is one of the levels so far, and no less than the last. -/
theorem detected_greatest (ranged : Elementary.Ranged) (inside : t < levels.length) :
    ∃ level ∈ levels.take (t + 1),
      ((start p).detected p levels).getD t 0.0 = Level.amplitudeToLog level ∧
      Level.amplitudeToLog levels[t] ≤ Level.amplitudeToLog level := by
  have last : levels[t] ∈ levels.take (t + 1) :=
    List.mem_take_iff_getElem.mpr ⟨t, by omega, rfl⟩
  unfold detected detect start
  cases p.holdLength with
  | none =>
    refine ⟨levels[t], last, ?_, ordered.refl (Level.number_amplitudeToLog ranged _)⟩
    dsimp only
    rw [List.getD_eq_getElem _ _ (by rwa [List.length_map]), List.getElem_map]
  | some length =>
    have long : 2 ≤ PeakHold.span length := Nat.le_max_left _ _
    have numbers : ∀ x ∈ levels.map Level.amplitudeToLog, Number x := by
      intro x member
      obtain ⟨level, -, rfl⟩ := List.mem_map.mp member
      exact Level.number_amplitudeToLog ranged level
    have among : t < ((Window.initial (PeakHold.span length)).feed (PeakHold.span length) 0
        (levels.map Level.amplitudeToLog)).2.length := by
      rwa [Window.length_feed, List.length_map]
    obtain ⟨member, above⟩ := Window.feed_greatest ordered long numbers t among
    have newest : Level.amplitudeToLog levels[t] ∈
        recent (PeakHold.span length) t (levels.map Level.amplitudeToLog) := by
      refine Window.mem_drop_of_getElem? (s := t) ?_ (by omega)
      rw [List.getElem?_take_of_lt (Nat.lt_succ_self t), List.getElem?_map,
        List.getElem?_eq_getElem inside]
      rfl
    obtain ⟨level, seen, same⟩ : ∃ level ∈ levels.take (t + 1), Level.amplitudeToLog level =
        ((Window.initial (PeakHold.span length)).feed (PeakHold.span length) 0
          (levels.map Level.amplitudeToLog)).2[t] := by
      have earlier := List.mem_of_mem_drop member
      rw [← List.map_take] at earlier
      exact List.mem_map.mp earlier
    refine ⟨level, seen, ?_, ?_⟩
    · dsimp only
      rw [Option.getD_some, List.getD_eq_getElem _ _ among, same]
    · rw [same]
      exact above _ newest

variable (documented : Elementary.Documented)
include documented

/-- After an infinite level the attenuation and the deviation are no numbers. -/
theorem computer_lost (wide : ¬p.knee < 0.0) (inside : t < levels.length)
    (infinite : levels[t] = top) {m : Nat} (later : t < m) (known : m ≤ levels.length) :
    ¬Number (computer p (levels.take m)).attenuation ∧
      ¬Number (computer p (levels.take m)).deviation := by
  -- The step that sees the infinite level loses the attenuation, and the steps after it keep it so.
  induction m, later using Nat.le_induction with
  | base =>
    obtain ⟨level, -, same, above⟩ := detected_greatest documented.ranged (p := p) inside
    rw [infinite, Level.amplitudeToLog_top documented.ranged] at above
    have entering : (sightAt p levels t).entering = top := same.trans (eq_top_of_le above)
    have lost := GainState.not_number_step_of_top documented (s := computer p (levels.take t)) wide
      entering
    rw [computer_succ inside]
    exact ⟨lost, GainState.not_number_deviation lost⟩
  | succ m later ih =>
    have lost := GainState.not_number_step (p := p) (x := sightAt p levels m) (ih (by omega)).1
    rw [computer_succ (by omega)]
    exact ⟨lost, GainState.not_number_deviation lost⟩

/-- Without an infinite level so far, what is detected is bounded. -/
theorem detected_spans (inside : t < levels.length) (clear : top ∉ levels.take (t + 1)) :
    Spans (-2 ^ 7) (2 ^ 7) (((start p).detected p levels).getD t 0.0) := by
  obtain ⟨level, seen, same, -⟩ := detected_greatest documented.ranged (p := p) inside
  rw [same]
  refine Level.amplitudeToLog_spans documented.ranged fun infinite => clear ?_
  rwa [← infinite]

omit documented in
theorem factors_sign (unit : Spans 0 1 p.crestCoefficient) (numbers : ∀ level ∈ levels, Number level)
    (used : p.auto.usesCrest = true) (inside : t < levels.length) :
    HasSign .positive (((start p).factors p levels).getD t 0.0).toModel.unpack := by
  have among : t < ((start p).factors p levels).length := by rwa [length_factors]
  rw [List.getD_eq_getElem _ _ among]
  have member := List.getElem_mem among
  generalize ((start p).factors p levels)[t] = factor at member ⊢
  unfold factors at member
  rw [if_pos used] at member
  obtain ⟨c, reached, rfl⟩ := List.mem_map.mp member
  exact Crest.Bounded.trajectory unit numbers .silent c reached |>.2

omit documented in
/-- The crest factor that the attack follows has no minus sign. -/
theorem sightAt_sign (unit : Spans 0 1 p.crestCoefficient) (numbers : ∀ level ∈ levels, Number level)
    (inside : t < levels.length) (follows : p.auto.attack = true) :
    HasSign .positive (sightAt p levels t).crest.toModel.unpack := by
  refine factors_sign unit numbers ?_ inside
  rw [Automation.usesCrest, follows, Bool.true_or]

theorem sightAt_bounded (moderate : p.Moderate) (numbers : ∀ level ∈ levels, Number level)
    (inside : t < levels.length) (clear : top ∉ levels.take (t + 1)) :
    (sightAt p levels t).Bounded p := by
  constructor
  case leaving =>
    have floor : larger Level.amplitudeFloor Level.amplitudeFloor =
        (Level.amplitudeFloor : Float32) := (Ordered.larger_eq _ _).elim id id
    have silent : Spans (-2 ^ 7) (2 ^ 7) (Level.amplitudeToLog Level.amplitudeFloor) :=
      Level.amplitudeToLog_spans documented.ranged (by decide +kernel)
    rw [Level.amplitudeToLog, floor] at silent
    change Spans (-2 ^ 7) (2 ^ 7) (Delay.behind _ _ _ _)
    unfold Delay.behind
    split
    · exact silent
    · have earlier : t - p.lookAhead < ((start p).detected p levels).length := by
        rw [length_detected]
        omega
      rw [List.getD_eq_getElem _ _ earlier, ← List.getD_eq_getElem _ 0.0 earlier]
      refine detected_spans documented (by omega) fun infinite => clear ?_
      exact List.take_subset_take_left levels (by omega) infinite
  case entering => exact detected_spans documented inside clear
  case crest => exact sightAt_sign moderate.crestCoefficient numbers inside

theorem computer_bounded (moderate : p.Moderate) (numbers : ∀ level ∈ levels, Number level)
    (known : t ≤ levels.length) (clear : top ∉ levels.take t) :
    (computer p (levels.take t)).Bounded := by
  induction t with
  | zero =>
    rw [List.take_zero, computer, advance_nil]
    exact .still
  | succ t ih =>
    rw [computer_succ known]
    refine (ih (by omega) fun earlier => clear ?_).step documented moderate
      (sightAt_bounded documented moderate numbers known clear)
    exact List.take_subset_take_left levels (by omega) earlier

theorem not_number_gainAt (wide : ¬p.knee < 0.0) (inside : t < levels.length)
    (infinite : top ∈ levels.take (t + 1)) : ¬Number (gainAt p levels t) := by
  obtain ⟨s, early, same⟩ := List.mem_take_iff_getElem.mp infinite
  have lost := computer_lost documented wide (by omega) same (m := t + 1) (by omega) inside
  exact GainState.not_number_gain documented lost.1

theorem number_gainAt (moderate : p.Moderate) (numbers : ∀ level ∈ levels, Number level)
    (inside : t < levels.length) (clear : top ∉ levels.take (t + 1)) :
    Number (gainAt p levels t) :=
  (computer_bounded documented moderate numbers inside clear).number_gain documented moderate

end Flow

namespace Compressor
variable {p : Parameters Float32} {signals : List (List Float32)} {n t : Nat}

/-- None of the first `t` samples of any channel is infinite once it has its pre-gain. -/
def Clear (p : Parameters Float32) (signals : List (List Float32)) (t : Nat) : Prop :=
  ∀ xs ∈ signals, ∀ x ∈ xs.take t, ¬Infinite (x * p.preGain)

theorem loudness_eq_top_iff (x : Float32) : loudness x = top ↔ Infinite x := by
  unfold loudness
  split
  · exact abs_eq_top_iff x
  · rename_i undefined
    constructor
    · intro same
      exact absurd same (by decide +kernel)
    · intro infinite
      exact absurd (ordered.refl infinite.number) undefined

/-- A level is infinite where one of the samples is. -/
theorem level_eq_top_iff (equal : ∀ xs ∈ signals, xs.length = n) (inside : t < n) :
    (link n (raised p signals))[t]? = some top ↔
      ∃ xs ∈ signals, Infinite (xs.getD t 0.0 * p.preGain) := by
  obtain ⟨level, known, member, above⟩ := level_raised (p := p) equal inside
  rw [known, Option.some_inj]
  constructor
  · rintro rfl
    rcases List.mem_cons.mp member with zero | loud
    · exact absurd zero (by decide +kernel)
    · obtain ⟨xs, among, same⟩ := List.mem_map.mp loud
      exact ⟨xs, among, (loudness_eq_top_iff _).mp same⟩
  · rintro ⟨xs, among, infinite⟩
    apply eq_top_of_le
    rw [← (loudness_eq_top_iff _).mpr infinite]
    exact above _ (List.mem_cons_of_mem _
      (List.mem_map.mpr ⟨xs, among, rfl⟩))

theorem number_level (equal : ∀ xs ∈ signals, xs.length = n) :
    ∀ level ∈ link n (raised p signals), Number level := by
  intro level member
  obtain ⟨t, inside, rfl⟩ := List.getElem_of_mem member
  have within : t < n := by rwa [length_link n _ (equal_raised equal)] at inside
  obtain ⟨level, known, -, above⟩ := level_raised (p := p) equal within
  rw [List.getElem?_eq_getElem inside, Option.some_inj] at known
  rw [known]
  exact (ordered.numbers (above 0.0 List.mem_cons_self)).2

theorem clear_iff (equal : ∀ xs ∈ signals, xs.length = n) (known : t ≤ n) :
    Clear p signals t ↔ top ∉ (link n (raised p signals)).take t := by
  have size := length_link n _ (equal_raised (p := p) equal)
  constructor
  · intro clear infinite
    obtain ⟨s, early, same⟩ := List.mem_take_iff_getElem.mp infinite
    have level := List.getElem?_eq_getElem (l := link n (raised p signals)) (i := s) (by omega)
    rw [same] at level
    obtain ⟨xs, among, lost⟩ := (level_eq_top_iff equal (by omega)).mp level
    have long := equal xs among
    rw [List.getD_eq_getElem xs 0.0 (by omega)] at lost
    exact clear xs among _ (List.mem_take_iff_getElem.mpr ⟨s, by omega, rfl⟩) lost
  · intro clear xs among x member lost
    obtain ⟨s, early, rfl⟩ := List.mem_take_iff_getElem.mp member
    have long := equal xs among
    rw [← List.getD_eq_getElem xs 0.0 (by omega)] at lost
    have level := (level_eq_top_iff equal (by omega)).mpr ⟨xs, among, lost⟩
    obtain ⟨inside, same⟩ := List.getElem?_eq_some_iff.mp level
    exact clear (List.mem_take_iff_getElem.mpr ⟨s, by omega, same⟩)

section Whole
variable [Elementary Float32]

/-- What infinite samples do to the states that a compressor carries after whole signals, and to the
gains of the samples that come out. -/
structure NumbersWhileClear (p : Parameters Float32) (n : Nat)
    (signals outputs : List (List Float32)) (c : Compressor Float32) : Prop where
  /-- The crest detector never loses its squares. -/
  crest : Number c.crest.peakSquare ∧ Number c.crest.meanSquare
  emits : List.Forall₂ (Emits p (link n (raised p (signals.take p.channels))))
    (signals.take p.channels) (outputs.take p.channels)
  lost : ¬Clear p (signals.take p.channels) n →
    ¬Number c.gain.attenuation ∧ ¬Number c.gain.deviation
  lostGain : ∀ t < n, ¬Clear p (signals.take p.channels) (t + 1) →
    ¬Number (Flow.gainAt p (link n (raised p (signals.take p.channels))) t)
  kept : p.WithinReach → Clear p (signals.take p.channels) n → c.gain.Numbers
  keptGain : p.WithinReach → ∀ t < n, Clear p (signals.take p.channels) (t + 1) →
    Number (Flow.gainAt p (link n (raised p (signals.take p.channels))) t)

/-- An infinite sample makes the attenuation, the deviation and every gain from its position on no
numbers, in all channels and over all later calls. With parameters within reach nothing else does,
neither samples that are no numbers nor the largest ones that the pre-gain leaves finite. -/
theorem stream_numbersWhileClear (documented : Elementary.Documented) (preset : Preset Float32)
    {n : Nat} {signals : List (List Float32)} {sizes : List Nat}
    (equal : ∀ xs ∈ signals, xs.length = n) (cut : Cut n sizes) :
    ∃ c outputs readings, (ofPreset preset).stream? sizes signals = some (c, outputs, readings) ∧
      NumbersWhileClear (.ofPreset preset) n signals outputs c := by
  have wide := Parameters.ofPreset_wide preset
  have unit := Parameters.crestCoefficient_spans documented preset
  have moderate := Parameters.ofPreset_moderate documented preset
  change ∃ c outputs readings, (ofParameters (.ofPreset preset)).stream? sizes signals =
    some (c, outputs, readings) ∧ _
  generalize Parameters.ofPreset preset = p at wide unit moderate ⊢
  have active : ∀ xs ∈ signals.take p.channels, xs.length = n := equal_front equal
  have numbers := number_level (p := p) active
  have size : (link n (raised p (signals.take p.channels))).length = n :=
    length_link n _ (equal_raised active)
  obtain ⟨c, streamed, m, known, all, crest, gain⟩ := ofParameters_stream_state p cut active
  refine ⟨c, _, _, streamed, ?_⟩
  constructor
  case crest =>
    have squares : c.crest.Bounded := by
      rw [crest]
      change Crest.Bounded (if p.auto.usesCrest then _ else _)
      split
      · exact Crest.Bounded.silent.foldl unit fun level among =>
          numbers level (List.mem_of_mem_take among)
      · exact .silent
    exact ⟨squares.peakSquare.finite.number, squares.meanSquare.finite.number⟩
  case emits => exact (response_emits active).1
  case lost =>
    intro spoiled
    have used : signals.take p.channels ≠ [] := by
      intro idle
      rw [idle] at spoiled
      exact spoiled fun xs member => by cases member
    rw [clear_iff active le_rfl, not_not] at spoiled
    obtain ⟨t, inside, same⟩ := List.mem_take_iff_getElem.mp spoiled
    rw [gain, all used]
    exact Flow.computer_lost documented wide (by omega) same (by omega) size.ge
  case lostGain =>
    intro t inside spoiled
    rw [clear_iff active inside, not_not] at spoiled
    exact Flow.not_number_gainAt documented wide (by omega) spoiled
  case kept =>
    intro reach clear
    rw [clear_iff active le_rfl] at clear
    have prior : top ∉ (link n (raised p (signals.take p.channels))).take m :=
      fun among => clear (List.take_subset_take_left _ known among)
    rw [gain]
    exact (Flow.computer_bounded documented (moderate reach) numbers (by omega) prior).numbers
  case keptGain =>
    intro reach t inside clear
    rw [clear_iff active inside] at clear
    exact Flow.number_gainAt documented (moderate reach) numbers (by omega) clear

end Whole

/-- Steps that agree with the exponential where a compressor asks for it whose times are one sample
each and whose levels are silent or infinite. -/
def stepExp (x : Float32) : Float32 :=
  if x ≤ -5.0 then 0.006737947
  else if x ≤ -1.0 then 0.36787945
  else if x ≤ -0.5 then 0.60653067
  else if x ≤ x then 1.0
  else x

/-- The same for the logarithm. -/
def stepLn (x : Float32) : Float32 := if top ≤ x then x else -13.815511

@[reducible] def steps : Elementary Float32 where
  exp := stepExp
  ln := stepLn
  log10 _ := 0.0
  tenTo _ := 1.0

theorem stepExp_mem {x : Float32} (number : Number x) : 0.0 ≤ stepExp x ∧ stepExp x ≤ 1.0 := by
  unfold stepExp
  rw [if_pos (ordered.refl number)]
  split
  · decide +kernel
  · split
    · decide +kernel
    · split <;> decide +kernel

theorem steps_documented : @Elementary.Documented steps := by
  let _ := steps
  constructor
  case exp_undefined =>
    intro x lost
    have never (y : Float32) : ¬x ≤ y := fun below => lost (ordered.numbers below).1
    change ¬Number (stepExp x)
    unfold stepExp
    rwa [if_neg (never _), if_neg (never _), if_neg (never _), if_neg (never _)]
  case exp_nonneg => exact fun number => (stepExp_mem number).1
  case exp_le_one => exact fun below => (stepExp_mem (ordered.numbers below).1).2
  case ln_top =>
    have above : top ≤ top := by decide +kernel
    change stepLn top = top
    rw [stepLn, if_pos above]
  case ln_range =>
    intro x _ finite
    have inside : ¬top ≤ x := by
      intro above
      rw [eq_top_of_le above] at finite
      exact absurd finite (by decide +kernel)
    change -128.0 ≤ stepLn x ∧ stepLn x ≤ 128.0
    rw [stepLn, if_neg inside]
    decide +kernel

theorem stream_numbersWhileClear_spoiled :
    letI := steps
    let preset : Preset Float32 := { Preset.standard with
      channels := 1, sampleRate := 1.0, attackSeconds := 1.0, releaseSeconds := 2.0 }
    let signals := [[.ofBits 0x7fc00000, 0.0, top, 0.0]]
    let p := Parameters.ofPreset preset
    Elementary.Documented ∧ p.WithinReach ∧ (∀ xs ∈ signals, xs.length = 4) ∧ Cut 4 [3, 1] ∧
      (∃ c outputs readings, (ofPreset preset).stream? [3, 1] signals = some (c, outputs, readings) ∧
        NumbersWhileClear p 4 signals outputs c) ∧
      Clear p signals 2 ∧ ¬Clear p signals 3 := by
  let _ := steps
  intro preset signals p
  have reach : p.WithinReach := by
    have low : (-4.0 : Float32).toModel.unpack = .finite .negative 8388608 (-21) (by decide) := rfl
    have threshold : Spans (toReal (-4.0)) (toReal 0.0) p.threshold :=
      spans_of_le (by decide +kernel) (by decide +kernel) (by decide +kernel) zero_finite
    have knee : p.knee = 0.0 := by decide +kernel
    have attack : p.attack = 1.0 := by decide +kernel
    constructor
    case threshold =>
      rw [toReal_of_unpack low, toReal_zero] at threshold
      exact threshold.mono (by norm_num [signed]) (by norm_num)
    case knee =>
      rw [knee, toReal_zero]
      exact ⟨zero_finite, by norm_num⟩
    case attack =>
      rw [attack, toReal_one]
      exact ⟨one_finite, by norm_num⟩
    case postGain => decide +kernel
  have cut : Cut 4 [3, 1] := ⟨rfl, by decide⟩
  have equal : ∀ xs ∈ signals, xs.length = 4 := by decide
  have clear : Clear p signals 2 := by
    simp only [Clear, signals]
    decide +kernel
  have spoiled : ¬Clear p signals 3 := by
    simp only [Clear, signals]
    decide +kernel
  exact ⟨steps_documented, reach, equal, cut,
    stream_numbersWhileClear steps_documented preset equal cut, clear, spoiled⟩

end Compressor

end RealtimeAudio
