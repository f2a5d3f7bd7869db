import RealtimeAudio.Proofs.Compressor.Curve
import RealtimeAudio.Proofs.Compressor.Alignment
import RealtimeAudio.Proofs.PeakHold.Maximum

/-! Two compressors side by side, without rounding. Every stage from the detection to the attenuation
is monotone in what it is given and in the curve, so where one compressor asks for no less
attenuation than another at every sample, its gain is nowhere greater. -/
namespace RealtimeAudio
open Arithmetic Exact

section Mixing
variable {a a' b b' t : ℝ}

theorem mix_mono (first : a ≤ a') (second : b ≤ b') (low : 0 ≤ t) (high : t ≤ 1) :
    mix a b t ≤ mix a' b' t := by
  have parts (x y : ℝ) : mix x y t = (1 - t) * x + t * y := by
    unfold mix
    ring
  rw [parts, parts]
  have rest : 0 ≤ 1 - t := by linarith
  gcongr

theorem mix_nonneg (first : 0 ≤ a) (second : 0 ≤ b) (low : 0 ≤ t) (high : t ≤ 1) :
    0 ≤ mix a b t := by
  have least := mix_mono first second low high
  rwa [mix, sub_self, mul_zero, add_zero] at least

theorem smoothing_mem {samples : ℝ} (nonneg : 0 ≤ samples) :
    0 ≤ Time.smoothing samples ∧ Time.smoothing samples ≤ 1 := by
  constructor
  · exact Real.exp_nonneg _
  · apply Real.exp_le_one_iff.mpr
    have one : (-1.0 : ℝ) = -1 := by norm_num
    change -1.0 / samples ≤ 0
    rw [one]
    exact div_nonpos_of_nonpos_of_nonneg (by norm_num) nonneg

end Mixing

section Levels

theorem compared : Compared ℝ fun _ => True where
  le_self_iff x := iff_of_true (le_refl x) trivial
  numbers _ := ⟨trivial, trivial⟩
  trans := le_trans
  total _ _ := le_total _ _
  lt_iff x y := by simp

theorem Greatest.mono {x y : ℝ} {xs ys : List ℝ} (below : List.Forall₂ (· ≤ ·) xs ys)
    (first : Greatest x xs) (second : Greatest y ys) : x ≤ y := by
  obtain ⟨member, -⟩ := first
  obtain ⟨t, inside, rfl⟩ := List.getElem_of_mem member
  obtain ⟨size, each⟩ := List.forall₂_iff_get.mp below
  calc
    xs[t] ≤ ys[t] := each t inside (by omega)
    _ ≤ y := second.2 _ (List.getElem_mem _)

theorem amplitudeToLog_mono {x y : ℝ} (below : x ≤ y) :
    Level.amplitudeToLog x ≤ Level.amplitudeToLog y := by
  unfold Level.amplitudeToLog
  rw [larger_eq_max, larger_eq_max]
  exact Real.log_le_log (lt_max_of_lt_right amplitudeFloor_pos) (max_le_max_right _ below)

theorem bottom_le_amplitudeToLog (x : ℝ) : bottom ≤ Level.amplitudeToLog x := by
  unfold Level.amplitudeToLog
  rw [larger_eq_max]
  exact Real.log_le_log amplitudeFloor_pos (le_max_right _ _)

/-- A window over greater samples has greater maxima. -/
theorem Window.feed_mono {length : Nat} (long : 2 ≤ length) {xs ys : List ℝ}
    (below : List.Forall₂ (· ≤ ·) xs ys) (least : ∀ x ∈ xs, bottom ≤ x)
    (other : ∀ y ∈ ys, bottom ≤ y) :
    List.Forall₂ (· ≤ ·) ((initial length).feed length 0 xs).2
      ((initial length).feed length 0 ys).2 := by
  apply List.forall₂_iff_get.mpr
  constructor
  · rw [length_feed, length_feed, below.length_eq]
  · intro t inside among
    have recent : List.Forall₂ (· ≤ ·) (recent length t xs) (recent length t ys) :=
      List.forall₂_drop _ (List.forall₂_take _ below)
    exact Greatest.mono recent
      (feed_greatest_of_least compared long (fun _ _ => trivial) least t inside)
      (feed_greatest_of_least compared long (fun _ _ => trivial) other t among)

theorem Flow.detected_mono {p q : Parameters ℝ} (held : q.holdLength = p.holdLength)
    {levels others : List ℝ} (below : List.Forall₂ (· ≤ ·) levels others) :
    List.Forall₂ (· ≤ ·) ((start p).detected p levels) ((start q).detected q others) := by
  have logs : List.Forall₂ (· ≤ ·) (levels.map Level.amplitudeToLog)
      (others.map Level.amplitudeToLog) := by
    rw [List.forall₂_map_left_iff, List.forall₂_map_right_iff]
    exact below.imp fun _ _ => amplitudeToLog_mono
  have least (xs : List ℝ) : ∀ level ∈ xs.map Level.amplitudeToLog, bottom ≤ level := by
    intro level member
    obtain ⟨x, -, rfl⟩ := List.mem_map.mp member
    exact bottom_le_amplitudeToLog x
  unfold detected detect start
  rw [held]
  cases p.holdLength with
  | none => exact logs
  | some length =>
    have long : 2 ≤ PeakHold.span length := Nat.le_max_left _ _
    exact Window.feed_mono long logs (least levels) (least others)

end Levels

section Crest
variable {coefficient : ℝ}

theorem Crest.power_pos (level : ℝ) : 0 < Crest.power level := by
  have low : (0 : ℝ) < 0.000001 := by norm_num
  have high : (0 : ℝ) < 1000000.0 := by norm_num
  unfold Crest.power clamp
  split
  · exact low
  · rename_i above
    split
    · exact high
    · exact low.trans_le (not_lt.mp above)

/-- Squares are not negative. -/
def Crest.Nonneg (c : Crest ℝ) : Prop := 0 ≤ c.peakSquare ∧ 0 ≤ c.meanSquare

theorem Crest.Nonneg.silent : Crest.Nonneg .silent := by
  have zero : (0.0 : ℝ) = 0 := by norm_num
  exact ⟨zero.ge, zero.ge⟩

theorem Crest.Nonneg.step (low : 0 ≤ coefficient) (high : coefficient ≤ 1) (level : ℝ)
    {c : Crest ℝ} (squares : c.Nonneg) : (c.step coefficient level).Nonneg := by
  have power := (Crest.power_pos level).le
  constructor
  · rw [Crest.step, larger_eq_max]
    exact le_max_of_le_left power
  · exact mix_nonneg power squares.2 low high

theorem Flow.factors_nonneg {p : Parameters ℝ} (low : 0 ≤ p.crestCoefficient)
    (high : p.crestCoefficient ≤ 1) (levels : List ℝ) :
    ∀ factor ∈ (start p).factors p levels, 0 ≤ factor := by
  intro factor member
  unfold factors at member
  split at member
  · rw [Crest.trajectory_eq] at member
    obtain ⟨c, reached, rfl⟩ := List.mem_map.mp member
    obtain ⟨peak, mean⟩ := forall_mem_trajectory _ (P := Crest.Nonneg)
      (fun level _ => Crest.Nonneg.step low high level) Crest.Nonneg.silent levels c reached
    exact div_nonneg peak mean
  · have zero : (0.0 : ℝ) = 0 := by norm_num
    rw [List.eq_of_mem_replicate member, zero]

end Crest

namespace Parameters
variable {p : Parameters ℝ} {crest : ℝ}

theorem attackTime_nonneg (attacks : 0 ≤ p.attack) (squared : 0 ≤ crest) :
    0 ≤ p.attackTime crest := by
  have two : (0 : ℝ) ≤ 2.0 := by norm_num
  unfold attackTime
  split
  · exact div_nonneg (mul_nonneg two attacks) squared
  · exact attacks

theorem releaseTime_nonneg (p : Parameters ℝ) (crest : ℝ) : 0 ≤ p.releaseTime crest := by
  have one : (0 : ℝ) ≤ 1.0 := by norm_num
  unfold releaseTime
  rw [larger_eq_max, larger_eq_max]
  split
  · exact le_max_of_le_right one
  · exact le_max_of_le_right one

end Parameters

/-- Parameters that agree in all that shapes a response in time, the second with the steeper
curve. -/
structure Parameters.Steeper (p q : Parameters ℝ) : Prop where
  channels : q.channels = p.channels
  auto : q.auto = p.auto
  lookAhead : q.lookAhead = p.lookAhead
  holdLength : q.holdLength = p.holdLength
  preGain : q.preGain = p.preGain
  postGain : q.postGain = p.postGain
  attack : q.attack = p.attack
  release : q.release = p.release
  crestCoefficient : q.crestCoefficient = p.crestCoefficient
  slope : q.slope ≤ p.slope
  falls : p.slope ≤ 0
  threshold : q.threshold ≤ p.threshold
  knee : p.knee ≤ q.knee
  wide : 0 ≤ p.knee
  attacks : 0 ≤ p.attack

/-- The states of two gain computers, the second attenuating no less. -/
structure GainState.Below (s t : GainState ℝ) : Prop where
  released : s.released ≤ t.released
  attenuation : s.attenuation ≤ t.attenuation

/-- What two gain computers see, the second no less. -/
structure Sight.Below (x y : Sight ℝ) : Prop where
  entering : x.entering ≤ y.entering
  crest : y.crest = x.crest
  squared : 0 ≤ x.crest

namespace Parameters.Steeper
variable {p q : Parameters ℝ}

theorem demand_le (steeper : p.Steeper q) (fixed : p.auto.knee = false) {level level' : ℝ}
    (below : level ≤ level') (deviation deviation' : ℝ) :
    p.demand deviation level ≤ q.demand deviation' level' := by
  have still : q.auto.knee = false := by rw [steeper.auto, fixed]
  have excess : level - p.threshold ≤ level' - q.threshold := by
    have := steeper.threshold
    linarith
  have more := bend_mono steeper.wide steeper.knee excess
  have least := bend_nonneg steeper.wide (level - p.threshold)
  have slope : -p.slope ≤ -q.slope := neg_le_neg steeper.slope
  have falls : 0 ≤ -p.slope := neg_nonneg.mpr steeper.falls
  unfold demand kneeWidth
  rw [fixed, still, overshoot_eq, overshoot_eq]
  exact mul_le_mul slope more least (falls.trans slope)

theorem attackTime_eq (steeper : p.Steeper q) (crest : ℝ) :
    q.attackTime crest = p.attackTime crest := by
  rw [attackTime, attackTime, steeper.auto, steeper.attack]

theorem releaseTime_eq (steeper : p.Steeper q) (crest : ℝ) :
    q.releaseTime crest = p.releaseTime crest := by
  rw [releaseTime, releaseTime, steeper.auto, steeper.release, steeper.attack,
    steeper.attackTime_eq]

/-- One step keeps the states in order. -/
theorem step_below (steeper : p.Steeper q) (fixed : p.auto.knee = false) {s t : GainState ℝ}
    (states : s.Below t) {x y : Sight ℝ} (sights : x.Below y) :
    (s.step p x).Below (t.step q y) := by
  have demand := steeper.demand_le fixed sights.entering s.deviation t.deviation
  obtain ⟨slowLow, slowHigh⟩ := smoothing_mem (releaseTime_nonneg p x.crest)
  obtain ⟨fastLow, fastHigh⟩ := smoothing_mem (attackTime_nonneg steeper.attacks sights.squared)
  have released : (s.step p x).released ≤ (t.step q y).released := by
    unfold GainState.step
    dsimp only
    rw [larger_eq_max, larger_eq_max, sights.crest, steeper.releaseTime_eq]
    exact max_le_max demand (mix_mono demand states.released slowLow slowHigh)
  have same : Time.smoothing (p.attackTime x.crest) = Time.smoothing (q.attackTime y.crest) := by
    rw [sights.crest, steeper.attackTime_eq]
  refine ⟨released, ?_⟩
  calc
    (s.step p x).attenuation =
        mix (s.step p x).released s.attenuation (Time.smoothing (p.attackTime x.crest)) := rfl
    _ ≤ mix (t.step q y).released t.attenuation (Time.smoothing (p.attackTime x.crest)) :=
      mix_mono released states.attenuation fastLow fastHigh
    _ = (t.step q y).attenuation := by
      rw [same]
      rfl

/-- Whole runs keep the states in order. -/
theorem foldl_below (steeper : p.Steeper q) (fixed : p.auto.knee = false) {s t : GainState ℝ}
    (states : s.Below t) {xs ys : List (Sight ℝ)} (sights : List.Forall₂ Sight.Below xs ys) :
    (xs.foldl (GainState.step p) s).Below (ys.foldl (GainState.step q) t) := by
  induction sights generalizing s t with
  | nil => exact states
  | cons seen _ ih => exact ih (steeper.step_below fixed states seen)

theorem gain_le (steeper : p.Steeper q) (plain : p.auto.postGain = false) {s t : GainState ℝ}
    (states : s.Below t) : t.gain q ≤ s.gain p := by
  have made (deviation deviation' : ℝ) : q.makeUp deviation' = p.makeUp deviation := by
    rw [makeUp, makeUp, steeper.auto, plain, steeper.postGain]
    rfl
  apply Real.exp_le_exp.mpr
  rw [made s.deviation]
  exact sub_le_sub_left states.attenuation _

theorem factors_eq (steeper : p.Steeper q) {levels others : List ℝ}
    (alike : others = levels ∨ p.auto.usesCrest = false ∧ others.length = levels.length) :
    (Flow.start q).factors q others = (Flow.start p).factors p levels := by
  unfold Flow.factors
  rw [steeper.auto, steeper.crestCoefficient]
  rcases alike with rfl | ⟨unused, size⟩
  · rfl
  · rw [unused, size]
    rfl

/-- What is seen of greater levels is greater. -/
theorem seen_below (steeper : p.Steeper q) (low : 0 ≤ p.crestCoefficient)
    (high : p.crestCoefficient ≤ 1) {levels others : List ℝ}
    (below : List.Forall₂ (· ≤ ·) levels others)
    (alike : others = levels ∨ p.auto.usesCrest = false) :
    List.Forall₂ Sight.Below ((Flow.start p).seen p levels) ((Flow.start q).seen q others) := by
  have detected := Flow.detected_mono steeper.holdLength below
  have factors := steeper.factors_eq (alike.imp_right fun unused => ⟨unused, below.length_eq.symm⟩)
  have squared := Flow.factors_nonneg low high levels
  apply List.forall₂_iff_get.mpr
  constructor
  · rw [Flow.length_seen, Flow.length_seen, below.length_eq]
  · intro t inside among
    have first : t < ((Flow.start p).detected p levels).length := by simpa using inside
    have second : t < ((Flow.start q).detected q others).length := by simpa using among
    have factor : t < ((Flow.start p).factors p levels).length := by simpa using inside
    simp only [Flow.seen, sights, List.get_eq_getElem, List.getElem_zipWith, List.getElem_zip,
      factors]
    refine ⟨(List.forall₂_iff_get.mp detected).2 t first second, rfl, ?_⟩
    exact squared _ (List.getElem_mem factor)

/-- The gain for greater levels, by the steeper curve, is nowhere greater. -/
theorem gainAt_le (steeper : p.Steeper q) (fixed : p.auto.knee = false)
    (plain : p.auto.postGain = false) (low : 0 ≤ p.crestCoefficient)
    (high : p.crestCoefficient ≤ 1) {levels others : List ℝ}
    (below : List.Forall₂ (· ≤ ·) levels others)
    (alike : others = levels ∨ p.auto.usesCrest = false) (t : Nat) :
    Flow.gainAt q others t ≤ Flow.gainAt p levels t := by
  have taken : others.take (t + 1) = levels.take (t + 1) ∨ p.auto.usesCrest = false :=
    alike.imp_left fun same => by rw [same]
  have sights := steeper.seen_below low high (List.forall₂_take (t + 1) below) taken
  exact steeper.gain_le plain (steeper.foldl_below fixed ⟨le_refl _, le_refl _⟩ sights)

end Parameters.Steeper

/-- The second preset differs from the first at most in a higher ratio, a lower threshold and a
wider knee. -/
structure Preset.Tighter (a b : Preset ℝ) : Prop where
  same : b = { a with ratio := b.ratio, thresholdDb := b.thresholdDb, kneeDb := b.kneeDb }
  ratio : a.ratio ≤ b.ratio
  threshold : b.thresholdDb ≤ a.thresholdDb
  knee : a.kneeDb ≤ b.kneeDb

theorem Preset.Tighter.refl (a : Preset ℝ) : a.Tighter a := ⟨rfl, le_rfl, le_rfl, le_rfl⟩

theorem decibelToLog_mono {x y : ℝ} (below : x ≤ y) :
    Level.decibelToLog x ≤ Level.decibelToLog y := by
  have scale : (0 : ℝ) ≤ Level.lnPerDecibel := by
    change 0 ≤ Real.log 10.0 / 20.0
    have ten : (1 : ℝ) ≤ 10.0 := by norm_num
    exact div_nonneg (Real.log_nonneg ten) (by norm_num)
  exact mul_le_mul_of_nonneg_right below scale

theorem slopeOf_nonpos (auto : Automation) (ratio : ℝ) : Parameters.slopeOf auto ratio ≤ 0 := by
  have one : (1.0 : ℝ) = 1 := by norm_num
  have least : (0 : ℝ) < max ratio 1 := lt_max_of_lt_right one_pos
  simp only [Parameters.slopeOf, larger_eq_max, one]
  split
  · norm_num
  · rw [sub_nonpos, div_le_one least]
    exact le_max_right _ _

theorem slopeOf_anti {auto : Automation} (fixed : auto.knee = false) {ratio ratio' : ℝ}
    (higher : ratio ≤ ratio') :
    Parameters.slopeOf auto ratio' ≤ Parameters.slopeOf auto ratio := by
  have one : (1.0 : ℝ) = 1 := by norm_num
  have least : (0 : ℝ) < max ratio 1 := lt_max_of_lt_right one_pos
  simp only [Parameters.slopeOf, fixed, Bool.false_eq_true, if_false, larger_eq_max, one]
  gcongr

/-- What building a compressor ensures of its curve and times. -/
structure Parameters.Derived (p : Parameters ℝ) : Prop where
  falls : p.slope ≤ 0
  wide : 0 ≤ p.knee
  attacks : 0 ≤ p.attack
  crest : 0 ≤ p.crestCoefficient ∧ p.crestCoefficient ≤ 1
  adapts : 0 ≤ p.adaptCoefficient ∧ p.adaptCoefficient ≤ 1

theorem rate_nonneg (preset : Preset ℝ) : 0 ≤ larger preset.sampleRate 1.0 := by
  rw [larger_eq_max]
  exact le_max_of_le_right (by norm_num)

theorem Parameters.crestCoefficient_mem (preset : Preset ℝ) :
    0 ≤ (ofPreset preset).crestCoefficient ∧ (ofPreset preset).crestCoefficient ≤ 1 := by
  have time : (0 : ℝ) ≤ crestTime := by
    rw [crestTime]
    norm_num
  exact smoothing_mem (mul_nonneg time (rate_nonneg preset))

theorem Parameters.ofPreset_derived (preset : Preset ℝ) : (ofPreset preset).Derived := by
  have one : (0 : ℝ) ≤ 1.0 := by norm_num
  have zero : (0 : ℝ) ≤ 0.0 := by norm_num
  constructor
  case falls => exact slopeOf_nonpos _ _
  case wide =>
    unfold ofPreset
    simp only [larger_eq_max]
    exact le_max_of_le_right zero
  case attacks =>
    unfold ofPreset
    simp only [larger_eq_max]
    exact le_max_of_le_right one
  case crest => exact crestCoefficient_mem preset
  case adapts =>
    have time : (0 : ℝ) ≤ adaptTime := by
      rw [adaptTime]
      norm_num
    exact smoothing_mem (mul_nonneg time (rate_nonneg preset))

theorem Parameters.ofPreset_steeper {a b : Preset ℝ} (fixed : a.auto.knee = false)
    (tighter : a.Tighter b) : (ofPreset a).Steeper (ofPreset b) := by
  have derived := ofPreset_derived a
  obtain ⟨same, ratio, threshold, knee⟩ := tighter
  generalize b.ratio = r, b.thresholdDb = t, b.kneeDb = k at same ratio threshold knee
  subst same
  have still : a.auto.effective.knee = false := fixed
  constructor <;> try rfl
  case slope => exact slopeOf_anti still ratio
  case falls => exact derived.falls
  case threshold => exact decibelToLog_mono threshold
  case knee =>
    unfold ofPreset
    simp only [larger_eq_max]
    exact max_le_max_right _ (decibelToLog_mono knee)
  case wide => exact derived.wide
  case attacks => exact derived.attacks

namespace Compressor

/-- The linked levels of signals of `n` samples. -/
noncomputable def levelsOf (p : Parameters ℝ) (n : Nat) (signals : List (List ℝ)) : List ℝ :=
  link n (raised p (signals.take p.channels))

theorem levelsOf_eq {p q : Parameters ℝ} (steeper : p.Steeper q)
    (n : Nat) (signals : List (List ℝ)) : levelsOf q n signals = levelsOf p n signals := by
  rw [levelsOf, levelsOf, raised, raised, steeper.channels, steeper.preGain]

/-- What calls of the given sizes on a new compressor put out. -/
structure Plays (p : Parameters ℝ) (n : Nat) (sizes : List Nat) (signals outputs : List (List ℝ)) :
    Prop where
  run : ∃ c readings, (ofParameters p).stream? sizes signals = some (c, outputs, readings)
  emits : List.Forall₂ (Emits p (levelsOf p n signals)) (signals.take p.channels)
    (outputs.take p.channels)
  spared : outputs.drop p.channels = signals.drop p.channels

theorem exists_plays (p : Parameters ℝ) {n : Nat} {sizes : List Nat} {signals : List (List ℝ)}
    (equal : ∀ xs ∈ signals, xs.length = n) (cut : Cut n sizes) :
    ∃ outputs, Plays p n sizes signals outputs := by
  obtain ⟨c, streamed⟩ := ofParameters_stream p cut (equal_front equal)
  obtain ⟨emits, spared⟩ := response_emits (p := p) (equal_front equal)
  exact ⟨_, ⟨c, _, streamed⟩, emits, spared⟩

/-- By smaller gains no sample comes out larger. -/
theorem Emits.abs_le {p q : Parameters ℝ} {levels xs ys zs : List ℝ}
    (first : Emits p levels xs ys) (second : Emits q levels xs zs)
    (late : q.lookAhead = p.lookAhead) (raised : q.preGain = p.preGain)
    (gains : ∀ t, Flow.gainAt q levels t ≤ Flow.gainAt p levels t) :
    List.Forall₂ (fun y z => |z| ≤ |y|) ys zs := by
  obtain ⟨size, each⟩ := first
  obtain ⟨size', each'⟩ := second
  apply List.forall₂_iff_get.mpr
  constructor
  · rw [size, size']
  · intro t inside among
    have within : t < xs.length := inside.trans_eq size
    have y := each t within
    have z := each' t within
    rw [late, raised] at z
    rw [List.getElem?_eq_getElem inside, Option.some_inj] at y
    rw [List.getElem?_eq_getElem among, Option.some_inj] at z
    have positive (r : Parameters ℝ) : |Flow.gainAt r levels t| = Flow.gainAt r levels t :=
      abs_of_nonneg (Real.exp_nonneg _)
    rw [List.get_eq_getElem, List.get_eq_getElem, y, z, abs_mul, abs_mul, positive, positive]
    exact mul_le_mul_of_nonneg_left (gains t) (abs_nonneg _)

/-- No sample of the second outputs is larger than that of the first. -/
def Softer (outputs softer : List (List ℝ)) : Prop :=
  List.Forall₂ (List.Forall₂ fun y z => |z| ≤ |y|) outputs softer

theorem Plays.softer {p q : Parameters ℝ} (steeper : p.Steeper q) {n : Nat}
    {sizes others : List Nat} {signals outputs softer : List (List ℝ)}
    (first : Plays p n sizes signals outputs) (second : Plays q n others signals softer)
    (gains : ∀ t, Flow.gainAt q (levelsOf q n signals) t ≤ Flow.gainAt p (levelsOf p n signals) t) :
    Softer outputs softer := by
  have same := levelsOf_eq steeper n signals
  rw [same] at gains
  have emitted := second.emits
  rw [steeper.channels, same] at emitted
  have spared : softer.drop p.channels = outputs.drop p.channels := by
    rw [first.spared, ← steeper.channels, second.spared]
  have active : Softer (outputs.take p.channels) (softer.take p.channels) := by
    apply List.forall₂_iff_get.mpr
    constructor
    · rw [← first.emits.length_eq, emitted.length_eq]
    · intro i inside among
      have used : i < (signals.take p.channels).length := by rwa [first.emits.length_eq]
      have produced := (List.forall₂_iff_get.mp first.emits).2 i used inside
      have softened := (List.forall₂_iff_get.mp emitted).2 i used among
      exact produced.abs_le softened steeper.lookAhead steeper.preGain gains
  have rest : Softer (outputs.drop p.channels) (softer.drop p.channels) := by
    rw [spared]
    exact List.forall₂_same.mpr fun _ _ => List.forall₂_same.mpr fun _ _ => le_refl _
  rw [← List.take_append_drop p.channels outputs, ← List.take_append_drop p.channels softer]
  exact List.rel_append active rest

/-- Without rounding, and with neither knee nor make-up gain automatic, a higher ratio, a lower
threshold or a wider knee gives gains that are nowhere greater, however the calls cut the
signals, so nothing comes out larger; and where the times are not automatic either, a stream that
is nowhere softer gets gains that are nowhere greater. -/
theorem stream_monotone {a : Preset ℝ} (fixed : a.auto.knee = false)
    (plain : a.auto.postGain = false) :
    (∀ b, a.Tighter b → ∀ n signals sizes others, (∀ xs ∈ signals, xs.length = n) →
      Cut n sizes → Cut n others →
      let p := Parameters.ofPreset a
      let q := Parameters.ofPreset b
      ∃ outputs softer, Plays p n sizes signals outputs ∧ Plays q n others signals softer ∧
        (∀ t, Flow.gainAt q (levelsOf q n signals) t ≤ Flow.gainAt p (levelsOf p n signals) t) ∧
        Softer outputs softer) ∧
    (a.auto.attack = false → a.auto.release = false → ∀ n signals louder sizes others,
      (∀ xs ∈ signals, xs.length = n) → (∀ xs ∈ louder, xs.length = n) →
      Cut n sizes → Cut n others →
      let p := Parameters.ofPreset a
      List.Forall₂ (· ≤ ·) (levelsOf p n signals) (levelsOf p n louder) →
      ∃ outputs outputs', Plays p n sizes signals outputs ∧ Plays p n others louder outputs' ∧
        ∀ t, Flow.gainAt p (levelsOf p n louder) t ≤ Flow.gainAt p (levelsOf p n signals) t) := by
  obtain ⟨low, high⟩ := Parameters.crestCoefficient_mem a
  constructor
  · intro b tighter n signals sizes others equal cut other p q
    have steeper := Parameters.ofPreset_steeper fixed tighter
    obtain ⟨outputs, first⟩ := exists_plays p equal cut
    obtain ⟨softer, second⟩ := exists_plays q equal other
    have gains (t : Nat) :
        Flow.gainAt q (levelsOf q n signals) t ≤ Flow.gainAt p (levelsOf p n signals) t := by
      rw [levelsOf_eq steeper n signals]
      exact steeper.gainAt_le fixed plain low high (List.forall₂_same.mpr fun _ _ => le_refl _)
        (.inl rfl) t
    exact ⟨outputs, softer, first, second, gains, first.softer steeper second gains⟩
  · intro attack release n signals louder sizes others equal equal' cut other p below
    have steeper := Parameters.ofPreset_steeper fixed (Preset.Tighter.refl a)
    have unused : p.auto.usesCrest = false := by
      change (a.auto.attack || a.auto.release) = false
      rw [attack, release, Bool.or_self]
    obtain ⟨outputs, first⟩ := exists_plays p equal cut
    obtain ⟨outputs', second⟩ := exists_plays p equal' other
    exact ⟨outputs, outputs', first, second,
      steeper.gainAt_le fixed plain low high below (.inr unused)⟩

theorem stream_monotone_stereo :
    let a : Preset ℝ := ⟨2, 44100, .off, 0.001, 0.002, 6, 0, -12, 4, 0, 0.02, 0.2⟩
    let b : Preset ℝ := ⟨2, 44100, .off, 0.001, 0.002, 6, 0, -18, 8, 6, 0.02, 0.2⟩
    let p := Parameters.ofPreset a
    let q := Parameters.ofPreset b
    a.auto.knee = false ∧ a.auto.postGain = false ∧ a.Tighter b ∧ Cut 3 [1, 2] ∧ Cut 3 [3] ∧
      a.auto.attack = false ∧ a.auto.release = false ∧
      List.Forall₂ (· ≤ ·) (levelsOf p 3 [[1, -2, 3]]) (levelsOf p 3 [[-2, 3, 4]]) ∧
      (∃ outputs softer, Plays p 3 [1, 2] [[1, -2, 3]] outputs ∧ Plays q 3 [3] [[1, -2, 3]] softer ∧
        (∀ t, Flow.gainAt q (levelsOf q 3 [[1, -2, 3]]) t ≤
          Flow.gainAt p (levelsOf p 3 [[1, -2, 3]]) t) ∧ Softer outputs softer) ∧
      ∃ outputs outputs', Plays p 3 [1, 2] [[1, -2, 3]] outputs ∧
        Plays p 3 [3] [[-2, 3, 4]] outputs' ∧
        ∀ t, Flow.gainAt p (levelsOf p 3 [[-2, 3, 4]]) t ≤
          Flow.gainAt p (levelsOf p 3 [[1, -2, 3]]) t := by
  intro a b p q
  have tighter : a.Tighter b := ⟨rfl, by norm_num [a, b], by norm_num [a, b], by norm_num [a, b]⟩
  have cut : Cut 3 [1, 2] := ⟨rfl, by decide⟩
  have other : Cut 3 [3] := ⟨rfl, by decide⟩
  have below : List.Forall₂ (· ≤ ·) (levelsOf p 3 [[1, -2, 3]]) (levelsOf p 3 [[-2, 3, 4]]) := by
    have positive : 0 < p.preGain := Real.rpow_pos_of_pos (by norm_num) _
    have channels : p.channels = 2 := rfl
    have size (x : ℝ) : magnitude x = |x| := rfl
    have above (k m : ℝ) (least : 0 ≤ k) (more : k ≤ m) :
        k * p.preGain ≤ 0.0 ∨ 0.0 ≤ m * p.preGain ∧ k * p.preGain ≤ m * p.preGain := by
      have zero : (0.0 : ℝ) = 0 := by norm_num
      rw [zero]
      exact .inr ⟨mul_nonneg (least.trans more) positive.le, by gcongr⟩
    have first := above 1 2 (by norm_num) (by norm_num)
    rw [one_mul] at first
    have second := above 2 3 (by norm_num) (by norm_num)
    have third := above 3 4 (by norm_num) (by norm_num)
    simpa [levelsOf, link, raised, channels, size, abs_mul, abs_of_pos positive] using
      ⟨first, second, third⟩
  obtain ⟨curves, levels⟩ := stream_monotone (a := a) rfl rfl
  exact ⟨rfl, rfl, tighter, cut, other, rfl, rfl, below,
    curves b tighter 3 _ _ _ (by simp) cut other,
    levels rfl rfl 3 _ _ _ _ (by simp) (by simp) cut other below⟩

end Compressor

end RealtimeAudio
