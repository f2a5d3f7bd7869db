import RealtimeAudio.Proofs.Compressor.Monotone

/-! The automatic make-up gain, without rounding. The deviation follows the attenuation slowly, so the
make-up is a mean of the attenuations so far and the estimate it started from, and an attenuation is
never negative. The knee that the deviation widens and the declipping that raises it do not matter:
the one changes the attenuations only, the other lowers the make-up. -/
namespace RealtimeAudio
open Arithmetic Exact

namespace Parameters
variable {p : Parameters ℝ}

theorem demand_nonneg (derived : p.Derived) (deviation level : ℝ) : 0 ≤ p.demand deviation level := by
  have wide : 0 ≤ p.kneeWidth deviation := by
    unfold kneeWidth
    split
    · have zero : (0 : ℝ) ≤ 0.0 := by norm_num
      rw [larger_eq_max]
      exact le_max_of_le_right zero
    · exact derived.wide
  unfold demand
  rw [overshoot_eq]
  exact mul_nonneg (neg_nonneg.mpr derived.falls) (bend_nonneg wide _)

theorem makeUp_eq (lifts : p.auto.postGain = true) (deviation : ℝ) :
    p.makeUp deviation = -(deviation + p.gainEstimate) := if_pos lifts

theorem makeUp_anti (lifts : p.auto.postGain = true) {deviation higher : ℝ}
    (raised : deviation ≤ higher) : p.makeUp higher ≤ p.makeUp deviation := by
  rw [makeUp_eq lifts, makeUp_eq lifts]
  linarith

/-- The make-up follows the attenuation as the deviation does. -/
theorem makeUp_mix (lifts : p.auto.postGain = true) (attenuation deviation t : ℝ) :
    p.makeUp (mix (-(attenuation + p.gainEstimate)) deviation t) =
      mix attenuation (p.makeUp deviation) t := by
  rw [makeUp_eq lifts, makeUp_eq lifts]
  unfold mix
  ring

theorem le_declipped_self (p : Parameters ℝ) (leaving attenuation deviation : ℝ) :
    deviation ≤ p.declipped leaving attenuation deviation := by
  unfold declipped
  split
  · rw [larger_eq_max]
    exact le_max_left _ _
  · exact le_rfl

end Parameters

theorem mix_self (a t : ℝ) : mix a a t = a := by
  rw [mix, sub_self, mul_zero, add_zero]

/-- A state after attenuations between nothing and `deepest`. -/
structure GainState.Restrained (p : Parameters ℝ) (deepest : ℝ) (s : GainState ℝ) : Prop where
  released : 0 ≤ s.released
  attenuation : 0 ≤ s.attenuation
  makeUp_le : p.makeUp s.deviation ≤ max (-p.gainEstimate) deepest
  le_makeUp : p.auto.declip = false → -max 0 p.gainEstimate ≤ p.makeUp s.deviation

namespace GainState.Restrained
variable {p : Parameters ℝ} {deepest : ℝ} {s : GainState ℝ}

theorem still (lifts : p.auto.postGain = true) (deepest : ℝ) : Restrained p deepest .still := by
  have zero : (0.0 : ℝ) = 0 := by norm_num
  have start : p.makeUp (GainState.still : GainState ℝ).deviation = -p.gainEstimate := by
    rw [Parameters.makeUp_eq lifts, GainState.still, zero, zero_add]
  constructor
  case released => exact zero.ge
  case attenuation => exact zero.ge
  case makeUp_le =>
    rw [start]
    exact le_max_left _ _
  case le_makeUp =>
    intro _
    rw [start]
    exact neg_le_neg (le_max_right _ _)

/-- One sample keeps the bounds if its attenuation is no deeper. -/
theorem step (restrained : s.Restrained p deepest) (derived : p.Derived)
    (lifts : p.auto.postGain = true) {x : Sight ℝ} (squared : 0 ≤ x.crest)
    (within : (s.step p x).attenuation ≤ deepest) : (s.step p x).Restrained p deepest := by
  have demand := Parameters.demand_nonneg derived s.deviation x.entering
  obtain ⟨fastLow, fastHigh⟩ := smoothing_mem (Parameters.attackTime_nonneg derived.attacks squared)
  obtain ⟨adaptLow, adaptHigh⟩ := derived.adapts
  have released : 0 ≤ (s.step p x).released := by
    unfold GainState.step
    dsimp only
    rw [larger_eq_max]
    exact le_max_of_le_left demand
  have attenuation : 0 ≤ (s.step p x).attenuation :=
    mix_nonneg released restrained.attenuation fastLow fastHigh
  have tracked := Parameters.makeUp_mix lifts (s.step p x).attenuation s.deviation p.adaptCoefficient
  refine ⟨released, attenuation, ?_, ?_⟩
  · calc
      p.makeUp (s.step p x).deviation ≤
          p.makeUp (mix (-((s.step p x).attenuation + p.gainEstimate)) s.deviation
            p.adaptCoefficient) := Parameters.makeUp_anti lifts (p.le_declipped_self _ _ _)
      _ = mix (s.step p x).attenuation (p.makeUp s.deviation) p.adaptCoefficient := tracked
      _ ≤ mix (max (-p.gainEstimate) deepest) (max (-p.gainEstimate) deepest) p.adaptCoefficient :=
        mix_mono (le_max_of_le_right within) restrained.makeUp_le adaptLow adaptHigh
      _ = max (-p.gainEstimate) deepest := mix_self _ _
  · intro plain
    have undisturbed : (s.step p x).deviation =
        mix (-((s.step p x).attenuation + p.gainEstimate)) s.deviation p.adaptCoefficient :=
      if_neg (by rw [plain, Bool.and_false]; exact Bool.false_ne_true)
    have below : -max 0 p.gainEstimate ≤ (s.step p x).attenuation :=
      (neg_nonpos.mpr (le_max_left _ _)).trans attenuation
    calc
      -max 0 p.gainEstimate =
          mix (-max 0 p.gainEstimate) (-max 0 p.gainEstimate) p.adaptCoefficient :=
        (mix_self _ _).symm
      _ ≤ mix (s.step p x).attenuation (p.makeUp s.deviation) p.adaptCoefficient :=
        mix_mono below (restrained.le_makeUp plain) adaptLow adaptHigh
      _ = p.makeUp (s.step p x).deviation := by rw [undisturbed, tracked]

end GainState.Restrained

namespace Flow
variable {p : Parameters ℝ} {levels : List ℝ}

/-- The attenuation applied at position `t`. -/
noncomputable def attenuationAt (p : Parameters ℝ) (levels : List ℝ) (t : Nat) : ℝ :=
  (computer p (levels.take (t + 1))).attenuation

/-- The make-up applied at position `t`, in log units. -/
noncomputable def makeUpAt (p : Parameters ℝ) (levels : List ℝ) (t : Nat) : ℝ :=
  p.makeUp (computer p (levels.take (t + 1))).deviation

theorem log_gainAt (p : Parameters ℝ) (levels : List ℝ) (t : Nat) :
    Real.log (gainAt p levels t) = makeUpAt p levels t - attenuationAt p levels t :=
  Real.log_exp _

/-- Whole runs keep the bounds of their deepest attenuation. -/
theorem computer_restrained (derived : p.Derived) (lifts : p.auto.postGain = true) {deepest : ℝ}
    {t : Nat} (inside : t ≤ levels.length)
    (within : ∀ s < t, attenuationAt p levels s ≤ deepest) :
    (computer p (levels.take t)).Restrained p deepest := by
  induction t with
  | zero =>
    rw [List.take_zero, computer, advance_nil]
    exact .still lifts deepest
  | succ t ih =>
    have before := ih (by omega) fun s early => within s (by omega)
    have last := within t (Nat.lt_succ_self t)
    have factor : t < ((start p).factors p levels).length := by
      rw [length_factors]
      omega
    have squared : 0 ≤ ((start p).factors p levels).getD t 0.0 := by
      rw [List.getD_eq_getElem _ _ factor]
      exact factors_nonneg derived.crest.1 derived.crest.2 levels _ (List.getElem_mem _)
    unfold attenuationAt at last
    rw [computer_take_succ (by omega)] at last ⊢
    exact before.step derived lifts squared last

theorem exists_deepest (p : Parameters ℝ) (levels : List ℝ) (t : Nat) :
    ∃ s ≤ t, ∀ r ≤ t, attenuationAt p levels r ≤ attenuationAt p levels s := by
  obtain ⟨s, member, greatest⟩ := Finset.exists_max_image (Finset.range (t + 1))
    (attenuationAt p levels) ⟨t, Finset.self_mem_range_succ t⟩
  exact ⟨s, Finset.mem_range_succ_iff.mp member,
    fun r early => greatest r (Finset.mem_range_succ_iff.mpr early)⟩

end Flow

namespace Compressor

/-- Without rounding, automatic make-up gain does not run away: it exceeds neither what the estimate
starts it from nor the deepest attenuation so far, and so neither does the logarithm of the gain.
Without declipping it does not fall below nothing and its start. -/
theorem stream_makeUp_le {preset : Preset ℝ} (lifts : preset.auto.postGain = true) {n : Nat}
    {signals : List (List ℝ)} {sizes : List Nat} (equal : ∀ xs ∈ signals, xs.length = n)
    (cut : Cut n sizes) :
    let p := Parameters.ofPreset preset
    let levels := levelsOf p n signals
    ∃ outputs, Plays p n sizes signals outputs ∧ ∀ t < n, ∃ s ≤ t,
      (∀ r ≤ t, Flow.attenuationAt p levels r ≤ Flow.attenuationAt p levels s) ∧
      Flow.makeUpAt p levels t ≤ max (-p.gainEstimate) (Flow.attenuationAt p levels s) ∧
      (0 ≤ p.gainEstimate → Flow.makeUpAt p levels t ≤ Flow.attenuationAt p levels s) ∧
      (preset.auto.declip = false → -max 0 p.gainEstimate ≤ Flow.makeUpAt p levels t) ∧
      Real.log (Flow.gainAt p levels t) ≤
        max (-p.gainEstimate) (Flow.attenuationAt p levels s) := by
  intro p levels
  have derived : p.Derived := Parameters.ofPreset_derived preset
  have size : levels.length = n :=
    length_link n _ (equal_raised (equal_front equal))
  obtain ⟨outputs, plays⟩ := exists_plays p equal cut
  refine ⟨outputs, plays, fun t inside => ?_⟩
  obtain ⟨s, early, deepest⟩ := Flow.exists_deepest p levels t
  have restrained : (Flow.computer p (levels.take (t + 1))).Restrained p
      (Flow.attenuationAt p levels s) :=
    Flow.computer_restrained derived lifts (by omega) fun r before =>
      deepest r (Nat.le_of_lt_succ before)
  have applied : 0 ≤ Flow.attenuationAt p levels t := restrained.attenuation
  refine ⟨s, early, deepest, restrained.makeUp_le, ?_, ?_, ?_⟩
  · intro above
    have most := restrained.makeUp_le
    rwa [max_eq_right ((neg_nonpos.mpr above).trans (applied.trans (deepest t le_rfl)))] at most
  · intro plain
    apply restrained.le_makeUp
    change (preset.auto.declip && preset.auto.postGain) = false
    rw [plain, Bool.false_and]
  · rw [Flow.log_gainAt]
    exact (sub_le_self _ applied).trans restrained.makeUp_le

theorem stream_makeUp_le_positive :
    let preset : Preset ℝ :=
      ⟨2, 44100, { Automation.on with declip := false }, 0.001, 0.002, 6, 0, 12, 4, 0, 0.02, 0.2⟩
    let p := Parameters.ofPreset preset
    let levels := levelsOf p 3 [[4, -1, 0.5], [0, -8, 2]]
    preset.auto.postGain = true ∧ Cut 3 [1, 2] ∧ 0 ≤ p.gainEstimate ∧
      ∃ outputs, Plays p 3 [1, 2] [[4, -1, 0.5], [0, -8, 2]] outputs ∧ ∃ s ≤ 2,
        Flow.makeUpAt p levels 2 ≤ Flow.attenuationAt p levels s ∧
        -max 0 p.gainEstimate ≤ Flow.makeUpAt p levels 2 := by
  intro preset p levels
  have cut : Cut 3 [1, 2] := ⟨rfl, by decide⟩
  have above : 0 ≤ p.gainEstimate := by
    have positive : 0 ≤ Level.decibelToLog (12 : ℝ) := by
      have zero : Level.decibelToLog (0 : ℝ) = 0 := zero_mul _
      rw [← zero]
      exact decibelToLog_mono (by norm_num)
    change 0 ≤ Level.decibelToLog (12 : ℝ) * -0.5 * -1.0
    norm_num
    exact positive
  have equal : ∀ xs ∈ [[4, -1, 0.5], [0, -8, (2 : ℝ)]], xs.length = 3 := by simp
  obtain ⟨outputs, plays, bounds⟩ := @stream_makeUp_le preset rfl 3 _ _ equal cut
  obtain ⟨s, early, -, -, most, least, -⟩ := bounds 2 (by decide)
  exact ⟨rfl, cut, above, outputs, plays, s, early, most above, least rfl⟩

end Compressor

end RealtimeAudio
