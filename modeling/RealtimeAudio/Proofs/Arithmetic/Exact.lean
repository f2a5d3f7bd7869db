import Mathlib.Analysis.SpecialFunctions.Log.Base
import Mathlib.Analysis.SpecialFunctions.Pow.Real
import RealtimeAudio.Decibel

/-! The arithmetic without rounding: over the real numbers the signal path is the recurrence that
the program approximates. There is no real number below every level, but none below the
logarithm of the amplitude floor is ever held, so that one serves as the bottom. -/
namespace RealtimeAudio.Exact
open Arithmetic

noncomputable scoped instance : Arithmetic ℝ where
  decideLe := Classical.decRel _
  decideLt := Classical.decRel _
  magnitude x := |x|
  lnTen := Real.log 10.0
  bottom := Real.log 0.000001
  wholeUpTo limit x := min limit ⌊x + 0.5⌋₊

noncomputable scoped instance : Elementary ℝ where
  exp := Real.exp
  ln := Real.log
  log10 := Real.logb 10.0
  tenTo x := (10.0 : ℝ) ^ x

@[simp] theorem larger_eq_max (x y : ℝ) : larger x y = max x y := by
  rw [larger, if_pos (le_refl y)]
  split
  · rename_i below
    exact (max_eq_left below.le).symm
  · rename_i above
    exact (max_eq_right (not_lt.mp above)).symm

theorem amplitudeFloor_pos : (0 : ℝ) < Level.amplitudeFloor := by
  rw [Level.amplitudeFloor]
  norm_num

/-- A level is never below its amplitude, nor is a level taken of anything below the floor. -/
theorem le_exp_amplitudeToLog (x : ℝ) : x ≤ Real.exp (Level.amplitudeToLog x) := by
  have positive : 0 < max x Level.amplitudeFloor := lt_max_of_lt_right amplitudeFloor_pos
  calc
    x ≤ max x Level.amplitudeFloor := le_max_left _ _
    _ = Real.exp (Real.log (max x Level.amplitudeFloor)) := (Real.exp_log positive).symm
    _ = Real.exp (Level.amplitudeToLog x) := by rw [← larger_eq_max]; rfl

/-- Decibels in log units are the logarithm of the amplitude they stand for. -/
theorem exp_decibelToLog (x : ℝ) : Real.exp (Level.decibelToLog x) = (10 : ℝ) ^ (x / 20) := by
  have ten : (10.0 : ℝ) = 10 := by norm_num
  have twenty : (20.0 : ℝ) = 20 := by norm_num
  have units : Level.decibelToLog x = Real.log 10 * (x / 20) := by
    change x * (Real.log 10.0 / 20.0) = _
    rw [ten, twenty]
    ring
  rw [units, Real.rpow_def_of_pos (by norm_num)]

theorem le_foldl_larger {x y : ℝ} {xs : List ℝ} (member : y ∈ xs) : y ≤ xs.foldl larger x := by
  have most : (larger : ℝ → ℝ → ℝ) = max := funext₂ larger_eq_max
  have greatest : (x :: xs).max? = some (xs.foldl larger x) := by
    rw [most]
    exact List.max?_cons'
  exact (List.max?_le_iff greatest).mp (le_refl _) y (List.mem_cons_of_mem x member)

end RealtimeAudio.Exact
