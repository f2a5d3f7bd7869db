import RealtimeAudio.Proofs.Arithmetic.Exact
import RealtimeAudio.Compressor.Gain

/-! The static curve without rounding. Whatever the knee, the overshoot is the greatest of a family
of lines over the excess, one for each slope from 0 to 1, which the knee raises at slopes in
between. A wider knee or a greater excess raises every line, and so the overshoot. -/
namespace RealtimeAudio
open Arithmetic Exact

/-- How far a level counts as above the threshold that it exceeds by `excess`. -/
noncomputable def bend (knee excess : ℝ) : ℝ :=
  if excess ≤ -(0.5 * knee) then 0
  else if |excess| < 0.5 * knee then (excess + 0.5 * knee) * (excess + 0.5 * knee) / (2.0 * knee)
  else excess

/-- The line of a slope. -/
noncomputable def bendLine (knee excess slope : ℝ) : ℝ :=
  slope * excess + 0.5 * knee * (slope * (1 - slope))

variable {knee excess slope : ℝ}

theorem half_mul (x : ℝ) : 0.5 * x = x / 2 := by
  norm_num
  ring

theorem twice_mul (x : ℝ) : 2.0 * x = 2 * x := by
  norm_num

theorem bendLine_le_bend (wide : 0 ≤ knee) (rises : 0 ≤ slope) (flat : slope ≤ 1) :
    bendLine knee excess slope ≤ bend knee excess := by
  unfold bend bendLine
  rw [half_mul, twice_mul]
  split
  · rename_i below
    calc
      slope * excess + knee / 2 * (slope * (1 - slope)) ≤
          slope * -(knee / 2) + knee / 2 * (slope * (1 - slope)) := by gcongr
      _ = -(knee / 2 * slope ^ 2) := by ring
      _ ≤ 0 := by
        rw [neg_nonpos]
        positivity
  · split
    · rename_i within
      have some : 0 < knee := by
        have := abs_nonneg excess
        linarith
      have apart : (excess + knee / 2) * (excess + knee / 2) / (2 * knee) -
          (slope * excess + knee / 2 * (slope * (1 - slope))) =
            (excess + knee / 2 - slope * knee) ^ 2 / (2 * knee) := by
        field_simp
        ring
      have nonneg : 0 ≤ (excess + knee / 2 - slope * knee) ^ 2 / (2 * knee) := by positivity
      linarith
    · rename_i above outside
      have beyond : knee / 2 ≤ excess := by
        rcases le_abs'.mp (not_lt.mp outside) with low | high
        · exact absurd low above
        · exact high
      have part : knee / 2 * slope ≤ knee / 2 := mul_le_of_le_one_right (by linarith) flat
      have apart : excess - (slope * excess + knee / 2 * (slope * (1 - slope))) =
          (1 - slope) * (excess - knee / 2 * slope) := by ring
      have nonneg : 0 ≤ (1 - slope) * (excess - knee / 2 * slope) :=
        mul_nonneg (by linarith) (by linarith)
      linarith

/-- One of the lines reaches the overshoot. -/
theorem exists_bendLine (knee excess : ℝ) :
    ∃ slope, 0 ≤ slope ∧ slope ≤ 1 ∧ bendLine knee excess slope = bend knee excess := by
  unfold bend bendLine
  rw [half_mul, twice_mul]
  split
  · exact ⟨0, le_refl 0, zero_le_one, by ring⟩
  · split
    · rename_i above within
      obtain ⟨low, high⟩ := abs_lt.mp within
      have some : 0 < knee := by linarith
      refine ⟨(excess + knee / 2) / knee, ?_, ?_, ?_⟩
      · exact div_nonneg (by linarith) some.le
      · rw [div_le_one some]
        linarith
      · field_simp
        ring
    · exact ⟨1, zero_le_one, le_refl 1, by ring⟩

/-- A wider knee and a greater excess count for no less. -/
theorem bend_mono {knee' excess' : ℝ} (wide : 0 ≤ knee) (wider : knee ≤ knee')
    (greater : excess ≤ excess') : bend knee excess ≤ bend knee' excess' := by
  obtain ⟨slope, rises, flat, reached⟩ := exists_bendLine knee excess
  have turn : 0 ≤ slope * (1 - slope) := mul_nonneg rises (by linarith)
  calc
    bend knee excess = bendLine knee excess slope := reached.symm
    _ ≤ bendLine knee' excess' slope := by
      unfold bendLine
      gcongr
    _ ≤ bend knee' excess' := bendLine_le_bend (wide.trans wider) rises flat

theorem bend_nonneg (wide : 0 ≤ knee) (excess : ℝ) : 0 ≤ bend knee excess := by
  have flat : bendLine knee excess 0 ≤ bend knee excess :=
    bendLine_le_bend wide (le_refl 0) zero_le_one
  rwa [bendLine, zero_mul, zero_mul, mul_zero, add_zero] at flat

theorem Parameters.overshoot_eq (p : Parameters ℝ) (knee level : ℝ) :
    p.overshoot knee level = bend knee (level - p.threshold) := by
  have zero : (0.0 : ℝ) = 0 := by norm_num
  unfold Parameters.overshoot bend
  dsimp only
  rw [zero]
  rfl

end RealtimeAudio
