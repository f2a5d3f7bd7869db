import RealtimeAudio.Proofs.Binary.Order
import RealtimeAudio.Proofs.Binary.Packing

/-! Values of a binary format as extended real numbers. On stored values the comparison of exponents
and significands is that of the numbers they stand for. -/
namespace RealtimeAudio.Binary
open Float.Model (Format UnpackedFloat)
open Float.Model.UnpackedFloat

variable {fmt : Format}

/-- The number that a value stands for, if it is one. -/
noncomputable def extended : UnpackedFloat → EReal
  | .infinity .negative => ⊥
  | .infinity .positive => ⊤
  | u => real u

theorem isNaN_of_isFinite {u : UnpackedFloat} (finite : u.isFinite = true) : u.isNaN = false := by
  cases u with
  | notANumber => cases finite
  | _ => rfl

/-- A value that is a number is infinite, or stands for a real number. -/
theorem infinite_or_finite {u : UnpackedFloat} (number : u.isNaN = false) :
    u = .infinity .negative ∨ u = .infinity .positive ∨
      u.isFinite = true ∧ extended u = real u := by
  cases u with
  | notANumber => cases number
  | infinity s => cases s <;> simp
  | zero s => exact Or.inr (Or.inr ⟨rfl, rfl⟩)
  | finite s m e positive => exact Or.inr (Or.inr ⟨rfl, rfl⟩)

/-- Among canonical values, those with the larger exponent are larger. -/
theorem magnitude_lt {m n : ℕ} {e f : ℤ} (small : m < 2 ^ (places fmt + 1))
    (least : fmt.minExponent ≤ e) (full : f = fmt.minExponent ∨ 2 ^ places fmt ≤ n)
    (less : e < f ∨ e = f ∧ m < n) : (m : ℝ) * 2 ^ e < n * 2 ^ f := by
  rcases less with lower | ⟨rfl, less⟩
  · have filled : 2 ^ places fmt ≤ n := full.resolve_left (by omega)
    have top : (m : ℝ) < 2 ^ ((places fmt + 1 : ℕ) : ℤ) := by exact_mod_cast small
    have bottom : (2 : ℝ) ^ (places fmt : ℤ) ≤ n := by exact_mod_cast filled
    calc (m : ℝ) * 2 ^ e < 2 ^ ((places fmt + 1 : ℕ) : ℤ) * 2 ^ e := by gcongr
      _ = 2 ^ (((places fmt + 1 : ℕ) : ℤ) + e) := (zpow_add₀ two_ne_zero _ _).symm
      _ ≤ 2 ^ ((places fmt : ℤ) + f) := zpow_le_zpow_right₀ one_le_two (by omega)
      _ = 2 ^ (places fmt : ℤ) * 2 ^ f := zpow_add₀ two_ne_zero _ _
      _ ≤ n * 2 ^ f := by gcongr
  · have cast : (m : ℝ) < n := by exact_mod_cast less
    gcongr

theorem magnitude_pos {m : ℕ} {e : ℤ} (positive : 0 < m) : (0 : ℝ) < m * 2 ^ e := by
  have cast : (0 : ℝ) < m := by exact_mod_cast positive
  positivity

theorem real_positive {m : ℕ} {e : ℤ} (some : 0 < m) : 0 < real (.finite .positive m e some) :=
  magnitude_pos some

theorem real_negative {m : ℕ} {e : ℤ} (some : 0 < m) : real (.finite .negative m e some) < 0 :=
  neg_neg_of_pos (magnitude_pos some)

/-- Values of the same sign are ordered by their magnitudes, and turned round below zero. -/
theorem real_lt {s : Sign} {m n : ℕ} {e f : ℤ} {hm : 0 < m} {hn : 0 < n}
    (left : Canonical fmt (.finite s m e hm)) (right : Canonical fmt (.finite s n f hn))
    (less : rank (.finite s m e hm) < rank (.finite s n f hn)) :
    real (.finite s m e hm) < real (.finite s n f hn) := by
  cases s with
  | positive =>
    have order : e < f ∨ e = f ∧ m < n := by simpa [rank, Prod.Lex.toLex_lt_toLex] using less
    exact magnitude_lt left.1 left.2.1 right.2.2 order
  | negative =>
    have order : f < e ∨ f = e ∧ n < m := by
      simpa [rank, Prod.Lex.toLex_lt_toLex, eq_comm] using less
    exact neg_lt_neg (magnitude_lt right.1 right.2.1 left.2.2 order)

theorem extended_lt {a b : UnpackedFloat} (left : Canonical fmt a) (right : Canonical fmt b)
    (less : rank a < rank b) : extended a < extended b := by
  rcases a with (_ | _) | _ | _ | ⟨(_ | _), m, e, hm⟩ <;>
    rcases b with (_ | _) | _ | _ | ⟨(_ | _), n, f, hn⟩ <;>
    first
    | (refine absurd less ?_; simp [rank, Prod.Lex.toLex_lt_toLex]; done)
    | exact EReal.bot_lt_coe _
    | exact EReal.coe_lt_top _
    | exact bot_lt_top
    | refine EReal.coe_lt_coe_iff.mpr ?_
  case notANumber.finite.positive => exact real_positive hn
  case zero.finite.positive => exact real_positive hn
  case finite.negative.notANumber => exact real_negative hm
  case finite.negative.zero => exact real_negative hm
  case finite.negative.finite.positive => exact (real_negative hm).trans (real_positive hn)
  case finite.negative.finite.negative => exact real_lt left right less
  case finite.positive.finite.positive => exact real_lt left right less

theorem extended_eq {a b : UnpackedFloat} (same : rank a = rank b) : extended a = extended b := by
  rcases a with (_ | _) | _ | _ | ⟨(_ | _), m, e, hm⟩ <;>
    rcases b with (_ | _) | _ | _ | ⟨(_ | _), n, f, hn⟩ <;>
    first
    | (refine absurd same ?_; simp [rank]; done)
    | rfl
    | (simp only [rank, toLex_inj, Prod.mk.injEq, true_and] at same; grind)

/-- On canonical values the rank orders as the numbers are ordered. -/
theorem rank_le_iff {a b : UnpackedFloat} (left : Canonical fmt a) (right : Canonical fmt b) :
    rank a ≤ rank b ↔ extended a ≤ extended b := by
  constructor
  · intro below
    rcases below.lt_or_eq with less | same
    · exact (extended_lt left right less).le
    · exact (extended_eq same).le
  · intro below
    by_contra above
    exact absurd below (not_le.mpr (extended_lt right left (not_le.mp above)))

theorem clip_mono : Monotone (clip fmt) := by
  have positive : (0 : ℝ) < 2 ^ (highest fmt + places fmt + 1) := by positivity
  intro x y below
  unfold clip
  split
  · rw [if_pos (by linarith)]
  · split
    · exact bot_le
    · split
      · exact le_top
      · rw [if_neg (by linarith)]
        exact EReal.coe_le_coe_iff.mpr below

theorem clip_neg (x : ℝ) : clip fmt (-x) = -clip fmt x := by
  have positive : (0 : ℝ) < 2 ^ (highest fmt + places fmt + 1) := by positivity
  unfold clip
  by_cases large : 2 ^ (highest fmt + places fmt + 1) ≤ x
  · rw [if_neg (by linarith), if_pos (by linarith), if_pos large, EReal.neg_top]
  · by_cases small : x ≤ -2 ^ (highest fmt + places fmt + 1)
    · rw [if_pos (by linarith), if_neg large, if_pos small, EReal.neg_bot]
    · rw [if_neg (by linarith), if_neg (by linarith), if_neg large, if_neg small, EReal.coe_neg]

theorem clip_of_lt {x : ℝ} (above : -2 ^ (highest fmt + places fmt + 1) < x)
    (below : x < 2 ^ (highest fmt + places fmt + 1)) : clip fmt x = x := by
  rw [clip, if_neg (not_le.mpr below), if_neg (not_le.mpr above)]

theorem clip_of_between {l h x : ℝ} (low : clip fmt l = l) (high : clip fmt h = h) (least : l ≤ x)
    (most : x ≤ h) : clip fmt x = x := by
  have bottom : (l : EReal) ≤ clip fmt x := low.symm.trans_le (clip_mono least)
  have top : clip fmt x ≤ h := (clip_mono most).trans_eq high
  unfold clip at bottom top ⊢
  split
  · rename_i above
    rw [if_pos above] at top
    exact absurd (top_le_iff.mp top) (EReal.coe_ne_top h)
  · rename_i below
    rw [if_neg below] at bottom
    split
    · rename_i beneath
      rw [if_pos beneath] at bottom
      exact absurd (le_bot_iff.mp bottom) (EReal.coe_ne_bot l)
    · rfl

/-- A value whose exponent the format has is below every one that it has not. -/
theorem magnitude_lt_top {m : ℕ} {e : ℤ} (small : m < 2 ^ (places fmt + 1))
    (fits : e ≤ highest fmt) : (m : ℝ) * 2 ^ e < 2 ^ (highest fmt + places fmt + 1) := by
  have top : (m : ℝ) < 2 ^ (places fmt + 1) := by exact_mod_cast small
  calc (m : ℝ) * 2 ^ e < 2 ^ (places fmt + 1) * 2 ^ e := by gcongr
    _ ≤ 2 ^ (places fmt + 1) * 2 ^ highest fmt := by
      gcongr
      exact one_le_two
    _ = 2 ^ (highest fmt + places fmt + 1) := by
      rw [← zpow_natCast, ← zpow_add₀ two_ne_zero]
      congr 1
      push_cast
      ring

theorem extended_stored_finite {s : Sign} {m : ℕ} {e : ℤ} {positive : 0 < m}
    (wide : 2 ≤ fmt.exponentBits) (canonical : Canonical fmt (.finite s m e positive)) :
    extended (stored fmt (.finite s m e positive)) = clip fmt (real (.finite s m e positive)) := by
  obtain ⟨small, least, full⟩ := canonical
  have above := magnitude_pos (e := e) positive
  have magnitude : extended (stored fmt (.finite .positive m e positive)) =
      clip fmt (m * 2 ^ e) := by
    rw [stored]
    by_cases large : highest fmt < e
    · have reaches := minExponent_le_highest wide
      have filled : 2 ^ places fmt ≤ m := full.resolve_left (by omega)
      have bottom : (2 : ℝ) ^ places fmt ≤ m := by exact_mod_cast filled
      have beyond : (2 : ℝ) ^ (highest fmt + places fmt + 1) ≤ m * 2 ^ e := by
        calc (2 : ℝ) ^ (highest fmt + places fmt + 1) = 2 ^ places fmt * 2 ^ (highest fmt + 1) := by
              rw [← zpow_natCast, ← zpow_add₀ two_ne_zero]
              congr 1
              ring
          _ ≤ m * 2 ^ e := by
            gcongr
            · exact one_le_two
            · omega
      rw [if_pos large, clip, if_pos beyond]
      rfl
    · have below := magnitude_lt_top small (not_lt.mp large)
      rw [if_neg large, clip_of_lt (by linarith) below]
      rfl
  cases s with
  | positive => exact magnitude
  | negative =>
    have flipped : extended (stored fmt (.finite .negative m e positive)) =
        -extended (stored fmt (.finite .positive m e positive)) := by
      rw [stored, stored]
      split
      · exact EReal.neg_top.symm
      · exact EReal.coe_neg _
    rw [flipped, magnitude, ← clip_neg]
    rfl

/-- What is stored of a finite value stands for its number, where the format reaches that far. -/
theorem extended_stored {u : UnpackedFloat} (wide : 2 ≤ fmt.exponentBits)
    (canonical : Canonical fmt u) (finite : u.isFinite = true) :
    extended (stored fmt u) = clip fmt (real u) := by
  cases u with
  | notANumber => cases finite
  | infinity s => cases finite
  | zero s =>
    have positive : (0 : ℝ) < 2 ^ (highest fmt + places fmt + 1) := by positivity
    change ((0 : ℝ) : EReal) = clip fmt 0
    exact (clip_of_lt (by linarith) positive).symm
  | finite s m e positive => exact extended_stored_finite wide canonical

end RealtimeAudio.Binary
