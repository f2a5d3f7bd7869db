import RealtimeAudio.Proofs.Binary.Significand

/-! Operations of a binary format. The quotient of finite numbers is the exact one, rounded, so
division by a positive number is monotone, infinities included. -/
namespace RealtimeAudio.Binary
open Float.Model (Format UnpackedFloat totalExponent)
open Float.Model.UnpackedFloat

/-- The remainder of a division tells where the quotient lies. -/
theorem describes_quotient (n d : ℕ) (positive : 0 < d) :
    Describes (.ofMantissaAndAccuracy (n / d) (accuracyOfFraction (n % d) d)) ((n : ℝ) / d) := by
  have parts : (n : ℝ) / d = (n / d : ℕ) + ((n % d : ℕ) : ℝ) / d := by
    have whole : ((n / d : ℕ) : ℝ) * d + ((n % d : ℕ) : ℝ) = n := by
      exact_mod_cast Nat.div_add_mod' n d
    field_simp
    linarith
  have divisor : (0 : ℝ) < d := by exact_mod_cast positive
  have less : ((n % d : ℕ) : ℝ) < d := by exact_mod_cast Nat.mod_lt n positive
  rw [parts]
  generalize n / d = q
  generalize n % d = r at *
  unfold accuracyOfFraction
  by_cases none : r = 0
  · rw [if_pos none, none]
    simp [Describes, ExtendedMantissa.ofMantissaAndAccuracy]
  · have some : (0 : ℝ) < r := by exact_mod_cast Nat.pos_of_ne_zero none
    have above : 0 < (r : ℝ) / d := by positivity
    have below : (r : ℝ) / d < 1 := by rwa [div_lt_one divisor]
    rw [if_neg none]
    rcases lt_trichotomy (2 * r) d with small | middle | large
    · rw [compare_lt_iff_lt.mpr small]
      have half : (r : ℝ) / d < 1 / 2 := by
        rw [div_lt_div_iff₀ divisor two_pos]
        exact_mod_cast (by omega : r * 2 < 1 * d)
      change (q : ℝ) < q + r / d ∧ (q : ℝ) + r / d < q + 1 / 2
      exact ⟨by linarith, by linarith⟩
    · rw [compare_eq_iff_eq.mpr middle]
      have half : (r : ℝ) / d = 1 / 2 := by
        rw [div_eq_div_iff divisor.ne' two_ne_zero]
        exact_mod_cast (by omega : r * 2 = 1 * d)
      change (q : ℝ) + r / d = q + 1 / 2
      rw [half]
    · rw [compare_gt_iff_gt.mpr large]
      have half : 1 / 2 < (r : ℝ) / d := by
        rw [div_lt_div_iff₀ two_pos divisor]
        exact_mod_cast (by omega : 1 * d < r * 2)
      change (q : ℝ) + 1 / 2 < q + r / d ∧ (q : ℝ) + r / d < q + 1
      exact ⟨by linarith, by linarith⟩

/-- A quotient is at least half the power of two that the leading bits suggest. -/
theorem le_log_quotient {m n : ℕ} {e f : ℤ} (hm : 0 < m) (hn : 0 < n) :
    (m.log2 : ℤ) + e - (n.log2 + f) - 1 ≤ Int.log 2 ((m * 2 ^ e : ℝ) / (n * 2 ^ f)) := by
  have dividend := magnitude_pos (e := e) hm
  have divisor := magnitude_pos (e := f) hn
  have low : (2 : ℝ) ^ (m.log2 : ℤ) ≤ m := by
    rw [zpow_natCast]
    exact_mod_cast Nat.log2_self_le hm.ne'
  have high : (n : ℝ) ≤ 2 ^ ((n.log2 : ℤ) + 1) := by
    have less : n < 2 ^ (n.log2 + 1) := Nat.lt_log2_self
    exact_mod_cast less.le
  apply (Int.zpow_le_iff_le_log one_lt_two (div_pos dividend divisor)).mp
  rw [le_div_iff₀ divisor]
  push_cast
  calc (2 : ℝ) ^ ((m.log2 : ℤ) + e - (n.log2 + f) - 1) * (n * 2 ^ f)
      ≤ 2 ^ ((m.log2 : ℤ) + e - (n.log2 + f) - 1) * (2 ^ ((n.log2 : ℤ) + 1) * 2 ^ f) := by
        gcongr
    _ = 2 ^ (m.log2 : ℤ) * 2 ^ e := by
        rw [← zpow_add₀ two_ne_zero, ← zpow_add₀ two_ne_zero, ← zpow_add₀ two_ne_zero]
        congr 1
        ring
    _ ≤ m * 2 ^ e := by gcongr

variable {fmt : Format}

theorem div_finite (s t : Sign) {m n : ℕ} {e f : ℤ} (hm : 0 < m) (hn : 0 < n) :
    let quotient := div fmt (.finite s m e hm) (.finite t n f hn)
    Canonical fmt quotient ∧ quotient.isFinite = true ∧
      real quotient = signed (s / t) (round fmt ((m * 2 ^ e : ℝ) / (n * 2 ^ f))) := by
  have dividend := magnitude_pos (e := e) hm
  have divisor := magnitude_pos (e := f) hn
  have log := le_log_quotient (e := e) (f := f) hm hn
  have target : fmt.targetExponent (totalExponent m e - totalExponent n f) =
      max ((m.log2 : ℤ) + e - (n.log2 + f) - (places fmt + 1)) fmt.minExponent := by
    rw [Format.targetExponent, mantissaBits_eq, totalExponent, totalExponent]
    congr 1
    ring
  dsimp only [div, divCore]
  rw [target]
  generalize fine : min (e - f)
    (max ((m.log2 : ℤ) + e - (n.log2 + f) - (places fmt + 1)) fmt.minExponent) = g
  refine roundWithAccuracy_spec (s / t) (div_pos dividend divisor) ?_ ?_
  · have shift : ((e - f - g).toNat : ℤ) = e - f - g := by omega
    have scaled : (m * 2 ^ e : ℝ) / (n * 2 ^ f) / 2 ^ g =
        ((m <<< (e - f - g).toNat : ℕ) : ℝ) / n := by
      rw [Nat.shiftLeft_eq]
      push_cast
      rw [← zpow_natCast, shift, zpow_sub₀ two_ne_zero, zpow_sub₀ two_ne_zero]
      field_simp
    rw [scaled]
    exact describes_quotient _ n hn
  · rw [grid, abs_of_pos (div_pos dividend divisor)]
    omega

/-- Dividing a finite value by a positive one rounds the exact quotient. -/
theorem div_real {u : UnpackedFloat} {n : ℕ} {f : ℤ} (hn : 0 < n) (finite : u.isFinite = true) :
    (div fmt u (.finite .positive n f hn)).isFinite = true ∧
      real (div fmt u (.finite .positive n f hn)) = round fmt (real u / (n * 2 ^ f)) := by
  cases u with
  | notANumber => cases finite
  | infinity s => cases finite
  | zero s =>
    have zero : real (.zero s) / (n * 2 ^ f) = 0 := zero_div _
    rw [zero, round_zero]
    exact ⟨rfl, rfl⟩
  | finite s m e hm =>
    obtain ⟨-, finite, same⟩ := div_finite s .positive hm hn (e := e) (f := f)
    refine ⟨finite, same.trans ?_⟩
    cases s with
    | positive => rfl
    | negative =>
      have turned : real (.finite .negative m e hm) / (n * 2 ^ f) =
          -((m * 2 ^ e : ℝ) / (n * 2 ^ f)) := neg_div _ _
      rw [turned, round_neg]
      rfl

theorem canonical_div (u v : UnpackedFloat) : Canonical fmt (div fmt u v) := by
  cases u with
  | finite s m e hm =>
    cases v with
    | finite t n f hn => exact (div_finite s t hm hn).1
    | _ => trivial
  | _ => cases v <;> trivial

/-- The quotient of a number by a positive finite one is a number. -/
theorem div_number {u : UnpackedFloat} {n : ℕ} {f : ℤ} (hn : 0 < n) (number : u.isNaN = false) :
    (div fmt u (.finite .positive n f hn)).isNaN = false := by
  cases u with
  | notANumber => cases number
  | infinity s => rfl
  | zero s => rfl
  | finite s m e hm => exact isNaN_of_isFinite (div_real hn rfl).1

/-- What is stored of the quotient. -/
theorem extended_div {u : UnpackedFloat} {n : ℕ} {f : ℤ} (wide : 2 ≤ fmt.exponentBits)
    (hn : 0 < n) (finite : u.isFinite = true) :
    extended (stored fmt (div fmt u (.finite .positive n f hn))) =
      clip fmt (round fmt (real u / (n * 2 ^ f))) := by
  obtain ⟨whole, same⟩ : _ ∧ real (div fmt u (.finite .positive n f hn)) = _ := div_real hn finite
  rw [extended_stored wide (canonical_div _ _) whole, same]

theorem extended_div_mono {u v : UnpackedFloat} {n : ℕ} {f : ℤ} (wide : 2 ≤ fmt.exponentBits)
    (hn : 0 < n) (left : u.isNaN = false) (right : v.isNaN = false) (below : extended u ≤ extended v) :
    extended (stored fmt (div fmt u (.finite .positive n f hn))) ≤
      extended (stored fmt (div fmt v (.finite .positive n f hn))) := by
  rcases infinite_or_finite left with rfl | rfl | ⟨finite, real⟩
  · exact bot_le
  · rcases infinite_or_finite right with rfl | rfl | ⟨-, real⟩
    · exact absurd below (not_le.mpr bot_lt_top)
    · exact le_rfl
    · rw [real] at below
      exact absurd below (not_le.mpr (EReal.coe_lt_top _))
  · rcases infinite_or_finite right with rfl | rfl | ⟨finite', real'⟩
    · rw [real] at below
      exact absurd below (not_le.mpr (EReal.bot_lt_coe _))
    · exact le_top
    · rw [real, real', EReal.coe_le_coe_iff] at below
      rw [extended_div wide hn finite, extended_div wide hn finite']
      exact clip_mono (round_mono (div_le_div_of_nonneg_right below (magnitude_pos hn).le))

end RealtimeAudio.Binary
