import RealtimeAudio.Proofs.Decimal.Shortest
import RealtimeAudio.Proofs.Json.Scaling

/-! How near a decimal comes to a midpoint of two neighbouring binary32 values. A decimal grid and
the half places of a binade are two lattices on one line, and a pair of strides along both tells
which of their points come close: a stride that gains a little on the half places, and one that
falls a little behind. A whole combination of the two that stays in the binade is a multiple of one
of them, or it is off by both the gain and the loss. The few multiples that come closer than that are
read as the value on their own side of the midpoint. -/
namespace RealtimeAudio.Json.Midpoint

/-- So many steps of a decimal grid, set beside so many half places. -/
structure Stride where
  steps : ℕ
  halves : ℕ

/-- A stride that is not short of its half places, and one that does not pass them. -/
structure Strides where
  ahead : Stride
  behind : Stride

/-- The binary32 pattern that a decimal is read as. -/
def readPattern (d : Decimal) : Option ℕ :=
  (Significand.toDouble? ⟨d.digits, d.exponent⟩).map fun x =>
    BinaryFormat.double.convert .single x.toBits.toNat

section Search
variable (f : ℤ)

/-- The finest decimal grid of which a step can be more than 0.49 of a last place of `2 ^ f`. -/
def grid : ℤ := (f * 30103 - 30980) / 100000 + 1

/-- A step of the decimal grid and a half place, in a common unit. -/
def step : ℕ := Nat.pow 10 (grid f).toNat * Nat.pow 2 (1 - f).toNat

def half : ℕ := Nat.pow 2 (f - 1).toNat * Nat.pow 10 (-grid f).toNat

/-- The steps up to the end of the binade. -/
def limit : ℕ := 2 ^ 25 * half f / step f

def Stride.gain (v : Stride) : ℕ := v.steps * step f - v.halves * half f

def Stride.loss (v : Stride) : ℕ := v.halves * half f - v.steps * step f

def Stride.add (v w : Stride) (k : ℕ) : Stride := ⟨v.steps + k * w.steps, v.halves + k * w.halves⟩

/-- How often a stride of `steps` that takes off `taken` can follow one of `first` that has `left`. -/
def times (first steps left taken : ℕ) : ℕ :=
  let room := (limit f - first) / steps
  if steps = 0 then left / taken else if taken = 0 then room else min room (left / taken)

/-- The division algorithm on the gain and the loss, as far as the binade has room. -/
def descend : (fuel : ℕ) → Strides → Strides
  | 0, s => s
  | fuel + 1, s =>
    let ahead := s.ahead.add s.behind
      (times f s.ahead.steps s.behind.steps (s.ahead.gain f) (s.behind.loss f))
    let behind := s.behind.add ahead
      (times f s.behind.steps ahead.steps (s.behind.loss f) (ahead.gain f))
    if limit f < ahead.steps + s.behind.steps then ⟨ahead, s.behind⟩
    else descend fuel ⟨ahead, behind⟩

/-- The two strides span both lattices, leave the binade together, and are together off by the
relative precision that reading keeps. -/
structure Apart (s : Strides) : Prop where
  span : s.ahead.steps * s.behind.halves = s.behind.steps * s.ahead.halves + 1
  gains : s.ahead.halves * half f ≤ s.ahead.steps * step f
  loses : s.behind.steps * step f ≤ s.behind.halves * half f
  leaves : limit f < s.ahead.steps + s.behind.steps
  off : half f ≤ (s.ahead.gain f + s.behind.loss f) * 2 ^ 26

instance (s : Strides) : Decidable (Apart f s) :=
  decidable_of_iff (_ ∧ _ ∧ _ ∧ _ ∧ _)
    ⟨fun ⟨a, b, c, d, e⟩ => ⟨a, b, c, d, e⟩, fun ⟨a, b, c, d, e⟩ => ⟨a, b, c, d, e⟩⟩

/-- So many steps of the grid, without zeros at the end. -/
def point (steps : ℕ) : Decimal := Decimal.strip steps ⟨steps, grid f⟩

/-- Where a multiple of the stride comes closer than reading keeps to a midpoint of the binade, it is
read as the value on its own side. -/
def isHarmless (off up : ℕ) (v : Stride) : Bool :=
  (List.range (min (limit f / v.steps) ((half f - 1) / (off * 2 ^ 26)) + 1)).all fun k =>
    k * v.halves % 2 == 0 || 2 ^ 25 ≤ k * v.halves || (f != -149 && k * v.halves ≤ 2 ^ 24) ||
      readPattern (point f (k * v.steps)) ==
        some ((f + 149).toNat * 2 ^ 23 + (k * v.halves + up) / 2)

def isCertified : Bool :=
  let s := descend f 40 ⟨⟨1, 0⟩, ⟨0, 1⟩⟩
  0 < step f && 5 * step f ≤ 49 * half f && decide (Apart f s) &&
    isHarmless f (s.ahead.gain f) 1 s.ahead && isHarmless f (s.behind.loss f) 0 s.behind

end Search

theorem isCertified_all : ∀ k < 254, isCertified ((k : ℕ) - 149) = true := by decide +kernel

variable {f : ℤ} {s : Strides}

/-- What stays in the binade is a multiple of one stride, or off by both. -/
theorem Apart.off_or_multiple (apart : Apart f s) {d m : ℕ} (some : 0 < d) (within : d ≤ limit f) :
    (half f : ℤ) ≤ |(d * step f - m * half f : ℤ)| * 2 ^ 26 ∨
      (∃ k, d = k * s.ahead.steps ∧ m = k * s.ahead.halves) ∨
      ∃ k, d = k * s.behind.steps ∧ m = k * s.behind.halves := by
  obtain ⟨span, gains, loses, leaves, off⟩ := apart
  unfold Stride.gain Stride.loss at off
  obtain ⟨⟨d₁, m₁⟩, ⟨d₂, m₂⟩⟩ := s
  dsimp only at *
  generalize step f = u at *
  generalize half f = h at *
  zify [gains, loses] at span leaves off some within
  have gain : (0 : ℤ) ≤ d₁ * u - m₁ * h := sub_nonneg.mpr (by exact_mod_cast gains)
  have loss : (0 : ℤ) ≤ m₂ * h - d₂ * u := sub_nonneg.mpr (by exact_mod_cast loses)
  -- The point as a combination of the two strides.
  obtain ⟨a, ha⟩ : ∃ a : ℤ, a = d * m₂ - m * d₂ := ⟨_, rfl⟩
  obtain ⟨b, hb⟩ : ∃ b : ℤ, b = m * d₁ - d * m₁ := ⟨_, rfl⟩
  have steps : (d : ℤ) = a * d₁ + b * d₂ := by
    rw [ha, hb]
    linear_combination (-(d : ℤ)) * span
  have halves : (m : ℤ) = a * m₁ + b * m₂ := by
    rw [ha, hb]
    linear_combination (-(m : ℤ)) * span
  have error : (d * u - m * h : ℤ) = a * (d₁ * u - m₁ * h) - b * (m₂ * h - d₂ * u) := by
    rw [steps, halves]
    ring
  have first : (0 : ℤ) ≤ d₁ := Int.natCast_nonneg d₁
  have second : (0 : ℤ) ≤ d₂ := Int.natCast_nonneg d₂
  rw [error]
  generalize (d₁ * u - m₁ * h : ℤ) = p at *
  generalize (m₂ * h - d₂ * u : ℤ) = q at *
  rcases lt_trichotomy b 0 with down | rfl | up
  · rcases le_or_gt a 0 with none | more
    · nlinarith
    · left
      have : p + q ≤ |a * p - b * q| := (by nlinarith : p + q ≤ a * p - b * q).trans (le_abs_self _)
      linarith
  · rw [zero_mul, add_zero] at steps halves
    have nonneg : 0 ≤ a := by
      by_contra less
      nlinarith
    obtain ⟨k, rfl⟩ := Int.eq_ofNat_of_zero_le nonneg
    exact Or.inr (Or.inl ⟨k, by exact_mod_cast steps, by exact_mod_cast halves⟩)
  · rcases lt_trichotomy a 0 with less | rfl | more
    · left
      have : p + q ≤ |a * p - b * q| :=
        (by nlinarith : p + q ≤ -(a * p - b * q)).trans (neg_le_abs _)
      linarith
    · rw [zero_mul, zero_add] at steps halves
      obtain ⟨k, rfl⟩ := Int.eq_ofNat_of_zero_le up.le
      exact Or.inr (Or.inr ⟨k, by exact_mod_cast steps, by exact_mod_cast halves⟩)
    · nlinarith

theorem cast_gain {v : Stride} (gains : v.halves * half f ≤ v.steps * step f) (k : ℕ) :
    ((k * v.gain f : ℕ) : ℤ) = (k * v.steps : ℕ) * step f - (k * v.halves : ℕ) * half f := by
  unfold Stride.gain
  push_cast [gains]
  ring

theorem cast_loss {v : Stride} (loses : v.steps * step f ≤ v.halves * half f) (k : ℕ) :
    ((k * v.loss f : ℕ) : ℤ) = (k * v.halves : ℕ) * half f - (k * v.steps : ℕ) * step f := by
  unfold Stride.loss
  push_cast [loses]
  ring

theorem isHarmless_spec {off up k : ℕ} {v : Stride} (harmless : isHarmless f off up v = true)
    (within : k * v.steps ≤ limit f) (some : 0 < k * v.steps) (differs : 0 < off)
    (close : k * off * 2 ^ 26 < half f) (odd : k * v.halves % 2 = 1)
    (small : k * v.halves < 2 ^ 25) (full : f = -149 ∨ 2 ^ 24 < k * v.halves) :
    readPattern (point f (k * v.steps)) =
      .some ((f + 149).toNat * 2 ^ 23 + (k * v.halves + up) / 2) := by
  have room : k ≤ limit f / v.steps :=
    (Nat.le_div_iff_mul_le (Nat.pos_of_mul_pos_left some)).mpr within
  have error : k ≤ (half f - 1) / (off * 2 ^ 26) := by
    rw [Nat.le_div_iff_mul_le (by omega), ← mul_assoc]
    omega
  have listed : k ∈ List.range (min (limit f / v.steps) ((half f - 1) / (off * 2 ^ 26)) + 1) :=
    List.mem_range.mpr (Nat.lt_succ_of_le (le_min room error))
  have read := List.all_eq_true.mp harmless k listed
  generalize k * v.halves = m at *
  have first : (m % 2 == 0) = false := by simp [odd]
  have second : decide (2 ^ 25 ≤ m) = false := by simpa using small
  have third : (f != -149 && decide (m ≤ 2 ^ 24)) = false := by
    rcases full with rfl | more
    · rfl
    · have above : decide (m ≤ 2 ^ 24) = false := by simpa using more
      rw [above, Bool.and_false]
  rw [first, second, third, Bool.false_or, Bool.false_or, Bool.false_or, beq_iff_eq] at read
  exact read

theorem point_lifted {d : Decimal} (some : 0 < d.digits) (last : d.digits % 10 ≠ 0) {k : ℕ}
    (fits : d.exponent - k = grid f) : point f (d.digits * 10 ^ k) = d := by
  rw [point, ← fits]
  refine Decimal.strip_lifted some last ?_
  calc
    k ≤ 10 ^ k := (Nat.lt_pow_self (by norm_num)).le
    _ ≤ d.digits * 10 ^ k := Nat.le_mul_of_pos_left _ some

theorem exists_scale (f : ℤ) : ∃ scale : ℝ, 0 < scale ∧ (step f : ℝ) = 10 ^ grid f * scale ∧
    (half f : ℝ) = 2 ^ (f - 1) * scale := by
  have turned : -(f - 1) = 1 - f := by ring
  have two := RoundingInterval.toNat_power (two_ne_zero : (2 : ℝ) ≠ 0) (f - 1)
  have ten := RoundingInterval.toNat_power (by norm_num : (10 : ℝ) ≠ 0) (grid f)
  rw [turned] at two
  refine ⟨10 ^ (-grid f).toNat * 2 ^ (1 - f).toNat, by positivity, ?_, ?_⟩
  · change ((10 ^ (grid f).toNat * 2 ^ (1 - f).toNat : ℕ) : ℝ) = _
    push_cast
    rw [ten]
    ring
  · change ((2 ^ (f - 1).toNat * 10 ^ (-grid f).toNat : ℕ) : ℝ) = _
    push_cast
    rw [two]
    ring

/-- A decimal on the grid or above it, as steps of the grid in the common unit. -/
theorem exists_lift {d : Decimal} (fits : grid f ≤ d.exponent) : ∃ (k : ℕ) (scale : ℝ),
    d.exponent - k = grid f ∧ 0 < scale ∧ (half f : ℝ) = 2 ^ (f - 1) * scale ∧
      ((d.digits * 10 ^ k : ℕ) : ℝ) * step f = d.number * scale := by
  obtain ⟨scale, positive, stepEq, halfEq⟩ := exists_scale f
  obtain ⟨k, lifted⟩ : ∃ k : ℕ, d.exponent - k = grid f := ⟨(d.exponent - grid f).toNat, by omega⟩
  refine ⟨k, scale, lifted, positive, halfEq, ?_⟩
  rw [stepEq, ← lifted, Decimal.number, zpow_sub₀ (by norm_num), zpow_natCast]
  push_cast
  field_simp

theorem half_place (f : ℤ) : (2 : ℝ) ^ (f - 1) = 2 ^ (f - 27) * 2 ^ 26 := by
  rw [← zpow_natCast, ← zpow_add₀ two_ne_zero]
  congr 1
  ring

section Certified
variable (least : -149 ≤ f) (most : f ≤ 104)
include least most

theorem isCertified_of_mem : isCertified f = true := by
  have certified := isCertified_all (f + 149).toNat (by omega)
  have same : (((f + 149).toNat : ℕ) : ℤ) - 149 = f := by omega
  rwa [same] at certified

theorem coarse : 0 < step f ∧ 5 * step f ≤ 49 * half f := by
  have certified := isCertified_of_mem least most
  unfold isCertified at certified
  simp only [Bool.and_eq_true, decide_eq_true_eq] at certified
  exact certified.1.1.1

/-- A point of the decimal grid is a midpoint of the binade, or further from it than reading can
err, or read as the value on its own side. -/
theorem midpoint_cases {d m : ℕ} (some : 0 < d) (within : d ≤ limit f) (odd : m % 2 = 1)
    (small : m < 2 ^ 25) (full : f = -149 ∨ 2 ^ 24 < m) :
    d * step f = m * half f ∨
      (half f : ℤ) ≤ |(d * step f - m * half f : ℤ)| * 2 ^ 26 ∨
      (m * half f < d * step f ∧
        readPattern (point f d) = .some ((f + 149).toNat * 2 ^ 23 + (m + 1) / 2)) ∨
      (d * step f < m * half f ∧ readPattern (point f d) = .some ((f + 149).toNat * 2 ^ 23 + m / 2)) := by
  have certified := isCertified_of_mem least most
  unfold isCertified at certified
  simp only [Bool.and_eq_true, decide_eq_true_eq] at certified
  obtain ⟨⟨⟨-, apart⟩, ahead⟩, behind⟩ := certified
  by_cases exact : d * step f = m * half f
  · exact Or.inl exact
  by_cases far : (half f : ℤ) ≤ |(d * step f - m * half f : ℤ)| * 2 ^ 26
  · exact Or.inr (Or.inl far)
  refine Or.inr (Or.inr ?_)
  rcases (apart.off_or_multiple some within).resolve_left far with
    ⟨k, rfl, rfl⟩ | ⟨k, rfl, rfl⟩
  · have gain := cast_gain apart.gains k
    rw [← gain, Nat.abs_cast] at far
    have positive : 0 < k * (descend f 40 ⟨⟨1, 0⟩, ⟨0, 1⟩⟩).ahead.gain f := by omega
    refine Or.inl ⟨by omega, isHarmless_spec ahead within some ?_ ?_ odd small full⟩
    · exact Nat.pos_of_mul_pos_left positive
    · exact_mod_cast not_le.mp far
  · have loss := cast_loss apart.loses k
    rw [abs_sub_comm, ← loss, Nat.abs_cast] at far
    have positive : 0 < k * (descend f 40 ⟨⟨1, 0⟩, ⟨0, 1⟩⟩).behind.loss f := by omega
    refine Or.inr ⟨by omega, isHarmless_spec behind within some ?_ ?_ odd small full⟩
    · exact Nat.pos_of_mul_pos_left positive
    · exact_mod_cast not_le.mp far

/-- The steps up to a number of the binade. -/
theorem le_limit {n : ℕ} {x scale : ℝ} (positive : 0 < scale)
    (halfEq : (half f : ℝ) = 2 ^ (f - 1) * scale) (number : (n : ℝ) * step f = x * scale)
    (within : x ≤ 2 ^ (f + 24)) : n ≤ limit f := by
  have parts : f + 24 = 25 + (f - 1) := by ring
  rw [limit, Nat.le_div_iff_mul_le (coarse least most).1, ← Nat.cast_le (α := ℝ), Nat.cast_mul,
    number]
  calc
    x * scale ≤ 2 ^ (f + 24) * scale := by gcongr
    _ = 2 ^ 25 * half f := by
      rw [halfEq, parts, zpow_add₀ two_ne_zero]
      norm_num
      ring
    _ = ((2 ^ 25 * half f : ℕ) : ℝ) := by norm_num

/-- A decimal of the binade on or above the grid is a midpoint, or further from it than reading can
err, or read as the value on its own side. -/
theorem number_cases {d : Decimal} {m : ℕ} (some : 0 < d.digits) (last : d.digits % 10 ≠ 0)
    (fits : grid f ≤ d.exponent) (within : d.number ≤ 2 ^ (f + 24)) (odd : m % 2 = 1)
    (small : m < 2 ^ 25) (full : f = -149 ∨ 2 ^ 24 < m) :
    d.number = m * 2 ^ (f - 1) ∨ 2 ^ (f - 27) ≤ |d.number - m * 2 ^ (f - 1)| ∨
      (m * 2 ^ (f - 1) < d.number ∧
        readPattern d = .some ((f + 149).toNat * 2 ^ 23 + (m + 1) / 2)) ∨
      (d.number < m * 2 ^ (f - 1) ∧
        readPattern d = .some ((f + 149).toNat * 2 ^ 23 + m / 2)) := by
  obtain ⟨k, scale, lifted, positive, halfEq, number⟩ := exists_lift fits
  have midpoint : (m : ℝ) * half f = m * 2 ^ (f - 1) * scale := by
    rw [halfEq]
    ring
  have inside : d.digits * 10 ^ k ≤ limit f := le_limit least most positive halfEq number within
  rcases midpoint_cases least most (by positivity) inside odd small full with
    exact | far | ⟨above, read⟩ | ⟨below, read⟩
  · left
    have exact' : ((d.digits * 10 ^ k : ℕ) : ℝ) * step f = m * half f := by exact_mod_cast exact
    rw [number, midpoint] at exact'
    exact mul_right_cancel₀ positive.ne' exact'
  · have far' : (half f : ℝ) ≤
        |((d.digits * 10 ^ k : ℕ) : ℝ) * step f - m * half f| * 2 ^ 26 := by exact_mod_cast far
    rw [number, midpoint, ← sub_mul, abs_mul, abs_of_pos positive, halfEq] at far'
    refine Or.inr (Or.inl (le_of_mul_le_mul_right ?_ (mul_pos (pow_pos two_pos 26) positive)))
    rw [← mul_assoc, ← half_place]
    linarith
  · refine Or.inr (Or.inr (Or.inl ⟨?_, ?_⟩))
    · have above' : (m : ℝ) * half f < ((d.digits * 10 ^ k : ℕ) : ℝ) * step f := by
        exact_mod_cast above
      rw [number, midpoint] at above'
      exact lt_of_mul_lt_mul_right above' positive.le
    · rwa [point_lifted some last lifted] at read
  · refine Or.inr (Or.inr (Or.inr ⟨?_, ?_⟩))
    · have below' : ((d.digits * 10 ^ k : ℕ) : ℝ) * step f < m * half f := by
        exact_mod_cast below
      rw [number, midpoint] at below'
      exact lt_of_mul_lt_mul_right below' positive.le
    · rwa [point_lifted some last lifted] at read

/-- Below the grid a decimal that is near its value is further from the midpoint than reading can
err. -/
theorem far_of_fine {d : Decimal} {v a : ℝ} (fine : d.exponent < grid f)
    (near : |d.number - v| ≤ 10 ^ d.exponent) (apart : |v - a| = 2 ^ (f - 1)) :
    2 ^ (f - 27) ≤ |d.number - a| := by
  obtain ⟨scale, positive, stepEq, halfEq⟩ := exists_scale f
  have coarse : (5 * step f : ℝ) ≤ 49 * half f := by exact_mod_cast (coarse least most).2
  have power : (10 : ℝ) ^ d.exponent ≤ 10 ^ (grid f - 1) :=
    zpow_le_zpow_right₀ (by norm_num) (by omega)
  have less : (10 : ℝ) ^ (grid f - 1) ≤ 49 / 50 * 2 ^ (f - 1) := by
    rw [zpow_sub_one₀ (by norm_num)]
    refine le_of_mul_le_mul_right ?_ positive
    rw [stepEq, halfEq] at coarse
    linarith
  have whole := half_place f
  have unit : (0 : ℝ) < 2 ^ (f - 27) := by positivity
  have triangle := abs_sub_abs_le_abs_sub (v - a) (v - d.number)
  have turned : v - a - (v - d.number) = d.number - a := by ring
  rw [turned, apart, abs_sub_comm v] at triangle
  linarith

end Certified

end RealtimeAudio.Json.Midpoint
