import RealtimeAudio.Decimal.Shortest
import RealtimeAudio.Proofs.Binary.Interval

/-! The shortest decimal of a binary32 value. A grid of nine digits is finer than the interval of
numbers that round to the value, so the search ends there at the latest, with a neighbour of the
value on its grid that lies in the interval. -/
namespace RealtimeAudio
open Binary
open Float.Model (Format)

namespace Decimal

/-- The number that a decimal writes. -/
noncomputable def number (d : Decimal) : ℝ := d.digits * 10 ^ d.exponent

theorem number_strip (fuel : ℕ) (d : Decimal) : (strip fuel d).number = d.number := by
  induction fuel generalizing d with
  | zero => rfl
  | succ fuel ih =>
    unfold strip
    split
    · rename_i last
      rw [ih]
      have parts : d.digits = 10 * (d.digits / 10) := by omega
      conv_rhs => rw [number, parts]
      rw [number, zpow_add_one₀ (by norm_num)]
      push_cast
      ring
    · rfl

/-- Stripping goes on to the last digit that is not zero. -/
theorem strip_spec {fuel : ℕ} {d : Decimal} (some : 0 < d.digits) (few : d.digits < 10 ^ fuel) :
    0 < (strip fuel d).digits ∧ (strip fuel d).digits ≤ d.digits ∧
      (strip fuel d).digits % 10 ≠ 0 ∧ d.exponent ≤ (strip fuel d).exponent := by
  induction fuel generalizing d with
  | zero => omega
  | succ fuel ih =>
    rw [pow_succ] at few
    unfold strip
    split
    · obtain ⟨positive, less, last, more⟩ :=
        ih (d := ⟨d.digits / 10, d.exponent + 1⟩) (by dsimp only; omega) (by dsimp only; omega)
      dsimp only at less more
      exact ⟨positive, by omega, last, by omega⟩
    · exact ⟨some, le_rfl, by omega, le_rfl⟩

/-- Stripping undoes the lift to a finer grid. -/
theorem strip_lifted {d : Decimal} (some : 0 < d.digits) (last : d.digits % 10 ≠ 0) {fuel k : ℕ}
    (enough : k ≤ fuel) : strip fuel ⟨d.digits * 10 ^ k, d.exponent - k⟩ = d := by
  induction k generalizing fuel with
  | zero =>
    rw [pow_zero, mul_one, Nat.cast_zero, sub_zero]
    cases fuel with
    | zero => rfl
    | succ fuel => rw [strip, if_neg (by simp [last])]
  | succ k ih =>
    obtain ⟨fuel, rfl⟩ := Nat.exists_eq_succ_of_ne_zero (by omega : fuel ≠ 0)
    have positive : 0 < d.digits * 10 ^ (k + 1) := by positivity
    have tenfold : d.digits * 10 ^ (k + 1) = d.digits * 10 ^ k * 10 := by ring
    have exponent : d.exponent - (k + 1 : ℕ) + 1 = d.exponent - k := by
      push_cast
      ring
    rw [strip, if_pos ⟨positive.ne', by rw [tenfold, Nat.mul_mod_left]⟩]
    dsimp only
    rw [tenfold, Nat.mul_div_cancel _ (by norm_num), exponent]
    exact ih (by omega)

theorem digitCount_spec {n : ℕ} (some : 0 < n) :
    0 < digitCount n ∧ 10 ^ (digitCount n - 1) ≤ n ∧ n < 10 ^ digitCount n := by
  have positive : 0 < digitCount n := Nat.length_toDigits_pos
  have bound {k : ℕ} (other : 0 < k) : digitCount n ≤ k ↔ n < 10 ^ k :=
    Nat.length_toDigits_le_iff (by norm_num) other
  refine ⟨positive, ?_, (bound positive).mp le_rfl⟩
  by_contra less
  rcases Nat.eq_zero_or_pos (digitCount n - 1) with one | more
  · rw [one] at less
    omega
  · have := (bound more).mpr (not_le.mp less)
    omega

end Decimal

namespace RoundingInterval
variable {i : RoundingInterval}

theorem floor_spec (a : ℕ) {b : ℕ} (some : 0 < b) :
    ((a / b : ℕ) : ℝ) ≤ a / b ∧ (a / b : ℝ) < (a / b : ℕ) + 1 := by
  have nonneg : (0 : ℝ) ≤ a / b := by positivity
  rw [← Nat.floor_div_eq_div (K := ℝ) a b]
  exact ⟨Nat.floor_le nonneg, Nat.lt_floor_add_one _⟩

theorem cast_pow_ten (k : ℕ) : ((Nat.pow 10 k : ℕ) : ℝ) = 10 ^ (k : ℤ) := by
  change ((10 ^ k : ℕ) : ℝ) = 10 ^ (k : ℤ)
  rw [Nat.cast_pow, zpow_natCast, Nat.cast_ofNat]

/-- The digits of a quotient, lifted above 1, tell its leading exponent. -/
theorem digitCount_lifted {a b : ℕ} (k : ℕ) (unit : 0 < b)
    (large : (1 : ℝ) ≤ a / b * 10 ^ (k : ℤ)) :
    (10 : ℝ) ^ ((Decimal.digitCount (a * Nat.pow 10 k / b) : ℤ) - (k + 1)) ≤ a / b ∧
      (a / b : ℝ) < 10 ^ ((Decimal.digitCount (a * Nat.pow 10 k / b) : ℤ) - (k + 1) + 1) := by
  have scale : (0 : ℝ) < 10 ^ (k : ℤ) := by positivity
  have divisor : (0 : ℝ) < b := by exact_mod_cast unit
  have scaled : ((a * Nat.pow 10 k : ℕ) : ℝ) / b = a / b * 10 ^ (k : ℤ) := by
    rw [Nat.cast_mul, cast_pow_ten, mul_div_right_comm]
  have some : 0 < a * Nat.pow 10 k / b := by
    rw [← scaled, one_le_div divisor] at large
    exact Nat.div_pos (by exact_mod_cast large) unit
  obtain ⟨positive, low, high⟩ := Decimal.digitCount_spec some
  obtain ⟨floor, ceiling⟩ := floor_spec (a * Nat.pow 10 k) unit
  rw [scaled] at floor ceiling
  generalize Decimal.digitCount (a * Nat.pow 10 k / b) = count at *
  generalize a * Nat.pow 10 k / b = n at *
  have bottom : (10 : ℝ) ^ ((count : ℤ) - 1) ≤ n := by
    have exponent : (count : ℤ) - 1 = ((count - 1 : ℕ) : ℤ) := by omega
    rw [exponent, zpow_natCast]
    exact_mod_cast low
  have top : (n : ℝ) + 1 ≤ 10 ^ (count : ℤ) := by
    rw [zpow_natCast]
    exact_mod_cast high
  constructor
  · refine le_of_mul_le_mul_right ?_ scale
    have exponent : (count : ℤ) - (k + 1) + k = count - 1 := by ring
    rw [← zpow_add₀ (by norm_num), exponent]
    exact bottom.trans floor
  · refine lt_of_mul_lt_mul_right ?_ scale.le
    have exponent : (count : ℤ) - (k + 1) + 1 + k = count := by ring
    rw [← zpow_add₀ (by norm_num), exponent]
    exact ceiling.trans_le top

/-- The leading exponent is that of the value. -/
theorem leading_spec (unit : 0 < i.unit)
    (large : (1 : ℝ) ≤ i.value / i.unit * 10 ^ (400 : ℤ)) :
    (10 : ℝ) ^ i.leading ≤ i.value / i.unit ∧ (i.value / i.unit : ℝ) < 10 ^ (i.leading + 1) := by
  have lifted : (400 : ℤ) = (400 : ℕ) := rfl
  have counted : (401 : ℤ) = (400 : ℕ) + 1 := rfl
  rw [lifted] at large
  rw [leading, counted]
  -- The scale is too large to be worked out, as comparing it with itself would do.
  generalize 400 = k at large ⊢
  exact digitCount_lifted k unit large

/-- The numbers of an interval in its own unit. -/
theorem nearestWhole?_spec {tie : Tie} {n : ℕ} (found : i.nearestWhole? tie = some n) :
    (n = i.value / i.unit ∨ n = i.value / i.unit + 1) ∧ i.contains (n * i.unit) = true := by
  unfold nearestWhole? at found
  dsimp only at found
  split at found
  · rename_i lower
    obtain rfl := Option.some.inj found
    rw [Bool.and_eq_true] at lower
    exact ⟨Or.inl rfl, lower.1⟩
  · split at found
    · rename_i upper
      obtain rfl := Option.some.inj found
      exact ⟨Or.inr rfl, upper⟩
    · cases found

theorem nearestWhole?_isSome {tie : Tie}
    (lower : i.contains (i.value / i.unit * i.unit) = true) : (i.nearestWhole? tie).isSome := by
  unfold nearestWhole?
  dsimp only
  rw [lower, Bool.true_and]
  split
  · rfl
  · rename_i other
    have upper : i.contains ((i.value / i.unit + 1) * i.unit) = true := by
      by_contra without
      simp [without] at other
    rw [if_pos upper]
    rfl

/-- The search ends on a grid that has a neighbour of the value in the interval, and not after the
first such grid. -/
theorem search_spec {tie : Tie} (grids : ℕ) {used more : ℕ} (few : more < grids)
    (last : ((i.rescale (i.leading - (used + more : ℕ))).nearestWhole? tie).isSome) :
    ∃ reached ≤ used + more, ∃ n, (i.rescale (i.leading - reached)).nearestWhole? tie = some n ∧
      i.search tie grids used = Decimal.strip (reached + 2) ⟨n, i.leading - reached⟩ := by
  induction grids generalizing used more with
  | zero => cases few
  | succ grids ih =>
    unfold search
    dsimp only
    cases found : (i.rescale (i.leading - used)).nearestWhole? tie with
    | some n => exact ⟨used, Nat.le_add_right _ _, n, found, rfl⟩
    | none =>
      cases more with
      | zero =>
        rw [Nat.add_zero, found] at last
        cases last
      | succ more =>
        have next : used + (more + 1) = used + 1 + more := by omega
        rw [next] at last ⊢
        exact ih (Nat.lt_of_succ_lt_succ few) last

section Single
variable {m : ℕ} {e : ℤ}

theorem toNat_power {b : ℝ} (some : b ≠ 0) (k : ℤ) : b ^ k.toNat = b ^ k * b ^ (-k).toNat := by
  rcases le_total 0 k with up | down
  · have none : (-k).toNat = 0 := by omega
    have whole : ((k.toNat : ℕ) : ℤ) = k := by omega
    rw [none, pow_zero, mul_one, ← zpow_natCast, whole]
  · have none : k.toNat = 0 := by omega
    have whole : (((-k).toNat : ℕ) : ℤ) = -k := by omega
    rw [none, pow_zero, ← zpow_natCast, whole, ← zpow_add₀ some, add_neg_cancel, zpow_zero]

/-- Whole numbers keep the proportions of the real numbers that they stand for. -/
theorem exists_scale (e g : ℤ) : ∃ scale : ℝ, 0 < scale ∧
    (∀ k : ℕ, ((k * Nat.pow 2 (e - 2).toNat * Nat.pow 10 (-g).toNat : ℕ) : ℝ) =
      k * 2 ^ (e - 2) * scale) ∧
    ((Nat.pow 2 (2 - e).toNat * Nat.pow 10 g.toNat : ℕ) : ℝ) = 10 ^ g * scale := by
  have turned : -(e - 2) = 2 - e := by ring
  have two := toNat_power (two_ne_zero : (2 : ℝ) ≠ 0) (e - 2)
  have ten := toNat_power (by norm_num : (10 : ℝ) ≠ 0) g
  rw [turned] at two
  refine ⟨2 ^ (2 - e).toNat * 10 ^ (-g).toNat, by positivity, fun k => ?_, ?_⟩
  · change ((k * 2 ^ (e - 2).toNat * 10 ^ (-g).toNat : ℕ) : ℝ) = _
    push_cast
    rw [two]
    ring
  · change ((2 ^ (2 - e).toNat * 10 ^ g.toNat : ℕ) : ℝ) = _
    push_cast
    rw [ten]
    ring

theorem quarter_place (e : ℤ) : (2 : ℝ) ^ e = 2 ^ (e - 2) * 4 := by
  rw [zpow_sub₀ two_ne_zero]
  norm_num

/-- A grid in units of the interval: its ends are those of the numbers that round to the value. -/
theorem rescale_spec (some : 0 < m) (g : ℤ) : ∃ scale : ℝ, 0 < scale ∧
    let i := (ofBinary .single m e).rescale g
    i.low = lower .binary32 m e * scale ∧ i.value = m * 2 ^ e * scale ∧
      i.high = upper m e * scale ∧ i.unit = 10 ^ g * scale ∧ i.closed = (m % 2 == 0 : Bool) := by
  obtain ⟨scale, positive, cast, unit⟩ := exists_scale e g
  refine ⟨scale, positive, ?_, ?_, ?_, unit, ?_⟩
  · have less : reach .binary32 m e ≤ 4 * m := by
      unfold reach
      split <;> omega
    have difference : ((4 * m - reach .binary32 m e : ℕ) : ℝ) = 4 * m - reach .binary32 m e := by
      rw [Nat.cast_sub less, Nat.cast_mul, Nat.cast_ofNat]
    rw [lower, ← difference]
    exact cast _
  · refine (cast _).trans ?_
    rw [quarter_place e]
    push_cast
    ring
  · refine (cast _).trans ?_
    rw [upper]
    push_cast
    ring
  · rfl

/-- The interval holds the numbers of the grid that round to the value. -/
theorem contains_iff (some : 0 < m) (g : ℤ) (n : ℕ) :
    ((ofBinary .single m e).rescale g).contains (n * ((ofBinary .single m e).rescale g).unit) = true ↔
      Between .binary32 m e (n * 10 ^ g) := by
  obtain ⟨scale, positive, low, -, high, unit, closed⟩ := rescale_spec (e := e) some g
  generalize (ofBinary .single m e).rescale g = i at *
  have cast : ((n * i.unit : ℕ) : ℝ) = n * 10 ^ g * scale := by
    rw [Nat.cast_mul, unit]
    ring
  have above : i.low < n * i.unit ↔ lower .binary32 m e < n * 10 ^ g := by
    rw [← Nat.cast_lt (α := ℝ), cast, low, mul_lt_mul_iff_left₀ positive]
  have below : n * i.unit < i.high ↔ n * 10 ^ g < upper m e := by
    rw [← Nat.cast_lt (α := ℝ), cast, high, mul_lt_mul_iff_left₀ positive]
  have bottom : i.low = n * i.unit ↔ lower .binary32 m e = n * 10 ^ g := by
    rw [← Nat.cast_inj (R := ℝ), cast, low, mul_left_inj' positive.ne']
  have top : n * i.unit = i.high ↔ n * 10 ^ g = upper m e := by
    rw [← Nat.cast_inj (R := ℝ), cast, high, mul_left_inj' positive.ne']
  unfold contains Between
  rw [closed, ← above, ← below, ← bottom, ← top]
  rcases Nat.mod_two_eq_zero_or_one m with even | odd
  · simp [even, le_iff_lt_or_eq]
  · simp [odd]

theorem ratio_eq (some : 0 < m) (g : ℤ) :
    let i := (ofBinary .single m e).rescale g
    0 < i.unit ∧ (i.value : ℝ) / i.unit = m * 2 ^ e / 10 ^ g := by
  obtain ⟨scale, positive, -, value, -, unit, -⟩ := rescale_spec (e := e) some g
  constructor
  · rw [← Nat.cast_pos (α := ℝ), unit]
    positivity
  · rw [value, unit, mul_div_mul_right _ _ positive.ne']

/-- Where the grid is finer than a quarter of the last place, the neighbour below is near enough. -/
theorem contains_floor (some : 0 < m) {g : ℤ} (fine : (10 : ℝ) ^ g < 2 ^ (e - 2)) :
    let i := (ofBinary .single m e).rescale g
    i.contains (i.value / i.unit * i.unit) = true := by
  dsimp only
  rw [contains_iff some]
  obtain ⟨divisor, ratio⟩ := ratio_eq (e := e) some g
  generalize (ofBinary .single m e).rescale g = i at *
  have step : (0 : ℝ) < 10 ^ g := by positivity
  obtain ⟨floor, ceiling⟩ := floor_spec i.value divisor
  rw [ratio] at floor ceiling
  rw [le_div_iff₀ step] at floor
  rw [div_lt_iff₀ step, add_mul, one_mul] at ceiling
  have quarter := quarter_place e
  have tiny : (0 : ℝ) < 2 ^ (e - 2) := by positivity
  have one : (1 : ℝ) ≤ reach .binary32 m e := by
    unfold reach
    split <;> norm_num
  constructor
  · left
    rw [lower]
    nlinarith
  · left
    rw [upper]
    nlinarith

/-- A neighbour that is found differs from the value by at most one step of the grid. -/
theorem neighbour_spec {tie : Tie} {g : ℤ} {n : ℕ} (positive : 0 < m)
    (found : ((ofBinary .single m e).rescale g).nearestWhole? tie = some n) :
    Between .binary32 m e (n * 10 ^ g) ∧ |(n * 10 ^ g : ℝ) - m * 2 ^ e| ≤ 10 ^ g ∧
      (m * 2 ^ e / 10 ^ g : ℝ) - 1 < n ∧ (n : ℝ) ≤ m * 2 ^ e / 10 ^ g + 1 := by
  obtain ⟨neighbour, inside⟩ := nearestWhole?_spec found
  rw [contains_iff positive] at inside
  obtain ⟨divisor, ratio⟩ := ratio_eq (e := e) positive g
  generalize (ofBinary .single m e).rescale g = i at *
  have step : (0 : ℝ) < 10 ^ g := by positivity
  obtain ⟨floor, ceiling⟩ := floor_spec i.value divisor
  rw [ratio] at floor ceiling
  have near : (m * 2 ^ e / 10 ^ g : ℝ) - 1 < n ∧ (n : ℝ) ≤ m * 2 ^ e / 10 ^ g + 1 := by
    rcases neighbour with rfl | rfl
    · constructor <;> linarith
    · push_cast
      constructor <;> linarith
  refine ⟨inside, ?_, near⟩
  have whole : (m * 2 ^ e : ℝ) = m * 2 ^ e / 10 ^ g * 10 ^ g := (div_mul_cancel₀ _ step.ne').symm
  rw [whole, ← sub_mul, abs_mul, abs_of_pos step]
  refine mul_le_of_le_one_left step.le ?_
  rw [abs_le]
  constructor <;> linarith

theorem leading_single (some : 0 < m) (least : -149 ≤ e) :
    (10 : ℝ) ^ (ofBinary .single m e).leading ≤ m * 2 ^ e ∧
      (m * 2 ^ e : ℝ) < 10 ^ ((ofBinary .single m e).leading + 1) := by
  obtain ⟨divisor, ratio⟩ := ratio_eq (e := e) some 0
  have unscaled : (ofBinary .single m e).rescale 0 = ofBinary .single m e := by
    unfold rescale
    simp
  rw [unscaled, zpow_zero, div_one] at ratio
  rw [unscaled] at divisor
  rw [← ratio]
  refine leading_spec divisor ?_
  rw [ratio]
  have one : (1 : ℝ) ≤ m := by exact_mod_cast some
  have small : (2 : ℝ) ^ (-149 : ℤ) ≤ 2 ^ e := zpow_le_zpow_right₀ one_le_two least
  calc
    (1 : ℝ) ≤ 1 * 2 ^ (-149 : ℤ) * 10 ^ (50 : ℤ) := by norm_num
    _ ≤ m * 2 ^ e * 10 ^ (400 : ℤ) := by
      gcongr
      · norm_num
      · norm_num

end Single

end RoundingInterval

namespace Decimal
open RoundingInterval

/-- A decimal of at most nine digits that stands for `m * 2 ^ e` in binary32. -/
structure Shortens (d : Decimal) (m : ℕ) (e : ℤ) : Prop where
  some : 0 < d.digits
  few : d.digits ≤ 10 ^ 9
  last : d.digits % 10 ≠ 0
  reach : d.exponent.natAbs ≤ 53
  between : Between .binary32 m e d.number
  near : |d.number - m * 2 ^ e| ≤ 10 ^ d.exponent

theorem lt_of_power_lt {a b : ℤ} (below : (10 : ℝ) ^ a < 10 ^ b) : a < b :=
  (zpow_lt_zpow_iff_right₀ (by norm_num)).mp below

theorem le_of_power_le {a b : ℤ} (below : (10 : ℝ) ^ a ≤ 10 ^ b) : a ≤ b :=
  (zpow_le_zpow_iff_right₀ (by norm_num)).mp below

theorem power_le_number {d : Decimal} (some : 0 < d.digits) : (10 : ℝ) ^ d.exponent ≤ d.number := by
  have one : (1 : ℝ) ≤ d.digits := by exact_mod_cast some
  exact le_mul_of_one_le_left (by positivity) one

/-- What the search takes from a grid of `reached + 1` digits. -/
theorem shortens_of_found {tie : Tie} {m : ℕ} {e leading : ℤ} {reached n : ℕ} (some : 0 < m)
    (low : (10 : ℝ) ^ leading ≤ m * 2 ^ e) (high : (m * 2 ^ e : ℝ) < 10 ^ (leading + 1))
    (least : -45 ≤ leading) (most : leading ≤ 38) (within : reached ≤ 8)
    (found : ((ofBinary .single m e).rescale (leading - reached)).nearestWhole? tie = .some n) :
    (strip (reached + 2) ⟨n, leading - reached⟩).Shortens m e := by
  obtain ⟨between, near, below, above⟩ := neighbour_spec some found
  have step : (0 : ℝ) < 10 ^ (leading - reached) := by positivity
  have bottom : ((10 ^ reached : ℕ) : ℝ) ≤ m * 2 ^ e / 10 ^ (leading - reached) := by
    rw [le_div_iff₀ step, Nat.cast_pow, Nat.cast_ofNat, ← zpow_natCast,
      ← zpow_add₀ (by norm_num), add_sub_cancel]
    exact low
  have top : (m * 2 ^ e / 10 ^ (leading - reached) : ℝ) < (10 ^ (reached + 1) : ℕ) := by
    rw [div_lt_iff₀ step, Nat.cast_pow, Nat.cast_ofNat, ← zpow_natCast, ← zpow_add₀ (by norm_num)]
    have exponent : ((reached + 1 : ℕ) : ℤ) + (leading - reached) = leading + 1 := by
      push_cast
      ring
    rw [exponent]
    exact high
  have positive : 0 < n := by
    have one : (1 : ℝ) ≤ (10 ^ reached : ℕ) := by exact_mod_cast Nat.one_le_pow' _ _
    have : (0 : ℝ) < n := by linarith
    exact_mod_cast this
  have small : n ≤ 10 ^ (reached + 1) := by
    have : (n : ℝ) < (10 ^ (reached + 1) + 1 : ℕ) := by
      push_cast at top ⊢
      linarith
    exact Nat.lt_succ_iff.mp (by exact_mod_cast this)
  have few : 10 ^ (reached + 1) ≤ 10 ^ 9 := Nat.pow_le_pow_right (by norm_num) (by omega)
  have fuel : n < 10 ^ (reached + 2) :=
    small.trans_lt (Nat.pow_lt_pow_right (by norm_num) (by omega))
  obtain ⟨some', digits, last, exponent⟩ := strip_spec (d := ⟨n, leading - reached⟩) positive fuel
  have number := number_strip (reached + 2) ⟨n, leading - reached⟩
  dsimp only at digits exponent
  generalize strip (reached + 2) ⟨n, leading - reached⟩ = d at *
  have same : d.number = n * 10 ^ (leading - reached) := number
  have whole : d.number ≤ 10 ^ (leading + 1) := by
    have parts : leading + 1 = ((reached + 1 : ℕ) : ℤ) + (leading - reached) := by
      push_cast
      ring
    rw [same, parts, zpow_add₀ (by norm_num), zpow_natCast]
    gcongr
    exact_mod_cast small
  have last' := le_of_power_le ((power_le_number some').trans whole)
  refine ⟨some', by omega, last, by omega, ?_, ?_⟩
  · rwa [same]
  · rw [same]
    exact near.trans (zpow_le_zpow_right₀ (by norm_num) exponent)

/-- Nine digits are enough. -/
theorem shortest_spec {tie : Tie} {m : ℕ} {e : ℤ} (some : 0 < m) (bits : m < 2 ^ 24)
    (least : -149 ≤ e) (most : e ≤ 104) : (shortest tie .single m e).Shortens m e := by
  obtain ⟨low, high⟩ := leading_single some least
  rw [shortest, if_neg some.ne']
  generalize same : (ofBinary .single m e).leading = leading at *
  have one : (1 : ℝ) ≤ m := by exact_mod_cast some
  have size : (m : ℝ) < 2 ^ 24 := by exact_mod_cast bits
  have scale : (0 : ℝ) < 2 ^ e := by positivity
  have bottom : -45 < leading + 1 := by
    refine lt_of_power_lt (lt_trans ?_ high)
    have tiny : (2 : ℝ) ^ (-149 : ℤ) ≤ 2 ^ e := zpow_le_zpow_right₀ one_le_two least
    calc
      (10 : ℝ) ^ (-45 : ℤ) < 1 * 2 ^ (-149 : ℤ) := by norm_num
      _ ≤ m * 2 ^ e := by gcongr
  have top : leading < 39 := by
    refine lt_of_power_lt (low.trans_lt ?_)
    have huge : (2 : ℝ) ^ e ≤ 2 ^ (104 : ℤ) := zpow_le_zpow_right₀ one_le_two most
    calc
      (m * 2 ^ e : ℝ) < 2 ^ 24 * 2 ^ e := mul_lt_mul_of_pos_right size scale
      _ ≤ 2 ^ 24 * 2 ^ (104 : ℤ) := mul_le_mul_of_nonneg_left huge (by positivity)
      _ < 10 ^ (39 : ℤ) := by norm_num
  have fine : (10 : ℝ) ^ (leading - (0 + 8 : ℕ)) < 2 ^ (e - 2) := by
    rw [zpow_sub₀ (by norm_num), zpow_sub₀ two_ne_zero, div_lt_iff₀ (by positivity)]
    calc
      (10 : ℝ) ^ leading < 2 ^ 24 * 2 ^ e := low.trans_lt (mul_lt_mul_of_pos_right size scale)
      _ ≤ 2 ^ e / 2 ^ (2 : ℤ) * 10 ^ ((0 + 8 : ℕ) : ℤ) := by
        norm_num
        linarith
  rw [← same] at fine
  obtain ⟨reached, within, n, found, result⟩ :=
    search_spec 17 (by norm_num) (nearestWhole?_isSome (contains_floor some fine))
  rw [same] at found result
  rw [result]
  exact shortens_of_found some low high (by omega) (by omega) (by omega) found

end Decimal

end RealtimeAudio
