import RealtimeAudio.Proofs.Json.Midpoint
import RealtimeAudio.Proofs.Single.Narrowing

/-! The shortest decimal of a binary32 value is read as that value, although it is read in binary64
and rounded once more. -/
namespace RealtimeAudio.Json
open Binary Double Midpoint
open Float.Model (Format UnpackedFloat)
open Float.Model.UnpackedFloat

/-- What a number is read as, up to its sign: a binary64 number that becomes `m * 2 ^ e` in
binary32. -/
def Narrows (x : Float) (m : ℕ) (e : ℤ) : Prop :=
  ∃ n g hn, x.toModel.unpack = .finite .positive n g hn ∧
    BinaryFormat.single.nearest false n g = placed .binary32 m e

theorem pow_five_le {n p c : ℕ} (some : 0 < n) (divides : 5 ^ p ∣ n * 2 ^ c) : 5 ^ p ≤ n :=
  Nat.le_of_dvd some ((Nat.Coprime.pow p c (by norm_num)).dvd_of_dvd_mul_right divides)

/-- A decimal that is a short multiple of a power of two has a small exponent. -/
theorem natAbs_le_of_dyadic {d : Decimal} {m : ℕ} {k : ℤ} (some : 0 < d.digits)
    (few : d.digits ≤ 10 ^ 9) (positive : 0 < m) (small : m < 2 ^ 25)
    (same : d.number = m * 2 ^ k) : d.exponent.natAbs ≤ 22 := by
  have two := RoundingInterval.toNat_power (two_ne_zero : (2 : ℝ) ≠ 0) k
  have ten := RoundingInterval.toNat_power (by norm_num : (10 : ℝ) ≠ 0) d.exponent
  have cleared : d.digits * 10 ^ d.exponent.toNat * 2 ^ (-k).toNat =
      m * 2 ^ k.toNat * 10 ^ (-d.exponent).toNat := by
    rw [← Nat.cast_inj (R := ℝ)]
    push_cast
    rw [two, ten]
    rw [Decimal.number] at same
    linear_combination (10 : ℝ) ^ (-d.exponent).toNat * 2 ^ (-k).toNat * same
  have factor (p : ℕ) : 10 ^ p = 5 ^ p * 2 ^ p := Nat.mul_pow 5 2 p
  rcases Int.le_total 0 d.exponent with up | down
  · have none : (-d.exponent).toNat = 0 := by omega
    rw [none, pow_zero, mul_one, factor] at cleared
    have least : 5 ^ d.exponent.toNat ≤ m := by
      refine pow_five_le (c := k.toNat) positive ⟨d.digits * 2 ^ d.exponent.toNat * 2 ^ (-k).toNat, ?_⟩
      rw [← cleared]
      ring
    have bound : d.exponent.toNat < 11 :=
      (Nat.pow_lt_pow_iff_right (by norm_num)).mp
        (least.trans_lt (small.trans_le (by norm_num : 2 ^ 25 ≤ 5 ^ 11)))
    omega
  · have none : d.exponent.toNat = 0 := by omega
    rw [none, pow_zero, mul_one, factor] at cleared
    have least : 5 ^ (-d.exponent).toNat ≤ d.digits := by
      refine pow_five_le (c := (-k).toNat) some ⟨m * 2 ^ k.toNat * 2 ^ (-d.exponent).toNat, ?_⟩
      rw [cleared]
      ring
    have bound : (-d.exponent).toNat < 13 :=
      (Nat.pow_lt_pow_iff_right (by norm_num)).mp
        (least.trans_lt (few.trans_lt (by norm_num : 10 ^ 9 < 5 ^ 13)))
    omega

theorem placed_eq (m : ℕ) (e : ℤ) : placed .binary32 m e = (e + 149).toNat * 2 ^ 23 + m := by
  change (e - -149).toNat * 2 ^ 23 + m = _
  rw [sub_neg_eq_add]

/-- What reading may make of a decimal. -/
structure Reads (d : Decimal) (r : ℝ) : Prop where
  near : |r - d.number| ≤ d.number / 2 ^ 51
  exact : d.exponent.natAbs ≤ 22 → r = Binary.round .binary64 d.number

namespace Reads
variable {d : Decimal} {r : ℝ} {m : ℕ} {f : ℤ}

/-- A midpoint is read as it is. -/
theorem eq_midpoint (reads : Reads d r) (some : 0 < d.digits) (few : d.digits ≤ 10 ^ 9)
    (positive : 0 < m) (small : m < 2 ^ 25) (least : -149 ≤ f) (same : d.number = m * 2 ^ (f - 1)) :
    r = m * 2 ^ (f - 1) := by
  rw [reads.exact (natAbs_le_of_dyadic some few positive small same), same]
  refine round_of_lt (small.trans ?_) ?_
  · rw [places_eq]
    norm_num
  · rw [Double.minExponent_eq]
    omega

/-- Reading does not reach a midpoint that the decimal is far from. -/
theorem side {a : ℝ} (reads : Reads d r) (below : d.number < 2 ^ (f + 24))
    (far : 2 ^ (f - 27) ≤ |d.number - a|) : (d.number ≤ a → r < a) ∧ (a ≤ d.number → a < r) := by
  have near := abs_le.mp reads.near
  have whole : (2 : ℝ) ^ (f + 24) = 2 ^ (f - 27) * 2 ^ 51 := by
    rw [← zpow_natCast, ← zpow_add₀ two_ne_zero]
    congr 1
    ring
  have error : d.number / 2 ^ 51 < 2 ^ (f - 27) := by rwa [div_lt_iff₀ (by positivity), ← whole]
  constructor
  · intro less
    rw [abs_of_nonpos (by linarith)] at far
    linarith
  · intro more
    rw [abs_of_nonneg (by linarith)] at far
    linarith

end Reads

/-- The midpoint below a value: below a power of two it is one of the binade below. -/
theorem exists_midpoint_below {m : ℕ} {e : ℤ} (positive : 0 < m) (bits : m < 2 ^ 24)
    (least : -149 ≤ e) (most : e ≤ 104) (full : e = -149 ∨ 2 ^ 23 ≤ m) :
    ∃ (f : ℤ) (k : ℕ), -149 ≤ f ∧ f ≤ 104 ∧ k % 2 = 1 ∧ k < 2 ^ 25 ∧ (f = -149 ∨ 2 ^ 24 < k) ∧
      lower .binary32 m e = k * 2 ^ (f - 1) ∧ (m * 2 ^ e : ℝ) - k * 2 ^ (f - 1) = 2 ^ (f - 1) ∧
      (m * 2 ^ e : ℝ) ≤ 2 ^ (f + 24) ∧
      placed .binary32 m e = (f + 149).toNat * 2 ^ 23 + (k + 1) / 2 := by
  by_cases turn : m = 2 ^ 23 ∧ -149 < e
  · obtain ⟨rfl, normal⟩ := turn
    have quarter : reach .binary32 (2 ^ 23) e = 1 := if_pos ⟨rfl, normal⟩
    have parts : e - 1 + 24 = 23 + e := by ring
    have double : e - 1 - 1 = e - 2 := by ring
    have unit : (2 : ℝ) ^ e = 2 ^ (e - 2) * 4 := by
      rw [zpow_sub₀ two_ne_zero]
      norm_num
    refine ⟨e - 1, 2 ^ 25 - 1, by omega, by omega, by norm_num, by norm_num, by norm_num,
      ?_, ?_, ?_, ?_⟩
    · rw [lower, quarter, double]
      norm_num
    · rw [double, unit]
      norm_num
      ring
    · rw [parts, zpow_add₀ two_ne_zero]
      norm_num
    · rw [placed_eq]
      omega
  · have whole : reach .binary32 m e = 2 := if_neg turn
    have odd : ((2 * m - 1 : ℕ) : ℝ) = 2 * m - 1 := by
      rw [Nat.cast_sub (by omega)]
      push_cast
      ring
    refine ⟨e, 2 * m - 1, least, most, by omega, by omega, by omega, ?_, ?_, ?_, ?_⟩
    · rw [lower_eq, whole, odd, zpow_sub_one₀ two_ne_zero]
      push_cast
      ring
    · rw [odd, zpow_sub_one₀ two_ne_zero]
      ring
    · have cast : (m : ℝ) ≤ 2 ^ (24 : ℤ) := by exact_mod_cast bits.le
      rw [add_comm e, zpow_add₀ two_ne_zero]
      gcongr
    · rw [placed_eq]
      omega

section Sides
variable {d : Decimal} {m : ℕ} {e : ℤ} {r : ℝ} (short : d.Shortens m e) (reads : Reads d r)
include short reads

/-- At a midpoint half a place from the value, reading keeps the side of the decimal, unless the
decimal is read as the value on that side. -/
theorem midpoint_side {f : ℤ} {k : ℕ} (least : -149 ≤ f) (most : f ≤ 104) (odd : k % 2 = 1)
    (small : k < 2 ^ 25) (full : f = -149 ∨ 2 ^ 24 < k) (below : d.number < 2 ^ (f + 24))
    (apart : |(m * 2 ^ e : ℝ) - k * 2 ^ (f - 1)| = 2 ^ (f - 1)) :
    (d.number = k * 2 ^ (f - 1) ∧ r = k * 2 ^ (f - 1)) ∨
      ((d.number ≤ k * 2 ^ (f - 1) → r < k * 2 ^ (f - 1)) ∧
        (k * 2 ^ (f - 1) ≤ d.number → k * 2 ^ (f - 1) < r)) ∨
      (k * 2 ^ (f - 1) < d.number ∧
        readPattern d = some ((f + 149).toNat * 2 ^ 23 + (k + 1) / 2)) ∨
      (d.number < k * 2 ^ (f - 1) ∧
        readPattern d = some ((f + 149).toNat * 2 ^ 23 + k / 2)) := by
  by_cases fits : grid f ≤ d.exponent
  · rcases number_cases least most short.some short.last fits below.le odd small full
      with same | far | read | read
    · exact Or.inl ⟨same, reads.eq_midpoint short.some short.few (by omega) small least same⟩
    · exact Or.inr (Or.inl (reads.side below far))
    · exact Or.inr (Or.inr (Or.inl read))
    · exact Or.inr (Or.inr (Or.inr read))
  · have far := far_of_fine least most (not_le.mp fits) short.near apart
    exact Or.inr (Or.inl (reads.side below far))

variable (positive : 0 < m) (bits : m < 2 ^ 24) (least : -149 ≤ e) (most : e ≤ 104)
  (full : e = -149 ∨ 2 ^ 23 ≤ m)
include positive bits least most full

theorem upper_side : (r < upper m e ∨ r = upper m e ∧ m % 2 = 0) ∨
    readPattern d = some (placed .binary32 m e) := by
  have midpoint : upper m e = (2 * m + 1 : ℕ) * 2 ^ (e - 1) := by
    rw [upper_eq, zpow_sub_one₀ two_ne_zero]
    push_cast
    ring
  have apart : (m * 2 ^ e : ℝ) - (2 * m + 1 : ℕ) * 2 ^ (e - 1) = -2 ^ (e - 1) := by
    rw [zpow_sub_one₀ two_ne_zero]
    push_cast
    ring
  have small : 2 * m + 1 < 2 ^ 25 := by omega
  have high := short.between.2
  rw [midpoint] at high ⊢
  have most' : d.number ≤ (2 * m + 1 : ℕ) * 2 ^ (e - 1) := high.elim le_of_lt fun tie => tie.1.le
  have below : d.number < 2 ^ (e + 24) := by
    have cast : ((2 * m + 1 : ℕ) : ℝ) < 2 ^ 25 := by exact_mod_cast small
    have parts : e + 24 = 25 + (e - 1) := by ring
    calc
      d.number ≤ (2 * m + 1 : ℕ) * 2 ^ (e - 1) := most'
      _ < 2 ^ 25 * 2 ^ (e - 1) := by gcongr
      _ = 2 ^ (e + 24) := by
        rw [parts, zpow_add₀ two_ne_zero]
        norm_num
  rcases midpoint_side short reads least most (by omega) small (by omega) below
      (by rw [apart, abs_neg, abs_of_pos (by positivity)])
    with ⟨same, read⟩ | side | ⟨above, -⟩ | ⟨-, read⟩
  · have even := high.resolve_left same.not_lt
    exact Or.inl (Or.inr ⟨read, even.2⟩)
  · exact Or.inl (Or.inl (side.1 most'))
  · exact absurd most' above.not_ge
  · right
    rw [read, placed_eq]
    congr 2
    omega

theorem lower_side : (lower .binary32 m e < r ∨ lower .binary32 m e = r ∧ m % 2 = 0) ∨
    readPattern d = some (placed .binary32 m e) := by
  obtain ⟨f, k, least', most', odd, small, full', midpoint, apart, top, place⟩ :=
    exists_midpoint_below positive bits least most full
  have low := short.between.1
  rw [midpoint] at low ⊢
  have above : k * 2 ^ (f - 1) ≤ d.number := low.elim le_of_lt fun tie => tie.1.le
  by_cases below : d.number < m * 2 ^ e
  · rcases midpoint_side short reads least' most' odd small full' (below.trans_le top)
        (by rw [apart, abs_of_pos (by positivity)])
      with ⟨same, read⟩ | side | ⟨-, read⟩ | ⟨under, -⟩
    · have even := low.resolve_left same.not_gt
      exact Or.inl (Or.inr ⟨read.symm, even.2⟩)
    · exact Or.inl (Or.inl (side.2 above))
    · right
      rw [read, place]
    · exact absurd above under.not_ge
  · have near := abs_le.mp reads.near
    have whole : (2 : ℝ) ^ (f + 24) = 2 ^ (f - 1) * 2 ^ 25 := by
      rw [← zpow_natCast, ← zpow_add₀ two_ne_zero]
      congr 1
      ring
    have unit : (0 : ℝ) < 2 ^ (f - 1) := by positivity
    left; left
    linarith

end Sides

section Narrows
variable {d : Decimal} {x : Float} {r : ℝ} {m : ℕ} {e : ℤ}

theorem narrows_of_pattern (stands : Stands x r)
    (reads : Significand.toDouble? ⟨d.digits, d.exponent⟩ = .some x)
    (pattern : readPattern d = .some (placed .binary32 m e)) : Narrows x m e := by
  obtain ⟨n, g, positive, value, -⟩ := stands
  refine ⟨n, g, positive, value, ?_⟩
  let bits : BitVec Format.binary64.numBits := x.toBits.toBitVec
  have decodes : BinaryFormat.double.decode x.toBits.toNat = .finite false n g :=
    (decode_toNat bits).trans (congrArg (decoded .binary64) value)
  rw [readPattern, reads, Option.map_some, BinaryFormat.convert, decodes] at pattern
  exact Option.some.inj pattern

variable {s : Sign} {some : 0 < m} (canonical : Storable .binary32 (.finite s m e some))
include canonical

theorem narrows_of_between (stands : Stands x r) (between : Between .binary32 m e r) :
    Narrows x m e := by
  obtain ⟨n, g, positive, value, rfl⟩ := stands
  have rounds := between.round_eq some canonical.1 canonical.2.1 canonical.2.2.1
  exact ⟨n, g, positive, value, Single.nearest_of_round positive canonical rounds⟩

/-- The digits of a shortest decimal and its exponent are read as the value. -/
theorem toDouble?_shortens (short : d.Shortens m e) :
    ∃ x, Significand.toDouble? ⟨d.digits, d.exponent⟩ = .some x ∧ Narrows x m e := by
  have ⟨bits, least, full, most⟩ := canonical
  have few := short.few
  have reach := short.reach
  obtain ⟨x, r, reads, stands, near, exact⟩ :=
    Significand.toDouble?_spec short.some (by omega : d.digits < 2 ^ 53)
      (reach.trans (by norm_num))
  refine ⟨x, reads, ?_⟩
  rcases upper_side short ⟨near, exact⟩ some bits least most full with high | pattern
  · rcases lower_side short ⟨near, exact⟩ some bits least most full with low | pattern
    · exact narrows_of_between canonical stands ⟨low, high⟩
    · exact narrows_of_pattern stands reads pattern
  · exact narrows_of_pattern stands reads pattern

/-- So is a short whole number that ends in `.0`. -/
theorem toDouble?_shortens_whole {k : ℕ} (short : d.Shortens m e) (whole : d.exponent = k)
    (few : d.digits * 10 ^ (k + 1) < 2 ^ 53) :
    ∃ x, Significand.toDouble? ⟨d.digits * 10 ^ (k + 1), -1⟩ = .some x ∧ Narrows x m e := by
  have positive : 0 < d.digits * 10 ^ (k + 1) := Nat.mul_pos short.some (by positivity)
  obtain ⟨x, r, reads, stands, -, exact⟩ :=
    Significand.toDouble?_spec positive few (by norm_num : (-1 : ℤ).natAbs ≤ 60)
  have number : ((d.digits * 10 ^ (k + 1) : ℕ) : ℝ) * 10 ^ (-1 : ℤ) = (d.digits * 10 ^ k : ℕ) := by
    push_cast
    rw [pow_succ, zpow_neg_one]
    field_simp
  have small : d.digits * 10 ^ k < 2 ^ (places .binary64 + 1) := by
    refine lt_of_le_of_lt ?_ few
    exact Nat.mul_le_mul_left _ (Nat.pow_le_pow_right (by norm_num) (Nat.le_succ k))
  have same : r = d.number := by
    have kept := round_of_lt (e := 0) small (by decide)
    rw [zpow_zero, mul_one] at kept
    rw [exact (by norm_num), number, kept, Decimal.number, whole, zpow_natCast]
    push_cast
    rfl
  rw [same] at stands
  exact ⟨x, reads, narrows_of_between canonical stands short.between⟩

end Narrows

end RealtimeAudio.Json
