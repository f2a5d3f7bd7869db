import RealtimeAudio.Binary.Format
import RealtimeAudio.Proofs.Binary.Significand

/-! Bit patterns as numbers. A pattern decodes to the value it is stored for, and the pattern of a
value is its significand, moved up by a field for each exponent above the least. The pattern
nearest to a number is that of the number rounded. -/
namespace RealtimeAudio.Binary
open Float.Model (Format UnpackedFloat)
open Float.Model.UnpackedFloat

section Pattern
variable (fmt : Format)

def pattern : BinaryFormat := ⟨places fmt, fmt.exponentBits⟩

def negative : Sign → Bool
  | .negative => true
  | .positive => false

def decoded : UnpackedFloat → BinaryValue
  | .notANumber => .undefined
  | .infinity s => .infinite (negative s)
  | .zero s => .finite (negative s) 0 fmt.minExponent
  | .finite s m e _ => .finite (negative s) m e

/-- A significand in place: each exponent above the least is worth a field of fraction bits. -/
def placed (m : ℕ) (e : ℤ) : ℕ := (e - fmt.minExponent).toNat * 2 ^ places fmt + m

end Pattern

variable {fmt : Format}

theorem lowestExponent_eq : (pattern fmt).lowestExponent = fmt.minExponent := by
  have mantissa := mantissaBits_eq fmt
  change 2 - ((2 ^ (fmt.exponentBits - 1) + places fmt : ℕ) : ℤ) =
    3 - 2 ^ (fmt.exponentBits - 1) - fmt.mantissaBits
  rw [mantissa]
  push_cast
  ring

theorem decode_def (bits : ℕ) :
    (pattern fmt).decode bits =
      if bits / 2 ^ places fmt % 2 ^ fmt.exponentBits = 2 ^ fmt.exponentBits - 1 then
        if bits % 2 ^ places fmt = 0 then
          .infinite (bits / 2 ^ (places fmt + fmt.exponentBits) % 2 == 1)
        else .undefined
      else if bits / 2 ^ places fmt % 2 ^ fmt.exponentBits = 0 then
        .finite (bits / 2 ^ (places fmt + fmt.exponentBits) % 2 == 1)
          (bits % 2 ^ places fmt) fmt.minExponent
      else .finite (bits / 2 ^ (places fmt + fmt.exponentBits) % 2 == 1)
        (2 ^ places fmt + bits % 2 ^ places fmt)
        (fmt.minExponent + (bits / 2 ^ places fmt % 2 ^ fmt.exponentBits - 1 : ℕ)) := by
  rw [BinaryFormat.decode, lowestExponent_eq]
  rfl

theorem toNat_mantissa (b : BitVec fmt.numBits) :
    (unpackMantissa b).toNat = b.toNat % 2 ^ places fmt := by
  rw [unpackMantissa_def, BitVec.extractLsb'_toNat, Nat.shiftRight_zero]
  rfl

theorem toNat_exponent (b : BitVec fmt.numBits) :
    (unpackExponent b).toNat = b.toNat / 2 ^ places fmt % 2 ^ fmt.exponentBits := by
  rw [unpackExponent_def, BitVec.extractLsb'_toNat, Nat.shiftRight_eq_div_pow]
  rfl

theorem toNat_sign (b : BitVec fmt.numBits) :
    (unpackSign b).toNat = b.toNat / 2 ^ (places fmt + fmt.exponentBits) % 2 := by
  rw [unpackSign_def, BitVec.extractLsb'_toNat, Nat.shiftRight_eq_div_pow]
  rfl

theorem negative_ofBitVec (v : BitVec 1) : negative (.ofBitVec v) = (v.toNat == 1) := by
  obtain rfl | rfl : v = 0#1 ∨ v = 1#1 := by
    have := v.isLt
    rcases (by omega : v.toNat = 0 ∨ v.toNat = 1) with zero | one
    · exact Or.inl (BitVec.eq_of_toNat_eq zero)
    · exact Or.inr (BitVec.eq_of_toNat_eq one)
  · rfl
  · rfl

theorem eq_iff_toNat {k : ℕ} (v w : BitVec k) : v = w ↔ v.toNat = w.toNat :=
  ⟨congrArg BitVec.toNat, BitVec.eq_of_toNat_eq⟩

theorem decode_toNat (b : BitVec fmt.numBits) :
    (pattern fmt).decode b.toNat = decoded fmt (unpack fmt b) := by
  have mantissa := toNat_mantissa b
  have exponent := toNat_exponent b
  have sign : (b.toNat / 2 ^ (places fmt + fmt.exponentBits) % 2 == 1) =
      negative (.ofBitVec (unpackSign b)) := by
    rw [negative_ofBitVec, toNat_sign]
  have implicit : (1#1 ++ unpackMantissa b).toNat = 2 ^ places fmt + (unpackMantissa b).toNat :=
    toNat_implicit _
  have least := minExponent_eq fmt
  have raw : places fmt = fmt.mantissaBitsWithoutImplicit := rfl
  have top : (unpackExponent b = -1#(fmt.exponentBits)) ↔
      (unpackExponent b).toNat = 2 ^ fmt.exponentBits - 1 := by
    rw [eq_iff_toNat, toNat_neg_one]
  have bottom : (unpackExponent b = 0#(fmt.exponentBits)) ↔ (unpackExponent b).toNat = 0 := by
    rw [eq_iff_toNat, BitVec.toNat_ofNat, Nat.zero_mod]
  have none : (unpackMantissa b = 0#(fmt.mantissaBitsWithoutImplicit)) ↔
      (unpackMantissa b).toNat = 0 := by
    rw [eq_iff_toNat, BitVec.toNat_ofNat, Nat.zero_mod]
  rw [decode_def, sign, ← mantissa, ← exponent]
  unfold unpack
  dsimp only
  by_cases full : (unpackExponent b).toNat = 2 ^ fmt.exponentBits - 1
  · rw [if_pos full, if_pos (top.mpr full)]
    by_cases zero : (unpackMantissa b).toNat = 0
    · rw [if_pos zero, if_pos (none.mpr zero)]
      rfl
    · rw [if_neg zero, if_neg (mt none.mp zero)]
      rfl
  · rw [if_neg full, if_neg (mt top.mp full)]
    by_cases low : (unpackExponent b).toNat = 0
    · rw [if_pos low, if_pos (bottom.mpr low)]
      by_cases zero : (unpackMantissa b).toNat = 0
      · rw [dif_pos (none.mpr zero), zero]
        rfl
      · rw [dif_neg (mt none.mp zero), decoded]
        congr 1
        omega
    · rw [if_neg low, if_neg (mt bottom.mp low), decoded, implicit]
      congr 1
      omega

/-- The pattern of a stored value is its significand in place, below its sign. -/
theorem toNat_of_unpack {b : BitVec fmt.numBits} {s : Sign} {m : ℕ} {e : ℤ} {some : 0 < m}
    (value : unpack fmt b = .finite s m e some) :
    b.toNat = (pattern fmt).signBit (negative s) + placed fmt m e := by
  have decodes := decode_toNat b
  rw [value, decoded, decode_def] at decodes
  have width : b.toNat < 2 ^ (places fmt + fmt.exponentBits) * 2 := by
    have inside : b.toNat < 2 ^ (1 + fmt.exponentBits + places fmt) := b.isLt
    have total : 2 ^ (1 + fmt.exponentBits + places fmt) =
        2 ^ (places fmt + fmt.exponentBits) * 2 := by ring
    rwa [total] at inside
  have last : b.toNat / 2 ^ (places fmt + fmt.exponentBits) < 2 := by
    rwa [Nat.div_lt_iff_lt_mul (by positivity), Nat.mul_comm]
  have outer : b.toNat / 2 ^ places fmt / 2 ^ fmt.exponentBits =
      b.toNat / 2 ^ (places fmt + fmt.exponentBits) := by
    rw [Nat.div_div_eq_div_mul, ← pow_add]
  have first := Nat.div_add_mod b.toNat (2 ^ places fmt)
  have second := Nat.div_add_mod (b.toNat / 2 ^ places fmt) (2 ^ fmt.exponentBits)
  rw [outer] at second
  generalize b.toNat / 2 ^ (places fmt + fmt.exponentBits) = q at last second decodes
  generalize b.toNat / 2 ^ places fmt % 2 ^ fmt.exponentBits = biased at second decodes
  have sign : (pattern fmt).signBit (q % 2 == 1) = 2 ^ places fmt * (2 ^ fmt.exponentBits * q) := by
    rcases (by omega : q = 0 ∨ q = 1) with rfl | rfl
    · rfl
    · rw [mul_one, ← pow_add]
      rfl
  have whole : b.toNat = (pattern fmt).signBit (q % 2 == 1) +
      (biased * 2 ^ places fmt + b.toNat % 2 ^ places fmt) := by
    rw [sign]
    conv_lhs => rw [← first, ← second]
    ring
  generalize b.toNat % 2 ^ places fmt = fraction at whole decodes
  rw [whole]
  split at decodes
  · split at decodes <;> contradiction
  · split at decodes
    · rename_i low
      obtain ⟨same, rfl, rfl⟩ := BinaryValue.finite.inj decodes
      rw [same, low, placed, sub_self]
      simp
    · rename_i nonzero
      obtain ⟨same, rfl, rfl⟩ := BinaryValue.finite.inj decodes
      obtain ⟨k, rfl⟩ := Nat.exists_eq_succ_of_ne_zero nonzero
      rw [same, placed, add_sub_cancel_left, Int.toNat_natCast, Nat.succ_sub_one, Nat.succ_mul]
      ring

/-- Significands in place tell values apart. -/
theorem placed_eq {r n : ℕ} {h g : ℤ} (size : r ≤ 2 ^ (places fmt + 1)) (low : fmt.minExponent ≤ h)
    (filled : h = fmt.minExponent ∨ 2 ^ places fmt ≤ r) (bits : n < 2 ^ (places fmt + 1))
    (least : fmt.minExponent ≤ g) (full : g = fmt.minExponent ∨ 2 ^ places fmt ≤ n)
    (same : (r * 2 ^ h : ℝ) = n * 2 ^ g) : placed fmt r h = placed fmt n g := by
  have exact {r : ℕ} {h : ℤ} (size : r < 2 ^ (places fmt + 1)) (low : fmt.minExponent ≤ h)
      (filled : h = fmt.minExponent ∨ 2 ^ places fmt ≤ r) (same : (r * 2 ^ h : ℝ) = n * 2 ^ g) :
      placed fmt r h = placed fmt n g := by
    rcases lt_trichotomy h g with less | equal | more
    · exact absurd same (magnitude_lt size low full (Or.inl less)).ne
    · subst equal
      have scale : (0 : ℝ) < 2 ^ h := by positivity
      have whole : r = n := by exact_mod_cast mul_right_cancel₀ scale.ne' same
      rw [whole]
    · exact absurd same (magnitude_lt bits least filled (Or.inl more)).ne'
  rcases size.lt_or_eq with less | top
  · exact exact less low filled same
  · have double : 2 ^ (places fmt + 1) = 2 ^ places fmt + 2 ^ places fmt := by ring
    have power := Nat.two_pow_pos (places fmt)
    have half : ((2 ^ places fmt : ℕ) * 2 ^ (h + 1) : ℝ) = n * 2 ^ g := by
      rw [← same, top, zpow_add₀ two_ne_zero]
      push_cast
      ring
    rw [← exact (by omega) (by omega) (Or.inr (Nat.le_refl _)) half, placed, placed, top, double]
    have next : (h + 1 - fmt.minExponent).toNat = (h - fmt.minExponent).toNat + 1 := by omega
    rw [next]
    ring

theorem shiftToNearestEven_eq (m k : ℕ) :
    (BinaryFormat.shiftToNearestEven m k : ℤ) = nearest (m / 2 ^ k : ℝ) := by
  have unit : 0 < 2 ^ k := Nat.two_pow_pos k
  have scale : (0 : ℝ) < 2 ^ k := by positivity
  have less : m % 2 ^ k < 2 ^ k := Nat.mod_lt m unit
  have parts : (m : ℝ) / 2 ^ k = (m / 2 ^ k : ℕ) + ((m % 2 ^ k : ℕ) : ℝ) / 2 ^ k := by
    have whole : ((m / 2 ^ k : ℕ) : ℝ) * 2 ^ k + ((m % 2 ^ k : ℕ) : ℝ) = m := by
      exact_mod_cast Nat.div_add_mod' m (2 ^ k)
    field_simp
    linarith
  have below : ((m % 2 ^ k : ℕ) : ℝ) / 2 ^ k < 1 := by
    rw [div_lt_one scale]
    exact_mod_cast less
  have nonneg : 0 ≤ ((m % 2 ^ k : ℕ) : ℝ) / 2 ^ k := by positivity
  have half (x : ℕ) : (x : ℝ) / 2 ^ k = 1 / 2 * ((2 * x : ℕ) / 2 ^ k) := by
    push_cast
    ring
  symm
  apply Near.eq
  change Near _ ((if 2 * (m % 2 ^ k) < 2 ^ k then m / 2 ^ k
    else if 2 ^ k < 2 * (m % 2 ^ k) then m / 2 ^ k + 1
    else m / 2 ^ k + m / 2 ^ k % 2 : ℕ) : ℤ)
  rw [parts]
  generalize m / 2 ^ k = q
  generalize m % 2 ^ k = r at *
  split
  · rename_i down
    have small : (r : ℝ) / 2 ^ k < 1 / 2 := by
      rw [div_lt_div_iff₀ scale two_pos]
      exact_mod_cast (by omega : r * 2 < 1 * 2 ^ k)
    left
    rw [Int.cast_natCast, add_sub_cancel_left, abs_of_nonneg nonneg]
    exact small
  · split
    · rename_i up
      have large : 1 / 2 < (r : ℝ) / 2 ^ k := by
        rw [div_lt_div_iff₀ two_pos scale]
        exact_mod_cast (by omega : 1 * 2 ^ k < r * 2)
      left
      push_cast
      rw [abs_of_nonpos (by linarith)]
      linarith
    · have tie : (r : ℝ) / 2 ^ k = 1 / 2 := by
        rw [div_eq_div_iff scale.ne' two_ne_zero]
        exact_mod_cast (by omega : r * 2 = 1 * 2 ^ k)
      right
      rw [tie]
      refine ⟨?_, by omega⟩
      rcases Nat.mod_two_eq_zero_or_one q with even | odd
      · rw [even]
        push_cast
        norm_num
      · rw [odd]
        push_cast
        norm_num

/-- No value that the format has is beyond its infinity. -/
theorem placed_le {n : ℕ} {g : ℤ} (bits : n < 2 ^ (places fmt + 1)) (fits : g ≤ highest fmt)
    (wide : 2 ≤ fmt.exponentBits) : placed fmt n g ≤ (pattern fmt).infinityBits := by
  have least := minExponent_eq fmt
  have most := highest_eq fmt
  have four : 2 ^ 2 ≤ 2 ^ fmt.exponentBits := Nat.pow_le_pow_right two_pos wide
  have fields : (g - fmt.minExponent).toNat + 2 ≤ 2 ^ fmt.exponentBits - 1 := by omega
  calc
    placed fmt n g ≤ (g - fmt.minExponent).toNat * 2 ^ places fmt + 2 ^ (places fmt + 1) := by
      rw [placed]
      omega
    _ = ((g - fmt.minExponent).toNat + 2) * 2 ^ places fmt := by ring
    _ ≤ (2 ^ fmt.exponentBits - 1) * 2 ^ places fmt := Nat.mul_le_mul_right _ fields

theorem nearest_def (negative : Bool) (m : ℕ) (e : ℤ) :
    (pattern fmt).nearest negative m e =
      (pattern fmt).signBit negative + if m = 0 then 0 else min (placed fmt
        (if max fmt.minExponent (e + m.log2 - places fmt) ≤ e then
          m * 2 ^ (e - max fmt.minExponent (e + m.log2 - places fmt)).toNat
        else BinaryFormat.shiftToNearestEven m
          (max fmt.minExponent (e + m.log2 - places fmt) - e).toNat)
        (max fmt.minExponent (e + m.log2 - places fmt))) (pattern fmt).infinityBits := by
  rw [BinaryFormat.nearest, lowestExponent_eq]
  rfl

/-- The nearest pattern is that of the number rounded. -/
theorem nearest_eq (negative : Bool) {m : ℕ} {e : ℤ} (some : 0 < m) {n : ℕ} {g : ℤ}
    (rounds : round fmt (m * 2 ^ e) = n * 2 ^ g) (bits : n < 2 ^ (places fmt + 1))
    (least : fmt.minExponent ≤ g) (full : g = fmt.minExponent ∨ 2 ^ places fmt ≤ n)
    (fits : g ≤ highest fmt) (wide : 2 ≤ fmt.exponentBits) :
    (pattern fmt).nearest negative m e = (pattern fmt).signBit negative + placed fmt n g := by
  have positive := magnitude_pos (e := e) some
  have log : Int.log 2 (m * 2 ^ e : ℝ) = m.log2 + e := by
    refine log_eq positive some.ne' ?_
    rw [mul_div_cancel_right₀ _ (by positivity)]
    exact ⟨le_refl _, by linarith⟩
  have place : max fmt.minExponent (e + m.log2 - places fmt) = grid fmt (m * 2 ^ e) := by
    rw [grid, abs_of_pos positive, log]
    omega
  rw [nearest_def, if_neg some.ne', place]
  have top : nearest (m * 2 ^ e / 2 ^ grid fmt (m * 2 ^ e)) ≤ 2 ^ (places fmt + 1) :=
    nearest_grid_le positive
  have filled : fmt.minExponent < grid fmt (m * 2 ^ e) →
      2 ^ places fmt ≤ nearest (m * 2 ^ e / 2 ^ grid fmt (m * 2 ^ e)) :=
    le_nearest_grid positive
  have low : fmt.minExponent ≤ grid fmt (m * 2 ^ e) := le_max_right _ _
  rw [round] at rounds
  generalize grid fmt (m * 2 ^ e) = h at *
  have whole : ((if h ≤ e then m * 2 ^ (e - h).toNat
      else BinaryFormat.shiftToNearestEven m (h - e).toNat : ℕ) : ℤ) =
        nearest (m * 2 ^ e / 2 ^ h) := by
    split
    · rename_i finer
      have apart : e - h = ((e - h).toNat : ℤ) := by omega
      rw [mul_div_assoc, ← zpow_sub₀ two_ne_zero, apart, zpow_natCast, Int.toNat_natCast]
      symm
      exact_mod_cast nearest_intCast (m * 2 ^ (e - h).toNat : ℕ)
    · rename_i coarser
      have apart : e - h = -((h - e).toNat : ℤ) := by omega
      rw [shiftToNearestEven_eq, mul_div_assoc, ← zpow_sub₀ two_ne_zero, apart, zpow_neg,
        zpow_natCast, div_eq_mul_inv]
  rw [← whole] at top filled rounds
  generalize (if h ≤ e then m * 2 ^ (e - h).toNat
      else BinaryFormat.shiftToNearestEven m (h - e).toNat) = r at *
  have same : placed fmt r h = placed fmt n g := by
    refine placed_eq (by exact_mod_cast top) low ?_ bits least full (by exact_mod_cast rounds)
    rcases low.eq_or_lt with lowest | normal
    · exact Or.inl lowest.symm
    · exact Or.inr (by exact_mod_cast filled normal)
  rw [same, Nat.min_eq_left (placed_le bits fits wide)]

end RealtimeAudio.Binary
