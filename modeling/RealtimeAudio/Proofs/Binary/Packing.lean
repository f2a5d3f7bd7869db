import Mathlib
import RealtimeAudio.Proofs.Binary.Rounding

/-! Values of a binary format in store. What a stored value unpacks to is storable: its significand
fills the format unless the exponent is least. Packing a storable value and unpacking it again
changes nothing, and one whose exponent is too large is stored as an infinity. -/
namespace RealtimeAudio.Binary
open Float.Model (Format UnpackedFloat)
open Float.Model.UnpackedFloat

/-- Of as many bits as the format has, and of no fewer unless the exponent is least. -/
def Canonical (fmt : Format) : UnpackedFloat → Prop
  | .finite _ m e _ => m < 2 ^ (places fmt + 1) ∧ fmt.minExponent ≤ e ∧
      (e = fmt.minExponent ∨ 2 ^ places fmt ≤ m)
  | _ => True

/-- Canonical, and with an exponent that the format has. -/
def Storable (fmt : Format) : UnpackedFloat → Prop
  | .finite _ m e _ => m < 2 ^ (places fmt + 1) ∧ fmt.minExponent ≤ e ∧
      (e = fmt.minExponent ∨ 2 ^ places fmt ≤ m) ∧ e ≤ highest fmt
  | _ => True

/-- What becomes of a canonical value in store. -/
def stored (fmt : Format) : UnpackedFloat → UnpackedFloat
  | .finite s m e positive => if highest fmt < e then .infinity s else .finite s m e positive
  | u => u

variable {fmt : Format}

theorem canonical_of_storable {u : UnpackedFloat} (storable : Storable fmt u) :
    Canonical fmt u := by
  cases u with
  | finite s m e positive => exact ⟨storable.1, storable.2.1, storable.2.2.1⟩
  | _ => trivial

theorem storable_neg {u : UnpackedFloat} (storable : Storable fmt u) : Storable fmt u.neg := by
  cases u with
  | finite s m e positive => exact storable
  | _ => trivial

theorem stored_eq {u : UnpackedFloat} (storable : Storable fmt u) : stored fmt u = u := by
  cases u with
  | finite s m e positive => exact if_neg (by have := storable.2.2.2; omega)
  | _ => rfl

theorem isNaN_stored (u : UnpackedFloat) : (stored fmt u).isNaN = u.isNaN := by
  cases u with
  | finite s m e positive =>
    rw [stored]
    split <;> rfl
  | _ => rfl

theorem toNat_implicit {k : ℕ} (m : BitVec k) : (1#1 ++ m).toNat = 2 ^ k + m.toNat := by
  rw [BitVec.toNat_append, ← Nat.shiftLeft_add_eq_or_of_lt m.isLt, Nat.shiftLeft_eq]
  simp

theorem toNat_neg_one (k : ℕ) : (-1#k).toNat = 2 ^ k - 1 := by
  rw [BitVec.neg_one_eq_allOnes, BitVec.toNat_allOnes]

/-- The exponent of the smallest numbers is the one that is stored as zero or one. -/
theorem minExponent_eq (fmt : Format) :
    fmt.minExponent = 1 - (fmt.exponentBias + places fmt) := by
  have bias : (fmt.exponentBias : ℤ) = 2 ^ (fmt.exponentBits - 1) - 1 := by
    rw [Format.exponentBias, Nat.cast_sub (Nat.one_le_two_pow)]
    push_cast
    rfl
  rw [Format.minExponent, mantissaBits_eq, bias]
  ring

theorem highest_eq (fmt : Format) :
    highest fmt = ((2 ^ fmt.exponentBits : ℕ) : ℤ) - 2 - fmt.exponentBias - places fmt := by
  rw [highest]
  push_cast
  rfl

theorem minExponent_le_highest (wide : 2 ≤ fmt.exponentBits) : fmt.minExponent ≤ highest fmt := by
  have four : 2 ^ 2 ≤ 2 ^ fmt.exponentBits := Nat.pow_le_pow_right two_pos wide
  rw [minExponent_eq, highest_eq]
  omega

theorem unpack_normal (s : Sign) (e : BitVec fmt.exponentBits)
    (m : BitVec fmt.mantissaBitsWithoutImplicit) (some : e ≠ 0#(fmt.exponentBits))
    (finite : e ≠ -1#(fmt.exponentBits)) :
    unpack fmt (packComponents fmt s e m) =
      .finite s (1#1 ++ m).toNat
        (e.toNat - (fmt.exponentBias + places fmt : ℤ))
        (by rw [toNat_implicit]; positivity) := by
  unfold unpack
  simp only [unpackMantissa_packComponents, unpackExponent_packComponents,
    unpackSign_packComponents, Sign.ofBitVec_toBitVec]
  rw [if_neg finite, if_neg some]
  rfl

theorem unpack_subnormal (s : Sign) (m : BitVec fmt.mantissaBitsWithoutImplicit)
    (some : 0 < m.toNat) :
    unpack fmt (packComponents fmt s 0#(fmt.exponentBits) m) =
      .finite s m.toNat fmt.minExponent some := by
  have present : m ≠ 0#(fmt.mantissaBitsWithoutImplicit) := by
    rintro rfl
    simp at some
  have finite : 0#(fmt.exponentBits) ≠ -1#(fmt.exponentBits) := by
    intro same
    have := congrArg BitVec.toNat same
    have wide : 2 ^ 1 ≤ 2 ^ fmt.exponentBits := Nat.pow_le_pow_right two_pos fmt.he
    rw [toNat_neg_one, BitVec.toNat_ofNat] at this
    simp at this
    omega
  unfold unpack
  simp only [unpackMantissa_packComponents, unpackExponent_packComponents,
    unpackSign_packComponents, Sign.ofBitVec_toBitVec]
  rw [if_neg finite, if_pos trivial, dif_neg present]
  congr 1
  rw [minExponent_eq, BitVec.toNat_ofNat, Nat.zero_mod, places]
  ring

theorem storable_unpack (b : BitVec fmt.numBits) (wide : 2 ≤ fmt.exponentBits) :
    Storable fmt (unpack fmt b) := by
  have small : (unpackMantissa b).toNat < 2 ^ places fmt := BitVec.isLt _
  have width : (unpackExponent b).toNat < 2 ^ fmt.exponentBits := BitVec.isLt _
  have implicit : (1#1 ++ unpackMantissa b).toNat = 2 ^ places fmt + (unpackMantissa b).toNat :=
    toNat_implicit _
  have least := minExponent_eq fmt
  have most := highest_eq fmt
  have reaches := minExponent_le_highest wide
  have double : 2 ^ (places fmt + 1) = 2 ^ places fmt + 2 ^ places fmt := by ring
  have raw : places fmt = fmt.mantissaBitsWithoutImplicit := rfl
  unfold unpack
  dsimp only
  split
  · split <;> trivial
  · rename_i finite
    have below : (unpackExponent b).toNat ≠ 2 ^ fmt.exponentBits - 1 := fun same =>
      finite (BitVec.eq_of_toNat_eq (by rw [same, toNat_neg_one]))
    split
    · rename_i lowest
      have exponent : (unpackExponent b).toNat = 0 := by simp [lowest]
      split
      · trivial
      · exact ⟨by omega, by omega, Or.inl (by omega), by omega⟩
    · rename_i some
      have above : (unpackExponent b).toNat ≠ 0 := fun same =>
        some (BitVec.eq_of_toNat_eq (by simp [same]))
      exact ⟨by omega, by omega, Or.inr (by omega), by omega⟩

theorem unpack_packedInfinity (s : Sign) : unpack fmt (packedInfinity fmt s) = .infinity s := by
  unfold packedInfinity unpack
  simp only [unpackMantissa_packComponents, unpackExponent_packComponents,
    unpackSign_packComponents, Sign.ofBitVec_toBitVec]
  rw [if_pos trivial]
  exact if_pos rfl

theorem unpack_pack {u : UnpackedFloat} (canonical : Canonical fmt u) :
    unpack fmt (pack fmt u) = stored fmt u := by
  cases u with
  | notANumber => exact unpack_packedNaN
  | infinity s => exact unpack_packedInfinity s
  | zero s => exact unpack_packedZero
  | finite s m e positive =>
    obtain ⟨bits, least, full⟩ := canonical
    have lowest := minExponent_eq fmt
    have most := highest_eq fmt
    have whole : (0 : ℤ) ≤ fmt.exponentBias := Nat.cast_nonneg _
    have nonzero : m ≠ 0 := Nat.ne_of_gt positive
    have wide : 2 ^ 1 ≤ 2 ^ fmt.exponentBits := Nat.pow_le_pow_right two_pos fmt.he
    have raw : places fmt = fmt.mantissaBitsWithoutImplicit := rfl
    have double : 2 ^ (places fmt + 1) = 2 ^ places fmt + 2 ^ places fmt := by ring
    have mantissa : fmt.mantissaBits = places fmt + 1 := Nat.add_comm _ _
    unfold pack stored
    dsimp only
    generalize biased : (e + fmt.exponentBias + fmt.mantissaBitsWithoutImplicit).toNat = b
    have exponent : (BitVec.ofNat fmt.exponentBits b).toNat = b % 2 ^ fmt.exponentBits :=
      BitVec.toNat_ofNat _ _
    have significand : (BitVec.ofNat fmt.mantissaBitsWithoutImplicit m).toNat =
      m % 2 ^ places fmt := BitVec.toNat_ofNat _ _
    by_cases large : highest fmt < e
    · rw [if_pos large, if_pos (by omega)]
      exact unpack_packedInfinity s
    · rw [if_neg large, if_neg (by omega)]
      have inside : b % 2 ^ fmt.exponentBits = b := Nat.mod_eq_of_lt (by omega)
      by_cases normal : 2 ^ places fmt ≤ m
      · have log : m.log2 = places fmt := Nat.log2_eq_iff nonzero |>.mpr ⟨normal, bits⟩
        have some : BitVec.ofNat fmt.exponentBits b ≠ 0#(fmt.exponentBits) := fun same => by
          rw [same] at exponent
          simp at exponent
          omega
        have finite : BitVec.ofNat fmt.exponentBits b ≠ -1#(fmt.exponentBits) := fun same => by
          rw [same, toNat_neg_one] at exponent
          omega
        have fraction : m % 2 ^ places fmt = m - 2 ^ places fmt := by
          rw [Nat.mod_eq_sub_mod normal, Nat.mod_eq_of_lt (by omega)]
        have restored : (1#1 ++ BitVec.ofNat fmt.mantissaBitsWithoutImplicit m).toNat = m := by
          rw [toNat_implicit, significand, fraction]
          exact Nat.add_sub_of_le normal
        have unbiased : ((BitVec.ofNat fmt.exponentBits b).toNat : ℤ) -
            (fmt.exponentBias + places fmt) = e := by omega
        rw [if_pos (by omega), unpack_normal s _ _ some finite]
        simp only [restored, unbiased]
      · have log : m.log2 < places fmt := (Nat.log2_lt nonzero).mpr (not_le.mp normal)
        have restored : (BitVec.ofNat fmt.mantissaBitsWithoutImplicit m).toNat = m := by
          rw [significand, Nat.mod_eq_of_lt (not_le.mp normal)]
        have least : e = fmt.minExponent := full.resolve_right normal
        rw [if_neg (by omega), unpack_subnormal s _ (by omega)]
        simp only [restored, least]

end RealtimeAudio.Binary
