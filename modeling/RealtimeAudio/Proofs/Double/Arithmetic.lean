import RealtimeAudio.Proofs.Binary.Division
import RealtimeAudio.Proofs.Binary.Product

/-! Arithmetic on positive binary64 numbers. Where neither the least nor the largest exponent is
near, an operation gives the exact result rounded, which differs from it by at most half of the
last of 53 bits. -/
namespace RealtimeAudio.Double
open Binary
open Float.Model (Format UnpackedFloat)
open Float.Model.UnpackedFloat

/-- A finite positive number, and the real number that it stands for. -/
def Stands (x : Float) (r : ℝ) : Prop :=
  ∃ m e some, x.toModel.unpack = .finite .positive m e some ∧ real (.finite .positive m e some) = r

theorem places_eq : places Format.binary64 = 52 := rfl

theorem minExponent_eq : Format.binary64.minExponent = -1074 := rfl

theorem highest_eq : highest Format.binary64 = 971 := rfl

section Rounding
variable {x : ℝ}

theorem abs_round_sub_le (normal : 2 ^ (-1022 : ℤ) ≤ x) :
    |round .binary64 x - x| ≤ x / 2 ^ 53 :=
  Binary.abs_round_sub_le (by rwa [places_eq, minExponent_eq])

theorem round_pos (normal : 2 ^ (-1022 : ℤ) ≤ x) : 0 < round .binary64 x := by
  have positive : 0 < x := lt_of_lt_of_le (by positivity) normal
  have near := abs_le.mp (abs_round_sub_le normal)
  have less : x / 2 ^ 53 < x := div_lt_self positive (by norm_num)
  linarith

theorem round_lt (normal : 2 ^ (-1022 : ℤ) ≤ x) (small : x ≤ 2 ^ (1000 : ℤ)) :
    round .binary64 x < 2 ^ (highest .binary64 + places .binary64 + 1) := by
  have positive : 0 < x := lt_of_lt_of_le (by positivity) normal
  have near := abs_le.mp (abs_round_sub_le normal)
  have less : x / 2 ^ 53 < x := div_lt_self positive (by norm_num)
  calc
    round .binary64 x < x + x := by linarith
    _ ≤ 2 ^ (1000 : ℤ) + 2 ^ (1000 : ℤ) := add_le_add small small
    _ = 2 ^ (1000 + 1 : ℤ) := by rw [zpow_add_one₀ two_ne_zero, mul_two]
    _ ≤ 2 ^ (highest .binary64 + places .binary64 + 1) :=
      zpow_le_zpow_right₀ one_le_two (by decide)

end Rounding

/-- What is packed for a positive number within reach stands for that number. -/
theorem stands_of_canonical {u : UnpackedFloat} {r : ℝ} (canonical : Canonical .binary64 u)
    (finite : u.isFinite = true) (value : real u = r) (positive : 0 < r)
    (below : r < 2 ^ (highest .binary64 + places .binary64 + 1)) : Stands ⟨.pack u⟩ r := by
  have kept := extended_stored (by decide) canonical finite
  have restored : (Float.ofModel (.pack u)).toModel.unpack = stored .binary64 u :=
    unpack_pack canonical
  rw [value, clip_of_lt (by linarith) below] at kept
  cases u with
  | notANumber => cases finite
  | infinity s => cases finite
  | zero s =>
    have zero : r = 0 := value.symm
    exact absurd zero positive.ne'
  | finite s m e some =>
    cases s with
    | negative => exact absurd (value.symm.trans_lt (real_negative some)) positive.not_gt
    | positive =>
      rw [stored] at kept restored
      by_cases large : highest .binary64 < e
      · rw [if_pos large] at kept
        exact absurd kept.symm (EReal.coe_ne_top r)
      · rw [if_neg large] at restored
        exact ⟨m, e, some, restored, value⟩

namespace Stands
variable {x y : Float} {a b : ℝ}

theorem pos (stands : Stands x a) : 0 < a := by
  obtain ⟨m, e, some, -, rfl⟩ := stands
  exact magnitude_pos some

theorem canonical {m : ℕ} {e : ℤ} {s : Sign} {some : 0 < m}
    (value : x.toModel.unpack = .finite s m e some) :
    Canonical .binary64 (.finite s m e some) := by
  rw [← value]
  exact canonical_of_storable (storable_unpack _ (by decide))

theorem mul (first : Stands x a) (second : Stands y b) (normal : 2 ^ (-1022 : ℤ) ≤ a * b)
    (small : a * b ≤ 2 ^ (1000 : ℤ)) : Stands (x * y) (round .binary64 (a * b)) := by
  obtain ⟨m, e, hm, left, rfl⟩ := first
  obtain ⟨n, f, hn, right, rfl⟩ := second
  have fine := fine_of_canonical (by decide) (canonical left) (canonical right)
  obtain ⟨whole, finite, value⟩ := mul_finite .positive .positive hm hn fine
  have packed : x * y = ⟨.pack (UnpackedFloat.mul .binary64 (.finite .positive m e hm)
      (.finite .positive n f hn))⟩ := by
    rw [← left, ← right]
    rfl
  rw [packed]
  exact stands_of_canonical whole finite value (round_pos normal) (round_lt normal small)

theorem div (first : Stands x a) (second : Stands y b) (normal : 2 ^ (-1022 : ℤ) ≤ a / b)
    (small : a / b ≤ 2 ^ (1000 : ℤ)) : Stands (x / y) (round .binary64 (a / b)) := by
  obtain ⟨m, e, hm, left, rfl⟩ := first
  obtain ⟨n, f, hn, right, rfl⟩ := second
  obtain ⟨whole, finite, value⟩ := div_finite .positive .positive hm hn
  have packed : x / y = ⟨.pack (UnpackedFloat.div .binary64 (.finite .positive m e hm)
      (.finite .positive n f hn))⟩ := by
    rw [← left, ← right]
    rfl
  rw [packed]
  exact stands_of_canonical whole finite value (round_pos normal) (round_lt normal small)

theorem isInf (stands : Stands x a) : x.isInf = false := by
  obtain ⟨m, e, some, value, -⟩ := stands
  change x.toModel.unpack.isInf = false
  rw [value]
  rfl

end Stands

/-- A whole number of 64 bits becomes the number nearest to it. -/
theorem stands_ofNat_round {n : ℕ} (some : 0 < n) (fits : n < UInt64.size) :
    Stands (UInt64.ofNat n).toFloat (round .binary64 n) := by
  obtain ⟨canonical, finite, value⟩ : _ ∧ _ ∧ real (UnpackedFloat.ofNat .binary64 n) = _ :=
    ofNat_finite some
  have same : (UInt64.ofNat n).toNat = n := UInt64.toNat_ofNat_of_lt' fits
  have packed : (UInt64.ofNat n).toFloat = ⟨.pack (UnpackedFloat.ofNat .binary64 n)⟩ := by
    conv_rhs => rw [← same]
    rfl
  have one : (1 : ℝ) ≤ n := by exact_mod_cast some
  have normal : 2 ^ (-1022 : ℤ) ≤ (n : ℝ) :=
    (zpow_le_one_of_nonpos₀ one_le_two (by norm_num)).trans one
  have small : (n : ℝ) ≤ 2 ^ (1000 : ℤ) := by
    calc
      (n : ℝ) ≤ 2 ^ (64 : ℤ) := by exact_mod_cast fits.le
      _ ≤ 2 ^ (1000 : ℤ) := zpow_le_zpow_right₀ one_le_two (by norm_num)
  rw [packed]
  exact stands_of_canonical canonical finite value (round_pos normal) (round_lt normal small)

/-- A whole number of at most 53 bits is held as it is. -/
theorem stands_ofNat {n : ℕ} (some : 0 < n) (bits : n < 2 ^ 53) :
    Stands (UInt64.ofNat n).toFloat n := by
  have exact : Binary.round .binary64 (n * 2 ^ (0 : ℤ)) = n * 2 ^ (0 : ℤ) :=
    round_of_lt bits (by decide)
  rw [zpow_zero, mul_one] at exact
  have stands := stands_ofNat_round some (bits.trans (by decide))
  rwa [exact] at stands

theorem unpack_neg (x : Float) : (-x).toModel.unpack = x.toModel.unpack.neg := by
  have storable : Storable Format.binary64 x.toModel.unpack.neg :=
    storable_neg (storable_unpack _ (by decide))
  have packed : (-x).toModel.unpack =
      unpack Format.binary64 (pack Format.binary64 x.toModel.unpack.neg) := rfl
  rw [packed, unpack_pack (canonical_of_storable storable), stored_eq storable]

end RealtimeAudio.Double
