import RealtimeAudio.Proofs.Binary.Pattern

/-! Carrying a binary64 number over to binary32: it becomes the value that it rounds to. -/
namespace RealtimeAudio.Single
open Binary
open Float.Model (Format UnpackedFloat)
open Float.Model.UnpackedFloat

/-- The pattern of a value decodes to it. -/
theorem decode_toBits (y : Float32) :
    BinaryFormat.single.decode y.toBits.toNat = decoded .binary32 y.toModel.unpack := by
  let bits : BitVec Format.binary32.numBits := y.toBits.toBitVec
  exact decode_toNat bits

/-- A value is what it stands for, packed. -/
theorem ofModel_pack_unpack (y : Float32) : Float32.ofModel (.pack y.toModel.unpack) = y := by
  obtain ⟨⟨bits, valid⟩⟩ := y
  have restored := pack_unpack_of_valid valid (by decide)
  have model : Float32.Model.pack (Float32.Model.unpack ⟨bits, valid⟩) = ⟨bits, valid⟩ := by
    unfold Float32.Model.pack
    congr 1
    exact congrArg UInt32.ofBitVec restored
  exact congrArg Float32.ofModel model

theorem eq_of_unpack {x y : Float32} (same : x.toModel.unpack = y.toModel.unpack) : x = y := by
  rw [← ofModel_pack_unpack x, same, ofModel_pack_unpack]

theorem ofBits_toBits (y : Float32) : Float32.ofBits y.toBits = y := ofModel_pack_unpack y

/-- The nearest pattern only takes over the sign. -/
theorem nearest_signed (negative : Bool) (m : ℕ) (e : ℤ) :
    BinaryFormat.single.nearest negative m e =
      BinaryFormat.single.signBit negative + BinaryFormat.single.nearest false m e := by
  have unsigned : BinaryFormat.single.signBit false = 0 := rfl
  unfold BinaryFormat.nearest
  rw [unsigned, Nat.zero_add]

theorem nearest_of_round {m n : ℕ} {e g : ℤ} {s : Sign} {hn : 0 < n} (some : 0 < m)
    (canonical : Storable .binary32 (.finite s n g hn))
    (rounds : Binary.round .binary32 (m * 2 ^ e) = n * 2 ^ g) :
    BinaryFormat.single.nearest false m e = placed .binary32 n g := by
  obtain ⟨small, least, full, fits⟩ := canonical
  exact (nearest_eq false some rounds small least full fits (by decide)).trans (Nat.zero_add _)

/-- A pattern carried over to that of a value gives the value. -/
theorem narrow_of_nearest {x : Float} {y : Float32} {s : Sign} {m n : ℕ} {e g : ℤ} {hm : 0 < m}
    {hn : 0 < n} (wide : x.toModel.unpack = .finite s m e hm)
    (single : y.toModel.unpack = .finite s n g hn)
    (nearest : BinaryFormat.single.nearest false m e = placed .binary32 n g) : narrow x = y := by
  let bits : BitVec Format.binary64.numBits := x.toBits.toBitVec
  let kept : BitVec Format.binary32.numBits := y.toBits.toBitVec
  have decodes : BinaryFormat.double.decode x.toBits.toNat = .finite (negative s) m e :=
    (decode_toNat bits).trans (congrArg (decoded .binary64) wide)
  have same : BinaryFormat.single.nearest (negative s) m e = y.toBits.toNat := by
    rw [nearest_signed, nearest]
    exact (toNat_of_unpack (b := kept) single).symm
  unfold narrow BinaryFormat.convert
  rw [decodes]
  dsimp only
  rw [same, UInt32.ofNat_toNat, ofBits_toBits]

end RealtimeAudio.Single
