import RealtimeAudio.Arithmetic
import RealtimeAudio.Binary.Format

/-! The arithmetic the program runs on: binary32 numbers, every operation rounded
to nearest. The exponentials and logarithms are those of the platform's mathematics
library, about which nothing is assumed. -/
namespace RealtimeAudio

/-- The whole number nearest to a decoded value, halves away from zero, brought into
`0 .. limit`. -/
def BinaryValue.wholeUpTo (limit : Nat) : BinaryValue → Nat
  | .undefined => 0
  | .infinite negative => if negative then 0 else limit
  | .finite negative m e =>
    if negative then 0
    else if 0 ≤ e then min limit (m * Nat.pow 2 e.toNat)
    else
      let unit := Nat.pow 2 (-e).toNat
      min limit ((2 * m + unit) / (2 * unit))

instance : Arithmetic Float32 where
  decideLe := Float32.decLe
  decideLt := Float32.decLt
  magnitude := Float32.abs
  lnTen := 2.302585092994046
  bottom := .ofBits 0xff800000
  wholeUpTo limit x := (BinaryFormat.single.decode x.toBits.toNat).wholeUpTo limit

instance : Elementary Float32 where
  exp := Float32.exp
  ln := Float32.log
  log10 := Float32.log10
  tenTo := Float32.pow 10.0

end RealtimeAudio
