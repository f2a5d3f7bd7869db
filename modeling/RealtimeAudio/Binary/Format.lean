/-! Binary interchange formats: what a bit pattern stands for, and the pattern
nearest to an exact dyadic number. Everything is integer arithmetic on significand
and exponent; exception flags and the payload of a value that is not a number are
not modelled. -/
namespace RealtimeAudio

/-- The widths of the fraction and exponent fields; a sign bit stands above them. -/
structure BinaryFormat where
  fractionBits : Nat
  exponentBits : Nat
deriving DecidableEq, Repr

/-- What a bit pattern stands for. A finite value is `± significand * 2 ^ exponent`. -/
inductive BinaryValue where
  | undefined
  | infinite (negative : Bool)
  | finite (negative : Bool) (significand : Nat) (exponent : Int)
deriving DecidableEq, Repr

namespace BinaryFormat

def single : BinaryFormat := ⟨23, 8⟩

def double : BinaryFormat := ⟨52, 11⟩

/-- The biased exponent that marks infinities and values that are not numbers. -/
def topExponent (f : BinaryFormat) : Nat := Nat.pow 2 f.exponentBits - 1

/-- The exponent of the last place of the smallest numbers. -/
def lowestExponent (f : BinaryFormat) : Int :=
  2 - (Nat.pow 2 (f.exponentBits - 1) + f.fractionBits : Nat)

def signBit (f : BinaryFormat) (negative : Bool) : Nat :=
  if negative then Nat.pow 2 (f.fractionBits + f.exponentBits) else 0

def infinityBits (f : BinaryFormat) : Nat := f.topExponent * Nat.pow 2 f.fractionBits

def decode (f : BinaryFormat) (bits : Nat) : BinaryValue :=
  let fraction := bits % Nat.pow 2 f.fractionBits
  let biased := bits / Nat.pow 2 f.fractionBits % Nat.pow 2 f.exponentBits
  let negative := bits / Nat.pow 2 (f.fractionBits + f.exponentBits) % 2 == 1
  if biased = f.topExponent then
    if fraction = 0 then .infinite negative else .undefined
  else if biased = 0 then .finite negative fraction f.lowestExponent
  else .finite negative (Nat.pow 2 f.fractionBits + fraction) (f.lowestExponent + (biased - 1 : Nat))

/-- `m / 2 ^ k` to the nearest whole number, a half going to the even neighbour. -/
def shiftToNearestEven (m k : Nat) : Nat :=
  let unit := Nat.pow 2 k
  let quotient := m / unit
  let twice := 2 * (m % unit)
  if twice < unit then quotient
  else if unit < twice then quotient + 1
  else quotient + quotient % 2

/-- The pattern nearest to `± m * 2 ^ e`, a tie going to the even significand. Past
the largest finite value it is infinity. -/
def nearest (f : BinaryFormat) (negative : Bool) (m : Nat) (e : Int) : Nat :=
  let place := max f.lowestExponent (e + m.log2 - f.fractionBits)
  let rounded :=
    if place ≤ e then m * Nat.pow 2 (e - place).toNat else shiftToNearestEven m (place - e).toNat
  let unsigned := (place - f.lowestExponent).toNat * Nat.pow 2 f.fractionBits + rounded
  f.signBit negative + (if m = 0 then 0 else min unsigned f.infinityBits)

/-- A pattern of format `f` carried over to the nearest pattern of format `g`. -/
def convert (f g : BinaryFormat) (bits : Nat) : Nat :=
  match f.decode bits with
  | .undefined => g.infinityBits + Nat.pow 2 (g.fractionBits - 1)
  | .infinite negative => g.signBit negative + g.infinityBits
  | .finite negative m e => g.nearest negative m e

end BinaryFormat

def narrow (x : Float) : Float32 :=
  .ofBits (.ofNat (BinaryFormat.double.convert .single x.toBits.toNat))

end RealtimeAudio
