import RealtimeAudio.Decimal.Shortest

/-! How a binary value is written in decimal. The digits are always the shortest that
read back; a `Layout` decides everything else, and each kind of output has one. -/
namespace RealtimeAudio

structure Layout where
  tie : Tie
  /-- The leading exponents written without an exponent; without bounds, all. -/
  plain : Option (Int × Int)
  /-- Whole numbers end in `.0`. -/
  pointZero : Bool
  /-- Exponents that are not negative carry a plus sign. -/
  exponentPlus : Bool
  undefined : String
  positiveInfinity : String
  negativeInfinity : String

namespace Layout

def digitsOf (n : Nat) : List Char := Nat.toDigits 10 n

def signed (plus : Bool) (e : Int) : List Char :=
  (if e < 0 then ['-'] else if plus then ['+'] else []) ++ digitsOf e.natAbs

def plainText (l : Layout) (d : Decimal) : List Char :=
  let text := digitsOf d.digits
  if 0 ≤ d.exponent then
    text ++ List.replicate d.exponent.toNat '0' ++ (if l.pointZero then ['.', '0'] else [])
  else if 0 ≤ d.leading then
    text.take (d.leading.toNat + 1) ++ '.' :: text.drop (d.leading.toNat + 1)
  else
    '0' :: '.' :: List.replicate (-d.leading - 1).toNat '0' ++ text

/-- One digit before the point, and the leading exponent after `e`. -/
def exponentText (l : Layout) (d : Decimal) : List Char :=
  let text := digitsOf d.digits
  text.take 1 ++ (if text.length = 1 then [] else '.' :: text.drop 1) ++
    'e' :: signed l.exponentPlus d.leading

def isPlain (l : Layout) (d : Decimal) : Bool :=
  match l.plain with
  | none => true
  | some (low, high) => d.digits == 0 || low ≤ d.leading && d.leading ≤ high

def write (l : Layout) (f : BinaryFormat) : BinaryValue → List Char
  | .undefined => l.undefined.toList
  | .infinite negative => if negative then l.negativeInfinity.toList else l.positiveInfinity.toList
  | .finite negative m e =>
    let d := Decimal.shortest l.tie f m e
    (if negative then ['-'] else []) ++ if l.isPlain d then l.plainText d else l.exponentText d

def writeSingle (l : Layout) (x : Float32) : List Char :=
  l.write .single (BinaryFormat.single.decode x.toBits.toNat)

def writeDouble (l : Layout) (x : Float) : List Char :=
  l.write .double (BinaryFormat.double.decode x.toBits.toNat)

/-- Numbers in records: never without a point or an exponent. -/
def record : Layout := ⟨.up, some (-4, 15), true, false, "NaN", "inf", "-inf"⟩

/-- Numbers in messages: never with an exponent. -/
def message : Layout := ⟨.up, none, false, false, "NaN", "inf", "-inf"⟩

/-- Binary32 numbers in JSON, which has no text for a value that is not finite. -/
def jsonSingle : Layout := ⟨.even, some (-6, 12), true, true, "null", "null", "null"⟩

/-- Binary64 numbers in JSON. -/
def jsonDouble : Layout := ⟨.even, some (-5, 15), true, true, "null", "null", "null"⟩

end Layout

end RealtimeAudio
