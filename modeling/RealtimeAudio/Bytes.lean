/-! Numbers as runs of bytes, least significant byte first. -/
namespace RealtimeAudio.Bytes

def ofNat : (width : Nat) → Nat → List UInt8
  | 0, _ => []
  | width + 1, n => .ofNat n :: ofNat width (n / 256)

def toNat : List UInt8 → Nat
  | [] => 0
  | b :: rest => b.toNat + 256 * toNat rest

/-- Consecutive runs of `width` bytes, as long as whole ones are left. -/
def groups (width : Nat) : (fuel : Nat) → List UInt8 → List (List UInt8)
  | 0, _ => []
  | fuel + 1, bytes =>
    if bytes.length < width then []
    else bytes.take width :: groups width fuel (bytes.drop width)

def toNats (width : Nat) (bytes : List UInt8) : List Nat :=
  (groups width bytes.length bytes).map toNat

def ofNats (width : Nat) (numbers : List Nat) : List UInt8 :=
  numbers.flatMap (ofNat width)

def ofSingles (samples : List Float32) : List UInt8 :=
  ofNats 4 (samples.map (·.toBits.toNat))

def toSingles (bytes : List UInt8) : List Float32 :=
  (toNats 4 bytes).map fun n => .ofBits (.ofNat n)

end RealtimeAudio.Bytes
