import RealtimeAudio.Fault

/-! A ring: a store of fixed-size elements between one producer and one consumer. The
two cursors count elements for ever, wrapping at the word size, and an element's place
is its count modulo the capacity, a power of two. Only one side acts at a time here;
that the two sides may act at once is not modelled. -/
namespace RealtimeAudio

structure Ring where
  /-- Places for elements. -/
  capacity : Nat
  /-- Bytes of an element. -/
  elementSize : Nat
  /-- Elements that may be queued at once. -/
  writeLimit : Nat
  written : UInt64
  taken : UInt64
  storage : List UInt8

/-- Consecutive places, counted in elements. -/
structure Span where
  start : Nat
  count : Nat
deriving DecidableEq, Repr

namespace Ring

/-- A sum that fits a word. -/
def addWord? (a b : Nat) : Option Nat := if a + b < UInt64.size then some (a + b) else none

def mulWord? (a b : Nat) : Option Nat := if a * b < UInt64.size then some (a * b) else none

/-- The least power of two from `n` on, if it fits a word. -/
def powerOfTwoFrom? (n : Nat) : Option Nat :=
  let power := if n ≤ 1 then 1 else Nat.pow 2 ((n - 1).log2 + 1)
  if power < UInt64.size then some power else none

/-- The places of a ring for at least `elements` elements, one more than asked for
rounded up to a power of two. -/
def capacityFor? (elements : Nat) : Option Nat := do
  powerOfTwoFrom? (← addWord? elements 1)

/-- The bytes of a store, of which there can be no more than half the address space. -/
def bytesFor? (capacity elementSize : Nat) : Option Nat := do
  let bytes ← mulWord? capacity elementSize
  if bytes < UInt64.size / 2 then return bytes else none

/-- Make an empty ring. With `reserve`, one place always stays free. `granted` says
which sizes of store can be had. -/
def create (granted : Nat → Bool) (elements elementSize : Nat) (reserve : Bool) :
    Except Fault Ring := do
  if elements = 0 ∨ elementSize = 0 then
    throw (.misconfigured (.emptyRing elements elementSize))
  let some capacity := capacityFor? elements | throw (.capacityOverflow elements elementSize)
  let some bytes := bytesFor? capacity elementSize
    | throw (.capacityOverflow elements elementSize)
  if !granted bytes then throw (.allocation bytes)
  return {
    capacity
    elementSize
    writeLimit := if reserve then capacity - 1 else capacity
    written := 0
    taken := 0
    storage := List.replicate bytes 0 }

def readSpace (r : Ring) : Nat := (r.written - r.taken).toNat

def writeSpace (r : Ring) : Nat := r.writeLimit - r.readSpace

/-- The places of `count` elements from `cursor` on: up to the end of the store, and
then from its beginning. -/
def spans (r : Ring) (cursor : UInt64) (count : Nat) : Span × Span :=
  let start := cursor.toNat % r.capacity
  let toEnd := r.capacity - start
  if toEnd < count then (⟨start, toEnd⟩, ⟨0, count - toEnd⟩) else (⟨start, count⟩, ⟨0, 0⟩)

def queued (r : Ring) : Span × Span := r.spans r.taken r.readSpace

def free (r : Ring) : Span × Span := r.spans r.written r.writeSpace

def load (r : Ring) (s : Span) : List UInt8 :=
  (r.storage.drop (s.start * r.elementSize)).take (s.count * r.elementSize)

/-- Put bytes into the store, `offset` bytes into a span. -/
def store (r : Ring) (s : Span) (offset : Nat) (bytes : List UInt8) : Ring :=
  let position := s.start * r.elementSize + offset
  { r with storage := r.storage.take position ++ bytes ++ r.storage.drop (position + bytes.length) }

/-- Count elements as written, at most those there is room for. -/
def commit (r : Ring) (count : Nat) : Ring :=
  { r with written := r.written + .ofNat (min count r.writeSpace) }

/-- Count elements as read, at most those there are. -/
def release (r : Ring) (count : Nat) : Ring :=
  { r with taken := r.taken + .ofNat (min count r.readSpace) }

/-- Discard what is queued; the bytes stay. -/
def reset (r : Ring) : Ring := { r with written := 0, taken := 0 }

/-- Reset through a producer and a consumer, which have to belong to one ring. Rings are
told apart by number. -/
def resetThrough (producer consumer : Nat) (r : Ring) : Except Fault Ring :=
  if producer = consumer then return r.reset else throw .foreignHandle

def record (r : Ring) : String :=
  Text.record "RingBuffer"
    [("capacity", Text.natural r.capacity), ("element_size", Text.natural r.elementSize),
     ("write_limit", Text.natural r.writeLimit), ("read_space", Text.natural r.readSpace)]

def producerRecord (r : Ring) : String := Text.record "Producer" [("rb", r.record)]

def consumerRecord (r : Ring) : String := Text.record "Consumer" [("rb", r.record)]

end Ring

end RealtimeAudio
