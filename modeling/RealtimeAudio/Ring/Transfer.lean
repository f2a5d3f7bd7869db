import RealtimeAudio.Ring.Basic

/-! Moving elements through a ring, by copy or in place. Copying takes as many whole
elements as the given bytes and the ring allow. In place, the producer fills the free
spans and the consumer reads the queued ones, and then each counts what it has done
with `commit` and `release`. -/
namespace RealtimeAudio.Ring

/-- Copy elements in: how many, and the ring with them queued. -/
def write (r : Ring) (source : List UInt8) : Nat × Ring :=
  let count := min (source.length / r.elementSize) r.writeSpace
  let (first, second) := r.spans r.written count
  let head := first.count * r.elementSize
  let whole := source.take (count * r.elementSize)
  (count, ((r.store first 0 (whole.take head)).store second 0 (whole.drop head)).commit count)

/-- Copy elements out and leave them queued: how many, and `target` with them in
front. -/
def peek (r : Ring) (target : List UInt8) : Nat × List UInt8 :=
  let count := min (target.length / r.elementSize) r.readSpace
  let (first, second) := r.spans r.taken count
  (count, r.load first ++ r.load second ++ target.drop (count * r.elementSize))

def read (r : Ring) (target : List UInt8) : Nat × List UInt8 × Ring :=
  let (count, target) := r.peek target
  (count, target, r.release count)

/-- The bytes of a region, in two runs where it wraps past the end of the store. -/
structure View where
  first : List UInt8
  second : List UInt8
  elementSize : Nat
deriving DecidableEq, Repr

namespace View

def size (v : View) : Nat := (v.first.length + v.second.length) / v.elementSize

def isEmpty (v : View) : Bool := v.first.isEmpty

def record (name : String) (v : View) : String :=
  let bytes (xs : List UInt8) := Text.list (xs.map fun b => Text.natural b.toNat)
  Text.record name
    [("first", bytes v.first), ("second", bytes v.second),
     ("element_size", Text.natural v.elementSize)]

end View

def view (r : Ring) (region : Span × Span) : View :=
  ⟨r.load region.1, r.load region.2, r.elementSize⟩

def readView (r : Ring) : View := r.view r.queued

/-- What the producer sees in place, bytes left over from earlier included. -/
def writeView (r : Ring) : View := r.view r.free

/-- Put bytes in place, `offset` bytes into the first or second free span; nothing when
they do not fit there. -/
def fill? (r : Ring) (second : Bool) (offset : Nat) (bytes : List UInt8) : Option Ring :=
  let span := if second then r.free.2 else r.free.1
  if offset + bytes.length ≤ span.count * r.elementSize then some (r.store span offset bytes)
  else none

/-- Put whole elements in place, across both free spans: how many. -/
def copyFrom (r : Ring) (source : List UInt8) : Nat × Ring :=
  let elements := min (source.length / r.elementSize) r.writeView.size
  let bytes := elements * r.elementSize
  let head := min bytes r.writeView.first.length
  let (first, second) := r.free
  (elements,
    (r.store first 0 (source.take head)).store second 0 ((source.take bytes).drop head))

end RealtimeAudio.Ring
