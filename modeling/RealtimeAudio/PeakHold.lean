import RealtimeAudio.Decibel

/-! Peak hold: the maximum of the last `length` samples. The samples that can still
become the maximum are kept in a circular store, from `front`, the maximum, to
`back`, the latest sample, in descending order. A new sample drops every entry it
reaches, so each sample enters and leaves once. Positions count from the start of
the current block; `shift` rebases the stored expiries when a block ends. -/
namespace RealtimeAudio

/-- A place in the circular store. -/
abbrev Slot := Fin blockLimit

namespace Slot

def first : Slot := ⟨0, by decide⟩

/-- The place after `s`; the first follows the last. -/
def next (s : Slot) : Slot := ⟨(s.val + 1) % blockLimit, Nat.mod_lt _ (by decide)⟩

def previous (s : Slot) : Slot :=
  ⟨(s.val + (blockLimit - 1)) % blockLimit, Nat.mod_lt _ (by decide)⟩

end Slot

structure PeakHold (α : Type) where
  values : Vector α blockLimit
  /-- The position at which the entry leaves the window. -/
  expiries : Vector Nat blockLimit
  back : Slot
  front : Slot
  length : Nat

namespace PeakHold
variable {α : Type} [Arithmetic α]

/-- A hold of at least two samples, the newest of which must outlive its own
position, and of fewer than a block, so that the store never fills. -/
def new (length : Nat) : PeakHold α :=
  let length := max 2 (min (blockLimit - 1) length)
  { values := (Vector.replicate blockLimit 0.0).set Slot.first Arithmetic.bottom
    expiries := (Vector.replicate blockLimit 0).set Slot.first length
    back := .first
    front := .first
    length }

def peak (h : PeakHold α) : α := h.values.get h.front

/-- The entry at `s` is now the latest. -/
def place (h : PeakHold α) (s : Slot) (expiry : Nat) (x : α) : PeakHold α :=
  { h with values := h.values.set s x, expiries := h.expiries.set s expiry, back := s }

/-- Going back from `s`, the nearest entry that `x` does not reach. Nothing if every
entry of the store is reached: the search would go round for ever. -/
def survivor? (h : PeakHold α) (x : α) : (steps : Nat) → (s : Slot) → Option Slot
  | 0, _ => none
  | steps + 1, s => if h.values.get s ≤ x then h.survivor? x steps (Slot.previous s) else some s

/-- The maximum steps aside when its time is over at position `i`. -/
def expire (h : PeakHold α) (i : Nat) : PeakHold α :=
  if h.expiries.get h.front ≤ i then { h with front := Slot.next h.front } else h

/-- Take in sample `x` at position `i` of the block; the window's maximum is then
`peak`. -/
def update? (h : PeakHold α) (i : Nat) (x : α) : Option (PeakHold α) :=
  let h := h.expire i
  if h.peak ≤ x then some (h.place h.front (i + h.length) x)
  else (h.survivor? x blockLimit h.back).map fun s => h.place (Slot.next s) (i + h.length) x

/-- The places from `front` to `back`, wrapping past the last. -/
def live (h : PeakHold α) (s : Slot) : Bool :=
  if h.back < h.front then h.front ≤ s || s ≤ h.back else h.front ≤ s && s ≤ h.back

/-- Rebase the live expiries after a block of `n` samples. -/
def shift (h : PeakHold α) (n : Nat) : PeakHold α :=
  { h with
    expiries := .ofFn fun s => if h.live s then h.expiries.get s - n else h.expiries.get s }

/-- The maxima at successive positions of a block, the first of them `i`. -/
def updates? (h : PeakHold α) (i : Nat) : List α → Option (PeakHold α × List α)
  | [] => some (h, [])
  | x :: xs => do
    let h ← h.update? i x
    let (last, peaks) ← h.updates? (i + 1) xs
    return (last, h.peak :: peaks)

/-- One whole block: its maxima, and the hold rebased for the next block. -/
def block? (h : PeakHold α) (xs : List α) : Option (PeakHold α × List α) := do
  let (h, peaks) ← h.updates? 0 xs
  return (h.shift xs.length, peaks)

def blocks? (h : PeakHold α) : List (List α) → Option (PeakHold α × List α)
  | [] => some (h, [])
  | xs :: rest => do
    let (h, peaks) ← h.block? xs
    let (last, more) ← h.blocks? rest
    return (last, peaks ++ more)

end PeakHold

end RealtimeAudio
