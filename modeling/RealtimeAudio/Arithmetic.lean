/-! The arithmetic of samples and levels. The signal path is written once over
these two classes: with binary32 numbers it is the program that runs, and over an
exact ordered field it is the recurrence the program approximates. `Elementary` is
kept apart because binary32 leaves the last bit of `exp` and `ln` open, so facts
about the rounded path can be stated for whatever those functions return. -/
namespace RealtimeAudio

/-- Field operations, comparisons and the few conversions the signal path uses. -/
class Arithmetic (α : Type) extends Add α, Sub α, Mul α, Div α, Neg α, LE α, LT α,
    OfScientific α where
  decideLe : DecidableLE α
  decideLt : DecidableLT α
  magnitude : α → α
  /-- The natural logarithm of ten, as a constant. -/
  lnTen : α
  /-- A value below every level, held by a window that has seen nothing. -/
  bottom : α
  /-- The nearest whole number, halves away from zero, brought into `0 .. limit`;
  a value that is not a number counts as 0. -/
  wholeUpTo : (limit : Nat) → α → Nat

instance Arithmetic.decidableLE {α : Type} [Arithmetic α] : DecidableLE α :=
  Arithmetic.decideLe

instance Arithmetic.decidableLT {α : Type} [Arithmetic α] : DecidableLT α :=
  Arithmetic.decideLt

class Elementary (α : Type) where
  exp : α → α
  ln : α → α
  log10 : α → α
  tenTo : α → α

namespace Arithmetic
variable {α : Type} [Arithmetic α]

/-- The larger of two values. A value that is not a number loses, and of two equal
values the second is kept, so that raising to `0.0` leaves no negative zero. -/
def larger (x y : α) : α :=
  if y ≤ y then if y < x then x else y else x

def clamp (low high x : α) : α :=
  if x < low then low else if high < x then high else x

def mix (a b t : α) : α :=
  a + t * (b - a)

end Arithmetic

end RealtimeAudio
