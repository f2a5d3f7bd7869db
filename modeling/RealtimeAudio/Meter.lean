/-! A meter: one value that the audio thread sets and anyone may read or exchange.
Only the order of operations on it is modelled, so it is a plain cell. -/
namespace RealtimeAudio

structure Meter (α : Type) where
  value : α

namespace Meter
variable {α : Type}

def get (m : Meter α) : α := m.value

def set (_ : Meter α) (x : α) : Meter α := ⟨x⟩

/-- The old value, and the meter with the new one. -/
def swap (m : Meter α) (x : α) : α × Meter α := (m.value, ⟨x⟩)

end Meter

end RealtimeAudio
