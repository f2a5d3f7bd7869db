import RealtimeAudio.Compressor
import RealtimeAudio.Text.Record

/-! The one-line texts of a compressor and of its hold. -/
namespace RealtimeAudio

def PeakHold.record (h : PeakHold Float32) : String :=
  Text.record "SlidingHold"
    [("length", Text.natural h.length), ("lower", Text.natural h.back.val),
     ("upper", Text.natural h.front.val), ("peak", Text.single h.peak)]

def Compressor.record (c : Compressor Float32) : String :=
  let p := c.parameters
  Text.partialRecord "Compressor"
    [("channels", Text.natural p.channels),
     ("look_ahead", Text.natural p.lookAhead),
     ("hold", Text.option (c.hold.map fun h => Text.natural h.length)),
     ("auto", p.auto.record),
     ("threshold", Text.single p.threshold),
     ("slope", Text.single p.slope),
     ("knee", Text.single p.knee),
     ("attack", Text.single p.attack),
     ("release", Text.single p.release)]

end RealtimeAudio
