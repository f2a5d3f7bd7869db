import RealtimeAudio.Fault
import RealtimeAudio.Json.Codec

/-! Settings shared by the real-time stages of an engine: a sample rate and the thread
priority to ask for. Any pair of values can be held and read; `check` says whether an
engine may run with it. -/
namespace RealtimeAudio

structure EngineSettings where
  sampleRate : Float
  /-- 0 leaves the scheduling alone. -/
  priorityLevel : UInt8
deriving BEq

namespace EngineSettings

def standard : EngineSettings := ⟨44100.0, 1⟩

/-- The sample rate is looked at first. -/
def check (s : EngineSettings) : Except Fault Unit :=
  if ¬(8000.0 ≤ s.sampleRate ∧ s.sampleRate ≤ 384000.0) then
    throw (.misconfigured (.sampleRate s.sampleRate))
  else if priorityLimit < s.priorityLevel then
    throw (.misconfigured (.priorityLevel s.priorityLevel))
  else return

def fields : Json.Fields EngineSettings :=
  .field "sample_rate" .double (·.sampleRate) (fun x s => { s with sampleRate := x }) <|
  .field "rt_priority_level" (.natural 255) (·.priorityLevel.toNat)
    (fun n s => { s with priorityLevel := .ofNat n })
  .none

def kind : Json.Kind EngineSettings := .record fields standard

def ofJson [Json.Codec] (text : String) : Except Json.ReadError EngineSettings :=
  Json.Codec.read kind text.toList

def toJson [Json.Codec] (s : EngineSettings) : String :=
  String.ofList (Json.Codec.write kind s)

def record (s : EngineSettings) : String :=
  Text.record "EngineConfig"
    [("sample_rate", Text.double s.sampleRate),
     ("rt_priority_level", Text.natural s.priorityLevel.toNat)]

end EngineSettings

end RealtimeAudio
