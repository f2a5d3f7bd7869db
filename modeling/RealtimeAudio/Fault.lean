import RealtimeAudio.Text.Record

/-! What can go wrong when something is set up. Once a ring or a compressor stands, its
operations do not fail. -/
namespace RealtimeAudio

/-- The highest priority level that may be asked for: half of the scheduler's range. -/
def priorityLimit : UInt8 := 49

inductive Misconfiguration where
  | emptyRing (elements elementSize : Nat)
  | sampleRate (rate : Float)
  | priorityLevel (level : UInt8)

def Misconfiguration.reason : Misconfiguration → String
  | emptyRing elements elementSize =>
    "ring buffer needs a non-zero size (elements=" ++ Text.natural elements ++
      ", element_size=" ++ Text.natural elementSize ++ ")"
  | sampleRate rate =>
    "sample_rate " ++ String.ofList (Layout.message.writeDouble rate) ++
      " out of range (8000-384000 Hz)"
  | priorityLevel level =>
    "rt_priority_level " ++ Text.natural level.toNat ++ " above maximum " ++
      Text.natural priorityLimit.toNat

inductive Fault where
  | misconfigured (cause : Misconfiguration)
  | capacityOverflow (requested elementSize : Nat)
  | allocation (bytes : Nat)
  /-- The two handles belong to different rings. -/
  | foreignHandle
  | priority (reason : String)

namespace Fault

def message : Fault → String
  | misconfigured cause => "Invalid config: " ++ cause.reason
  | capacityOverflow requested elementSize =>
    "Ring buffer of " ++ Text.natural requested ++ " elements x " ++ Text.natural elementSize ++
      " bytes overflows the address space"
  | allocation bytes => "Failed to allocate " ++ Text.natural bytes ++ " bytes of ring buffer storage"
  | foreignHandle => "Producer and consumer belong to different ring buffers"
  | priority reason => "Thread priority: " ++ reason

def record : Fault → String
  | misconfigured cause => Text.wrapped "InvalidConfig" (Text.quoted cause.reason)
  | capacityOverflow requested elementSize =>
    Text.record "CapacityOverflow"
      [("requested", Text.natural requested), ("element_size", Text.natural elementSize)]
  | allocation bytes => Text.record "Allocation" [("bytes", Text.natural bytes)]
  | foreignHandle => "ForeignHandle"
  | priority reason => Text.wrapped "Priority" (Text.quoted reason)

end Fault

end RealtimeAudio
