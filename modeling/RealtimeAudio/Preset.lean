import RealtimeAudio.Arithmetic.Single
import RealtimeAudio.Json.Codec
import RealtimeAudio.Text.Record

/-! Presets: what a compressor is built from. Times are in seconds and levels in
decibels. A preset may hold any values, since building brings them into range. -/
namespace RealtimeAudio

/-- The automatic parts of the gain computer, each on its own switch. -/
structure Automation where
  /-- Knee width from the gain deviation; the stage then limits. -/
  knee : Bool
  /-- Attack time by the crest factor. -/
  attack : Bool
  /-- Release time by the crest factor. -/
  release : Bool
  /-- Make-up gain from the gain deviation. -/
  postGain : Bool
  /-- More deviation where the output would still clip. -/
  declip : Bool
deriving DecidableEq, Repr

namespace Automation

def off : Automation := ⟨false, false, false, false, false⟩

def on : Automation := ⟨true, true, true, true, true⟩

/-- The switches as the gain computer sees them: declipping works through the make-up
gain, and not without it. -/
def effective (a : Automation) : Automation := { a with declip := a.declip && a.postGain }

def usesCrest (a : Automation) : Bool := a.attack || a.release

def fields : Json.Fields Automation :=
  .field "knee" .bool (·.knee) (fun b a => { a with knee := b }) <|
  .field "attack" .bool (·.attack) (fun b a => { a with attack := b }) <|
  .field "release" .bool (·.release) (fun b a => { a with release := b }) <|
  .field "post_gain" .bool (·.postGain) (fun b a => { a with postGain := b }) <|
  .field "declip" .bool (·.declip) (fun b a => { a with declip := b })
  .none

def kind : Json.Kind Automation := .record fields off

def record (a : Automation) : String :=
  Text.record "AutoFlags"
    [("knee", Text.bool a.knee), ("attack", Text.bool a.attack),
     ("release", Text.bool a.release), ("post_gain", Text.bool a.postGain),
     ("declip", Text.bool a.declip)]

end Automation

structure Preset (α : Type) where
  channels : Nat
  sampleRate : α
  auto : Automation
  lookAheadSeconds : α
  holdSeconds : α
  preGainDb : α
  postGainDb : α
  thresholdDb : α
  ratio : α
  kneeDb : α
  attackSeconds : α
  releaseSeconds : α
deriving BEq

namespace Preset

/-- Four to one above -20 dB on two channels, with nothing automatic. -/
def standard : Preset Float32 where
  channels := 2
  sampleRate := 44100.0
  auto := .off
  lookAheadSeconds := 0.0
  holdSeconds := 0.0
  preGainDb := 0.0
  postGainDb := 0.0
  thresholdDb := -20.0
  ratio := 4.0
  kneeDb := 0.0
  attackSeconds := 0.005
  releaseSeconds := 0.1

/-- An output limiter just under full scale: everything automatic, and the largest
finite ratio, which JSON can still hold. -/
def limiter (channels : Nat) (sampleRate : Float32) : Preset Float32 where
  channels
  sampleRate
  auto := .on
  lookAheadSeconds := 0.001
  holdSeconds := 0.002
  preGainDb := 0.0
  postGainDb := 0.0
  thresholdDb := -0.00017
  ratio := .ofBits 0x7f7fffff
  kneeDb := 0.0
  attackSeconds := 0.02
  releaseSeconds := 0.2

def fields : Json.Fields (Preset Float32) :=
  .field "channels" (.natural (UInt64.size - 1)) (·.channels)
    (fun n p => { p with channels := n }) <|
  .field "sample_rate" .single (·.sampleRate) (fun x p => { p with sampleRate := x }) <|
  .field "auto" Automation.kind (·.auto) (fun a p => { p with auto := a }) <|
  .field "look_ahead_seconds" .single (·.lookAheadSeconds)
    (fun x p => { p with lookAheadSeconds := x }) <|
  .field "hold_seconds" .single (·.holdSeconds) (fun x p => { p with holdSeconds := x }) <|
  .field "pre_gain_db" .single (·.preGainDb) (fun x p => { p with preGainDb := x }) <|
  .field "post_gain_db" .single (·.postGainDb) (fun x p => { p with postGainDb := x }) <|
  .field "threshold_db" .single (·.thresholdDb) (fun x p => { p with thresholdDb := x }) <|
  .field "ratio" .single (·.ratio) (fun x p => { p with ratio := x }) <|
  .field "knee_db" .single (·.kneeDb) (fun x p => { p with kneeDb := x }) <|
  .field "attack_seconds" .single (·.attackSeconds)
    (fun x p => { p with attackSeconds := x }) <|
  .field "release_seconds" .single (·.releaseSeconds)
    (fun x p => { p with releaseSeconds := x })
  .none

/-- What is not given is standard. -/
def kind : Json.Kind (Preset Float32) := .record fields standard

def ofJson [Json.Codec] (text : String) : Except Json.ReadError (Preset Float32) :=
  Json.Codec.read kind text.toList

def toJson [Json.Codec] (p : Preset Float32) : String :=
  String.ofList (Json.Codec.write kind p)

def record (p : Preset Float32) : String :=
  Text.record "CompressorSettings"
    [("channels", Text.natural p.channels),
     ("sample_rate", Text.single p.sampleRate),
     ("auto", p.auto.record),
     ("look_ahead_seconds", Text.single p.lookAheadSeconds),
     ("hold_seconds", Text.single p.holdSeconds),
     ("pre_gain_db", Text.single p.preGainDb),
     ("post_gain_db", Text.single p.postGainDb),
     ("threshold_db", Text.single p.thresholdDb),
     ("ratio", Text.single p.ratio),
     ("knee_db", Text.single p.kneeDb),
     ("attack_seconds", Text.single p.attackSeconds),
     ("release_seconds", Text.single p.releaseSeconds)]

end Preset

end RealtimeAudio
