import RealtimeAudio.Arithmetic

/-! Levels on three scales: linear amplitude, decibels, and natural-log units, in
which the gain computer works. Times become smoothing coefficients and block counts
here too. -/
namespace RealtimeAudio

/-- The most samples one call handles. -/
def blockLimit : Nat := 1024

namespace Level
variable {α : Type} [Arithmetic α] [Elementary α]
open Arithmetic Elementary

/-- No logarithm is taken of anything smaller. -/
def amplitudeFloor : α := 0.000001

def lnPerDecibel : α := lnTen / 20.0

def decibelToAmplitude (x : α) : α := tenTo (x / 20.0)

/-- Decibels of an amplitude, which is raised to the floor first. -/
def amplitudeToDecibel (x : α) : α := 20.0 * log10 (larger x amplitudeFloor)

def decibelToLog (x : α) : α := x * lnPerDecibel

def logToDecibel (x : α) : α := x / lnPerDecibel

def amplitudeToLog (x : α) : α := ln (larger x amplitudeFloor)

end Level

namespace Time
variable {α : Type} [Arithmetic α] [Elementary α]

/-- The one-pole coefficient whose time constant is `samples`. -/
def smoothing (samples : α) : α := Elementary.exp (-1.0 / samples)

/-- A time as a whole number of samples that fits inside one block. -/
def blockSamples (seconds rate : α) : Nat :=
  Arithmetic.wholeUpTo (blockLimit - 1) (seconds * rate)

end Time

end RealtimeAudio
