/-!
# Settings of a voice

A song document can change how a channel's instrument sounds.  What it does not set stays as the
instrument has it.
-/

namespace Stave

/-- The shapes of an oscillator. -/
inductive Waveform
  | sine | square | sawtooth | triangle
deriving DecidableEq, Repr

namespace Waveform

/-- Reads the name of a shape. -/
def ofName? : String → Option Waveform
  | "sine" => some sine
  | "square" => some square
  | "sawtooth" => some sawtooth
  | "saw" => some sawtooth
  | "triangle" => some triangle
  | _ => none

/-- The name of a shape. -/
def name : Waveform → String
  | sine => "sine"
  | square => "square"
  | sawtooth => "sawtooth"
  | triangle => "triangle"

end Waveform

/-- What a song sets for a channel. -/
structure VoiceSettings where
  oscillator : Option Waveform
  /-- Seconds. -/
  attack : Option Float
  /-- Seconds. -/
  decay : Option Float
  /-- A level between zero and one. -/
  sustain : Option Float
  /-- Seconds. -/
  release : Option Float
  /-- The cutoff of the low-pass filter in hertz. -/
  cutoff : Option Float
  /-- The resonance of the low-pass filter. -/
  resonance : Option Float
deriving Repr

namespace VoiceSettings

/-- Nothing set. -/
def none : VoiceSettings :=
  ⟨Option.none, Option.none, Option.none, Option.none, Option.none, Option.none, Option.none⟩

/-- Whether nothing is set. -/
def isEmpty (s : VoiceSettings) : Bool :=
  s.oscillator.isNone && s.attack.isNone && s.decay.isNone && s.sustain.isNone
    && s.release.isNone && s.cutoff.isNone && s.resonance.isNone

end VoiceSettings

end Stave
