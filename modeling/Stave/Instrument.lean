import Stave.Sample.Recording
import Stave.Sound.Bass
import Stave.Sound.Patch
import Stave.Sound.Pluck
import Stave.Time.Scheduler

/-!
# Instruments

An instrument turns an event into sound.  Sound may go on after the event has ended.
-/

namespace Stave

/-- The instruments that channels are played on. -/
inductive Instrument
  | patch (name : String) (patch : Patch)
  | bass (bass : Bass)
  | pluck (pluck : Pluck)
  /-- Plays the recording that has the name of the event's channel. -/
  | drumKit (bank : Bank)

namespace Instrument

/-- What an instrument is called. -/
def name : Instrument → String
  | patch name _ => name
  | bass _ => "bass"
  | pluck _ => "pluck"
  | drumKit _ => "drum_kit"

/-- The pitches of an event that can be sounded. -/
def pitches (e : NoteEvent) : List Nat := e.notes.filterMap Note.pitchNumber?

/-- The cutoff of the filter that a note passes, if there is one. -/
def cutoff? : Instrument → Option Float
  | patch _ p => p.cutoff
  | bass b => some b.cutoff
  | pluck _ => none
  | drumKit _ => none

/-- Whether the sample rate leaves room for the filter that the event has to pass. -/
def hasFilter (i : Instrument) (e : NoteEvent) (sampleRate : Nat) : Bool :=
  i.cutoff?.isNone || (pitches e).isEmpty || Lowpass.existsAt sampleRate

/-- Whether an instrument finds something to sound in an event. -/
def sounds (i : Instrument) (e : NoteEvent) (sampleRate : Nat) : Bool :=
  match i with
  | patch _ _ => !(pitches e).isEmpty
  | bass _ => !(pitches e).isEmpty
  | pluck p => !(p.strings (pitches e) sampleRate).isEmpty
  | drumKit bank => (Named.get? e.instrument bank).isSome

/-- The frames that the sound of an event is to have: those of the note and of what comes after it, or
those of a recording. -/
def frames (i : Instrument) (e : NoteEvent) (sampleRate : Nat) (bpm : Float) : Nat :=
  let held (tail : Float) : Nat :=
    Scalar.toNat ((e.duration.toSeconds bpm + tail) * Scalar.ofNat sampleRate)
  if i.sounds e sampleRate then
    match i with
    | patch _ p => held p.envelope.release
    | bass b => held b.envelope.release
    | pluck p => held p.ring
    | drumKit bank => ((Named.get? e.instrument bank).map fun r => r.samples.length).getD 0
  else 0

/-- Whether there can be room for the sound of an event on all channels. -/
def hasRoom (i : Instrument) (e : NoteEvent) (sampleRate channels : Nat) (bpm : Float) : Bool :=
  decide (i.frames e sampleRate bpm * channels < Mix.tooManySamples)

/-- Whether an instrument can play an event.  Channels and tempo are the standard ones if none are
given. -/
def canPlay (i : Instrument) (e : NoteEvent) (sampleRate : Nat) (channels : Nat := 2)
    (bpm : Float := 120.0) : Bool :=
  i.hasFilter e sampleRate && i.hasRoom e sampleRate channels bpm

/-- The sound of an event for one channel. -/
def sound (i : Instrument) (e : NoteEvent) (sampleRate : Nat) (bpm : Float) : List Float32 :=
  let duration := e.duration.toSeconds bpm
  match i with
  | patch _ p =>
    match pitches e with
    | [] => []
    | pitches => p.sound (pitches.map Tuning.frequency) e.velocity duration sampleRate
  | bass b =>
    match (pitches e).min? with
    | none => []
    | some lowest => b.sound (Tuning.frequency lowest) e.velocity duration sampleRate
  | pluck p => p.sound (pitches e) e.velocity duration sampleRate
  | drumKit bank =>
    match Named.get? e.instrument bank with
    | none => []
    | some recording => recording.samples.map (· * e.velocity)

/-- The sound of an event, the same on all channels. -/
def render (i : Instrument) (e : NoteEvent) (context : Conditions Float) : List Float32 :=
  Mix.spread context.channels (i.sound e context.sampleRate context.bpm)

end Instrument

end Stave
