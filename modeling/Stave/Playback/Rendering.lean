import Stave.Output.Limiter
import Stave.Playback.Failure
import Stave.Playback.Preparation
import Stave.Time.Scheduler
import Stave.Wav.Encode

/-!
# Rendering to a file

A rendering plays a composition once, from the first beat to the last and for some time beyond, and
writes what is heard as a file.
-/

namespace Stave

/-- A composition as a file. -/
structure Rendering where
  file : List UInt8
  frames : Nat
  /-- The channels that are silent because their recordings could not be loaded. -/
  failed : List String

namespace Rendering

/-- The frames of a rendering; a part of a frame at the end is left out. -/
def frameCount (length : Ticks) (bpm : Float) (settings : AudioSettings) : Nat :=
  Scalar.toNat ((length.toSeconds bpm + Scalar.orZero settings.tail)
    * Scalar.ofNat settings.sampleRate)

/-- A scheduler that plays prepared events from the start. -/
def scheduler (events : List NoteEvent) (bpm : Float) (settings : AudioSettings) :
    Scheduler Float Float32 :=
  ((Scheduler.new bpm settings.sampleRate settings.channels (max settings.blockSize 1)).load
    events).play

/-- The first blocks of a scheduler that is playing. -/
def blocks (router : Router) (scheduler : Scheduler Float Float32) (count : Nat) :
    List (Block Float Float32) :=
  (Mix.generate (fun (s : Scheduler Float Float32) _ => s.nextBlock router.render) count
    scheduler).filterMap id

/-- Whether the events of a block can be played. -/
def canPlay (router : Router) (block : Block Float Float32) : Bool :=
  block.onsets.all fun onset =>
    router.canPlay onset.event block.context.sampleRate block.context.channels block.context.bpm

/-- What is wrong with a block that cannot be played: an event of it lacks its filter, or else the sound
of one is too long. -/
def fault (router : Router) (block : Block Float Float32) : PlaybackError :=
  if block.onsets.all fun onset => router.hasFilter onset.event block.context.sampleRate then .tooLong
  else .unfilterable

/-- What is heard of a prepared composition, before it is limited.  As many blocks are rendered as it
takes to fill all frames. -/
def unlimited (prepared : Preparation) (bpm : Float) (settings : AudioSettings) (frames : Nat) :
    Except PlaybackError (List Float32) :=
  let total := Mix.sampleCount frames settings.channels
  if Mix.tooManySamples ≤ total then throw .tooLong
  else
    let scheduler := scheduler prepared.events bpm settings
    let count := (total + scheduler.blockSamples - 1) / scheduler.blockSamples
    let blocks := blocks prepared.router scheduler count
    match blocks.find? fun block => !canPlay prepared.router block with
    | none => pure ((blocks.flatMap Block.samples).take total)
    | some block => throw (fault prepared.router block)

/-- Renders a composition. -/
def ofComposition (composition : Composition) (registry : Registry) (bpm : Float)
    (volumes : Named Float) (voices : Named VoiceSettings) (settings : AudioSettings)
    (source : Source) : Except PlaybackError Rendering := do
  if composition.isEmpty then throw .nothingToRender
  requireTempo bpm
  let prepared := Preparation.ofComposition composition registry volumes voices settings source
  let frames := frameCount composition.length bpm settings
  let samples ← unlimited prepared bpm settings frames
  let (limited, _) := (Limiter.standard settings.sampleRate).process settings.channels samples
  let file ← (Wav.encode limited settings.sampleRate settings.channels).mapError .wav
  return { file, frames, failed := prepared.failed }

end Rendering

end Stave
