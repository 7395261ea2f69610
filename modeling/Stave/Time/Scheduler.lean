import Stave.Mix.Overlay
import Stave.Mix.Stream
import Stave.Time.Timeline
import Stave.Time.Transport

/-!
# The scheduler

The scheduler cuts playback into blocks of equal size.  For each block it moves the clock, takes the
events that start in the block from the timeline, has each one noticed and rendered and adds the
sounds together from their onsets on.  What sounds beyond the block is kept as a tail and heard in
the blocks after it.  When a loop is set, the block that reaches its end continues with the start of
the timeline.
-/

namespace Stave

/-- What a renderer is told besides the event. -/
structure Conditions (α : Type) where
  sampleRate : Nat
  channels : Nat
  bpm : α

/-- An event that starts in a block. -/
structure Onset (α : Type) where
  event : NoteEvent
  /-- Frames from the start of the block to the start of the event. -/
  frame : Nat
  /-- Seconds from the start of playing to the start of the event. -/
  seconds : α

/-- The onsets of events in a window, from their distances to its start.  The frames of an onset are
counted from the start of playing by a word, as those of a window are. -/
def Window.onsets {α : Type} [Scalar α] (w : Window) (context : Conditions α)
    (events : List (NoteEvent × Ticks)) : List (Onset α) :=
  events.map fun (event, offset) =>
    let frame := offset.toFrames context.bpm context.sampleRate
    { event, frame,
      seconds :=
        Scalar.ofNat (w.played + UInt64.ofNat frame).toNat / Scalar.ofNat context.sampleRate }

/-- What a scheduler plays through, with states in `σ`. -/
structure Performer (σ α β : Type) where
  /-- Is told of an event, before it is rendered. -/
  notice : Onset α → σ → σ
  /-- Renders an event to interleaved samples. -/
  render : NoteEvent → Conditions α → σ → List β × σ

namespace Performer

variable {σ α β : Type} [Add β] [Zero β]

/-- A performer that only renders, each time in the same way. -/
def ofRender (render : NoteEvent → Conditions α → List β) : Performer Unit α β :=
  { notice := fun _ state => state, render := fun event context state => (render event context, state) }

/-- Has events noticed and rendered one after the other, and adds each sound to what sounds. -/
def perform (p : Performer σ α β) (context : Conditions α) (onsets : List (Onset α))
    (sounding : List β) (state : σ) : List β × σ :=
  onsets.foldl
    (fun (mixed, state) onset =>
      let (sound, state) := p.render onset.event context (p.notice onset state)
      (Mix.overlay mixed (Mix.sampleCount onset.frame context.channels) sound, state))
    (sounding, state)

end Performer

/-- One block of playback. -/
structure Block (α β : Type) where
  /-- Interleaved samples, one per channel for each frame. -/
  samples : List β
  /-- The events that start in the block, in the order in which they are rendered. -/
  onsets : List (Onset α)
  context : Conditions α

/-- Playback of one timeline.  Times are measured in `α`, samples are values of `β`. -/
structure Scheduler (α β : Type) where
  timeline : Timeline
  transport : Transport α
  channels : Nat
  /-- Frames in a block. -/
  blockSize : Nat
  /-- Samples that sound beyond the blocks rendered so far. -/
  tail : List β
  /-- The length of the loop; without one the timeline is played once. -/
  loopLength : Option Ticks

namespace Scheduler

variable {α β : Type} [Scalar α] [Add β] [Zero β]

/-- A stopped scheduler without events. -/
def new (bpm : α) (sampleRate channels blockSize : Nat) : Scheduler α β :=
  { timeline := Timeline.empty, transport := Transport.new bpm sampleRate, channels, blockSize,
    tail := [], loopLength := none }

/-- Starts from where the clock stands. -/
def play (s : Scheduler α β) : Scheduler α β := { s with transport := s.transport.play }

/-- Stops at the start and silences what sounds. -/
def stop (s : Scheduler α β) : Scheduler α β :=
  { s with transport := s.transport.stop, timeline := s.timeline.rewind, tail := [] }

/-- Replaces all events; the clock goes to the start and nothing sounds on. -/
def load (s : Scheduler α β) (events : List NoteEvent) : Scheduler α β :=
  { s with timeline := Timeline.ofEvents events, transport := s.transport.rewind, tail := [] }

/-- Sets the length of the loop.  A loop without length is no loop. -/
def setLoop (s : Scheduler α β) (length : Option Ticks) : Scheduler α β :=
  { s with loopLength := length.filter fun l => decide (Ticks.zero < l) }

/-- The tempo from the next block on.  What sounds already keeps its length. -/
def setTempo (s : Scheduler α β) (bpm : α) : Scheduler α β :=
  { s with transport := s.transport.setTempo bpm }

/-- Whether playing once has passed `finish`, every event has been rendered and every sound has
ended. -/
def isFinished (s : Scheduler α β) (finish : Ticks) : Bool :=
  s.loopLength.isNone && decide (finish ≤ s.transport.position) && s.timeline.unread.isEmpty
    && s.tail.isEmpty

/-- Samples in a block. -/
def blockSamples (s : Scheduler α β) : Nat := s.blockSize * s.channels

/-- The events that start in a window, each with its distance from the start of the window, and the
timeline and clock behind the window.  A window that reaches the end of the loop goes on at the top
of the timeline. -/
def due (s : Scheduler α β) (window : Window) :
    List (NoteEvent × Ticks) × Timeline × Transport α :=
  match s.loopLength.filter fun length => decide (length ≤ window.finish) with
  | none =>
    let (events, timeline) := s.timeline.drain window.start window.finish
    (events.map fun e => (e, e.beat - window.start), timeline, s.transport)
  | some length =>
    let (before, timeline) := s.timeline.drain window.start length
    let head := length - window.start
    let wrapped := (window.finish - length).wrap length
    let (after, timeline) := timeline.rewind.drain Ticks.zero wrapped
    (before.map (fun e => (e, e.beat - window.start)) ++ after.map (fun e => (e, head + e.beat)),
      timeline, s.transport.seek wrapped)

/-- Plays the next block through a performer; a stopped scheduler has none. -/
def performBlock {σ : Type} (s : Scheduler α β) (performer : Performer σ α β) (state : σ) :
    Option (Block α β) × Scheduler α β × σ :=
  match s.transport.advance s.blockSize with
  | (none, _) => (none, s, state)
  | (some window, transport) =>
    let (events, timeline, transport) := { s with transport }.due window
    let context : Conditions α := ⟨transport.sampleRate, s.channels, transport.bpm⟩
    let onsets := window.onsets context events
    let (mixed, state) := performer.perform context onsets s.tail state
    (some ⟨Mix.takeOrSilence s.blockSamples mixed, onsets, context⟩,
      { s with timeline, transport, tail := mixed.drop s.blockSamples }, state)

/-- Renders the next block; a stopped scheduler has none. -/
def nextBlock (s : Scheduler α β) (render : NoteEvent → Conditions α → List β) :
    Option (Block α β) × Scheduler α β :=
  let (block, s, _) := s.performBlock (Performer.ofRender render) ()
  (block, s)

end Scheduler

end Stave
