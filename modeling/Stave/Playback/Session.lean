import Stave.Playback.Rendering

/-!
# Live sessions

A session plays compositions into a sink, one at a time.  It renders a few blocks ahead of what the
sink has played, so that changes of tempo and volume are heard soon.
-/

namespace Stave

/-- Live playback into a sink with states in `σ`. -/
structure Session (σ : Type) where
  sink : σ
  settings : AudioSettings
  source : Source
  scheduler : Scheduler Float Float32
  router : Router
  /-- The length of what is played. -/
  finish : Ticks

/-- What a session has started to play. -/
structure Started where
  total : Ticks
  /-- The channels that stay silent because their recordings could not be loaded. -/
  failed : List String

/-- What came of giving a sink the next block. -/
structure Pumped where
  /-- Whether there is more to come. -/
  result : Except PlaybackError Bool
  /-- The events that start in the block, heard or not. -/
  onsets : List (Onset Float)

namespace Session

variable {σ : Type}

/-- A session that plays nothing. -/
def new (sink : σ) (settings : AudioSettings) (source : Source) : Session σ :=
  { sink, settings, source
    scheduler :=
      Scheduler.new 120.0 settings.sampleRate settings.channels (max settings.blockSize 1)
    router := Router.empty
    finish := Ticks.zero }

/-- Whether something is being played. -/
def isPlaying (s : Session σ) : Bool := s.scheduler.transport.playing

/-- Where in the composition the session is. -/
def position (s : Session σ) : Ticks := s.scheduler.transport.position

/-- The tempo. -/
def bpm (s : Session σ) : Float := s.scheduler.transport.bpm

/-- The blocks that are rendered ahead of the sink. -/
def reserveBlocks : Nat := 4

/-- The samples that a sink should have waiting. -/
def reserve (s : Session σ) : Nat := s.settings.blockSize * s.settings.channels * reserveBlocks

/-- Stops at once.  The session is stopped even where the sink refuses. -/
def stop (behaviour : Sink σ) (s : Session σ) : Except PlaybackError Unit × Session σ :=
  let (answer, sink) := behaviour.stop s.sink
  (answer.mapError .sink, { s with sink, scheduler := s.scheduler.stop })

/-- Starts to play a composition instead of what was played before. -/
def start (behaviour : Sink σ) (s : Session σ) (composition : Composition) (registry : Registry)
    (bpm : Float) (looping : Bool) (volumes : Named Float) (voices : Named VoiceSettings) :
    Except PlaybackError Started × Session σ :=
  let (stopped, s) := s.stop behaviour
  let accepted : Except PlaybackError Unit := do
    stopped
    if composition.isEmpty then throw .nothingToRender
    requireTempo bpm
  match accepted with
  | .error e => (.error e, s)
  | .ok () =>
    let prepared :=
      Preparation.ofComposition composition registry volumes voices s.settings s.source
    let loop := if looping then some composition.length else none
    let scheduler := (((s.scheduler.load prepared.events).setLoop loop).setTempo bpm).play
    (.ok { total := composition.length, failed := prepared.failed },
      { s with router := prepared.router, finish := composition.length, scheduler })

/-- Renders the next block and sends it, unless the sink has enough.  Playing once ends after the last
sound. -/
def feed (behaviour : Sink σ) (s : Session σ) : Pumped × Session σ :=
  if !s.isPlaying then (⟨.ok false, []⟩, s)
  else if s.scheduler.isFinished s.finish then
    (⟨.ok false, []⟩, { s with scheduler := s.scheduler.stop })
  else if s.reserve ≤ behaviour.buffered s.sink then (⟨.ok true, []⟩, s)
  else
    match s.scheduler.nextBlock s.router.render with
    | (none, _) => (⟨.ok false, []⟩, s)
    | (some block, scheduler) =>
      if Rendering.canPlay s.router block then
        let (answer, sink) := behaviour.send block.samples s.sink
        (⟨(answer.mapError .sink).map fun _ => true, block.onsets⟩, { s with scheduler, sink })
      else (⟨.error (Rendering.fault s.router block), []⟩, s)

/-- Changes the tempo.  What sounds keeps its length. -/
def setTempo (s : Session σ) (bpm : Float) : Except PlaybackError Unit × Session σ :=
  match requireTempo bpm with
  | .error e => (.error e, s)
  | .ok () => (.ok (), { s with scheduler := s.scheduler.setTempo bpm })

/-- Changes the volume of a channel, heard from the next event on. -/
def setVolume (s : Session σ) (channel : String) (db : Float) : Session σ :=
  { s with router := s.router.setVolume channel db }

end Session

end Stave
