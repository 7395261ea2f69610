import Stave.Proofs.Playback.Pumping

/-!
# Requests

Whatever is done with a session, from the first start on, is a sequence of requests, each of which is
answered and leaves the session as the next one finds it.  A run of a session serves requests one after
the other; it also notes what the session was last given to play and the windows of the blocks that it
has rendered of it.
-/

namespace Stave.Session

variable {σ : Type}

/-- What can be asked of a session. -/
inductive Request
  | start (composition : Composition) (registry : Registry) (bpm : Float) (looping : Bool)
      (volumes : Named Float) (voices : Named VoiceSettings)
  | feed
  | stop
  | setTempo (bpm : Float)
  | setVolume (channel : String) (db : Float)

/-- What a session answers. -/
inductive Answer
  | started (result : Except PlaybackError Started)
  | pumped (pumped : Pumped)
  | done (result : Except PlaybackError Unit)

/-- Answers a request. -/
def serve (behaviour : Sink σ) (s : Session σ) : Request → Answer × Session σ
  | .start composition registry bpm looping volumes voices =>
    let (result, s) := s.start behaviour composition registry bpm looping volumes voices
    (.started result, s)
  | .feed =>
    let (pumped, s) := s.feed behaviour
    (.pumped pumped, s)
  | .stop =>
    let (result, s) := s.stop behaviour
    (.done result, s)
  | .setTempo bpm =>
    let (result, s) := s.setTempo bpm
    (.done result, s)
  | .setVolume channel db => (.done (.ok ()), s.setVolume channel db)

/-- The composition that a request gives to play. -/
def Request.composition? : Request → Option Composition
  | .start composition .. => some composition
  | _ => none

/-- The window of the block that is sent when the session is pumped, if one is. -/
def window? (behaviour : Sink σ) (s : Session σ) : Option Window :=
  if s.isPlaying && !s.scheduler.isFinished s.finish
      && !decide (s.reserve ≤ behaviour.buffered s.sink) && Rendering.canPlay s.router s.nextBlock then
    some (s.scheduler.transport.move s.scheduler.blockSize).1
  else none

/-- A session and what it is busy with. -/
structure Course (σ : Type) where
  session : Session σ
  /-- The composition that it was given last. -/
  composition : Option Composition
  /-- The windows of the blocks that it has sent since. -/
  windows : List Window

namespace Course

/-- The course of a new session. -/
def new (sink : σ) (settings : AudioSettings) (source : Source) : Course σ :=
  { session := Session.new sink settings source, composition := none, windows := [] }

/-- Serves a request. -/
def serve (behaviour : Sink σ) (x : Course σ) (request : Request) : Course σ :=
  let session := (x.session.serve behaviour request).2
  match request with
  | .start composition .. => { session, composition := some composition, windows := [] }
  | .feed => { x with session, windows := x.windows ++ (x.session.window? behaviour).toList }
  | _ => { x with session }

/-- Serves requests one after the other. -/
def after (behaviour : Sink σ) (requests : List Request) (x : Course σ) : Course σ :=
  requests.foldl (serve behaviour) x

end Course

end Stave.Session
