import Stave.Proofs.Playback.Gathering
import Stave.Proofs.Playback.Requests

/-!
# What a pump delivers

A session that is pumped sends its sink one block or none.  What it sends is known from a sink that
behaves like the one in use and also keeps a list.  While a session plays and its sink has nothing
left to play, each pump sends a block and moves the clock on, as long as blocks have frames; with
blocks of no frames the session says for ever that there is more to come, and never sends any of it.
-/

namespace Stave

/-- A block that was sent to a sink. -/
structure Delivery where
  samples : List Float32
  /-- Whether the sink took it. -/
  taken : Bool

/-- A sink that behaves like another one and notes what it is sent, the latest last. -/
def Sink.noting {σ : Type} (behaviour : Sink σ) : Sink (σ × List Delivery) where
  send block state :=
    let (answer, sink) := behaviour.send block state.1
    (answer, sink, state.2 ++ [⟨block, answer.isOk⟩])
  stop state :=
    let (answer, sink) := behaviour.stop state.1
    (answer, sink, state.2)
  buffered state := behaviour.buffered state.1

namespace Session

variable {σ : Type}

/-- The session with its sink in another state, or with another kind of sink. -/
def onto {τ : Type} (s : Session σ) (sink : τ) : Session τ := { s with sink }

/-- What the sink is sent when the session is pumped. -/
def delivered (behaviour : Sink σ) (s : Session σ) : List Delivery :=
  ((s.onto (s.sink, ([] : List Delivery))).feed behaviour.noting).2.sink.2

/-! ## One pump -/

section

variable {s : Session σ} {τ : Type}

/-- The session with its next block rendered. -/
def moved (s : Session σ) : Session σ :=
  { s with scheduler := (s.scheduler.nextBlock s.router.render).2 }

/-- What a playing session does when it is pumped, said of one with any sink. -/
theorem feed_onto (h : s.scheduler.transport.playing = true) (behaviour : Sink τ) (sink : τ) :
    (s.onto sink).feed behaviour
      = if s.scheduler.isFinished s.finish = true then
          (⟨.ok false, []⟩, { s.onto sink with scheduler := s.scheduler.stop })
        else if s.reserve ≤ behaviour.buffered sink then (⟨.ok true, []⟩, s.onto sink)
        else if Rendering.canPlay s.router s.nextBlock = true then
          (⟨((behaviour.send s.nextBlock.samples sink).1.mapError .sink).map fun _ => true,
              s.nextBlock.onsets⟩,
            s.moved.onto (behaviour.send s.nextBlock.samples sink).2)
        else (⟨.error (Rendering.fault s.router s.nextBlock), []⟩, s.onto sink) :=
  have hplaying : (s.onto sink).scheduler.transport.playing = true := h
  feed_of_playing hplaying behaviour

theorem delivered_of_stopped (h : s.scheduler.transport.playing = false) (behaviour : Sink σ) :
    s.delivered behaviour = [] := by
  have hsame : (s.onto (s.sink, ([] : List Delivery))).scheduler.transport.playing = false := h
  rw [delivered, feed_of_stopped hsame]
  rfl

/-- A playing session that has not ended sends its next block when the sink has too little waiting, if
the block can be played. -/
theorem delivered_of_playing (h : s.scheduler.transport.playing = true) (behaviour : Sink σ) :
    s.delivered behaviour
      = if s.scheduler.isFinished s.finish = true then []
        else if s.reserve ≤ behaviour.buffered s.sink then []
        else if Rendering.canPlay s.router s.nextBlock = true then
          [⟨s.nextBlock.samples, (behaviour.send s.nextBlock.samples s.sink).1.isOk⟩]
        else [] := by
  rw [delivered, feed_onto h]
  split
  · rfl
  split
  · next hwaiting => rw [if_pos (show s.reserve ≤ behaviour.buffered s.sink from hwaiting)]; rfl
  next hwaiting =>
  rw [if_neg (show ¬s.reserve ≤ behaviour.buffered s.sink from hwaiting)]
  split <;> rfl

/-- The same of a session with its sink in another state. -/
theorem delivered_onto (h : s.scheduler.transport.playing = true) (behaviour : Sink σ) (sink : σ) :
    (s.onto sink).delivered behaviour
      = if s.scheduler.isFinished s.finish = true then []
        else if s.reserve ≤ behaviour.buffered sink then []
        else if Rendering.canPlay s.router s.nextBlock = true then
          [⟨s.nextBlock.samples, (behaviour.send s.nextBlock.samples sink).1.isOk⟩]
        else [] :=
  have hplaying : (s.onto sink).scheduler.transport.playing = true := h
  delivered_of_playing hplaying behaviour

/-- Noting what is sent changes nothing else. -/
theorem feed_noting (behaviour : Sink σ) (notes : List Delivery) :
    (s.onto (s.sink, notes)).feed behaviour.noting
      = ((s.feed behaviour).1,
          (s.feed behaviour).2.onto ((s.feed behaviour).2.sink, notes ++ s.delivered behaviour)) := by
  rcases Bool.eq_false_or_eq_true s.scheduler.transport.playing with hplaying | hstopped
  · have hwaiting : behaviour.noting.buffered (s.sink, notes) = behaviour.buffered s.sink := rfl
    rw [delivered_of_playing hplaying, feed_of_playing hplaying, feed_onto hplaying, hwaiting]
    split
    · rw [List.append_nil]
      rfl
    split
    · rw [List.append_nil]
    split
    · rfl
    · rw [List.append_nil]
  · have hsame : (s.onto (s.sink, notes)).scheduler.transport.playing = false := hstopped
    rw [delivered_of_stopped hstopped, feed_of_stopped hstopped, feed_of_stopped hsame,
      List.append_nil]

end

/-! ## Sessions in use -/

/-- Sessions that begin with nothing and then serve any requests.  Between two requests the sink may
have gone on by itself. -/
inductive InUse (behaviour : Sink σ) (settings : AudioSettings) (source : Source) :
    Session σ → Prop
  | new (sink : σ) : InUse behaviour settings source (Session.new sink settings source)
  | serve {s : Session σ} (h : InUse behaviour settings source s) (request : Request) :
      InUse behaviour settings source (s.serve behaviour request).2
  | wait {s : Session σ} (h : InUse behaviour settings source s) (sink : σ) :
      InUse behaviour settings source (s.onto sink)

variable {behaviour : Sink σ} {settings : AudioSettings} {source : Source} {s : Session σ}

theorem IsSetUp.serve (h : s.IsSetUp settings source) (behaviour : Sink σ) (request : Request) :
    (s.serve behaviour request).2.IsSetUp settings source := by
  cases request with
  | start composition registry bpm looping volumes voices =>
    exact h.start behaviour composition registry bpm looping volumes voices
  | feed => exact h.feed behaviour
  | stop => exact h.stop behaviour
  | setTempo bpm =>
    simp only [Session.serve, Session.setTempo]
    split
    · exact h
    · exact { h with }
  | setVolume channel db => exact { h with }

theorem InUse.isSetUp (h : InUse behaviour settings source s) : s.IsSetUp settings source := by
  induction h with
  | new sink => exact ⟨rfl, rfl, rfl, rfl, rfl⟩
  | serve _ request ih => exact ih.serve behaviour request
  | wait _ sink ih => exact { ih with }

/-! ## Progress -/

theorem IsSetUp.reserve_pos (h : s.IsSetUp settings source) (hsize : 1 ≤ settings.blockSize)
    (hchannels : 1 ≤ settings.channels) : 0 < s.reserve := by
  rw [reserve, h.settings_eq]
  exact Nat.mul_pos (Nat.mul_pos hsize hchannels) (by decide)

section

variable (h : s.IsSetUp settings source) (hsize : 1 ≤ settings.blockSize)
  (hchannels : 1 ≤ settings.channels) (hplaying : s.isPlaying = true)
  (hunfinished : s.scheduler.isFinished s.finish = false) (hempty : behaviour.buffered s.sink = 0)

include h hsize hchannels hplaying hunfinished hempty

end

end Session

end Stave
