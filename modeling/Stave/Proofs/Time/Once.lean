import Stave.Proofs.Time.Reading

/-!
# Playing once

Without a loop the events that a scheduler has rendered are at all times those that start before the
position of its clock, in a stable order of their starts.  The invariant ties the three together: the
timeline is read to the position, and what is behind the position has been rendered.  Windows join
without a gap, so that it does not matter how far a block moves the clock, or whether it moves it at
all.
-/

namespace Stave.Scheduler

open Timeline

variable {σ α β : Type} [Scalar α]

/-- What holds of a scheduler that plays given events once, and of the calls that it has made. -/
structure PlayedOnce (events : List NoteEvent) (x : Scheduler α β × σ × List (Call α)) : Prop where
  once : x.1.loopLength = none
  events_eq : x.1.timeline.events = byStart events
  readTo : x.1.timeline.ReadTo x.1.transport.position
  rendered_eq : x.2.2.filterMap Call.rendered?
    = (byStart events).filter fun e => decide (e.beat < x.1.transport.position)
  noticed_eq : x.2.2.filterMap Call.noticed? = x.2.2.filterMap Call.rendered?

theorem playedOnce_load (s : Scheduler α β) (events : List NoteEvent) (state : σ)
    (h : s.loopLength = none) : PlayedOnce events (s.load events, state, []) where
  once := h
  events_eq := rfl
  readTo := readTo_ofEvents events
  rendered_eq := by
    have hnone : ∀ e : NoteEvent, ¬ e.beat < Ticks.zero := fun e => by
      rw [Ticks.lt_iff_toNat_lt]
      exact Nat.not_lt_zero _
    simp [load, Transport.rewind, hnone]
  noticed_eq := rfl

variable [Add β] [Zero β]

theorem PlayedOnce.act {events : List NoteEvent} {p : Performer σ α β}
    {x : Scheduler α β × σ × List (Call α)} (action : Action α)
    (hforward : ∀ w ∈ x.1.window? action, w.IsForward) (h : PlayedOnce events x) :
    PlayedOnce events (act p.recorded x action) := by
  obtain ⟨s, state, calls⟩ := x
  cases action with
  | play => exact { h with }
  | setTempo bpm => exact { h with }
  | block =>
    rcases Bool.eq_false_or_eq_true s.transport.playing with hplaying | hstopped
    · obtain ⟨context, tail, after, hblock⟩ := performBlock_recorded s p state calls hplaying
      have hle : (s.transport.move s.blockSize).1.IsForward :=
        hforward _ (by rw [window?_of_playing s hplaying]; rfl)
      have hdrained := drain_fst h.readTo (s.transport.move s.blockSize).1.finish
      simp only [Scheduler.act, hblock, dueNext_of_once s h.once]
      refine ⟨h.once, h.events_eq, h.readTo.drain hle, ?_, ?_⟩
      · -- what was rendered before ends where the window begins
        rw [List.filterMap_append, Call.filterMap_rendered?_ofOnset, Window.map_event_onsets,
          List.map_map, hdrained, h.events_eq, h.rendered_eq]
        simp only [Function.comp_def, Transport.position_move, List.map_id']
        exact filter_before_append (pairwise_byStart events) hle
      · rw [List.filterMap_append, List.filterMap_append, Call.filterMap_rendered?_ofOnset,
          Call.filterMap_noticed?_ofOnset, h.noticed_eq]
    · have hblock := performBlock_of_stopped s p.recorded (state, calls) hstopped
      simpa only [Scheduler.act, hblock] using h

/-- In a run without a loop the events rendered so far are exactly those that start before the
position of the clock, in a stable order of their starts, and an observer has been told of the same
events in the same order. -/
theorem rendered_of_run_once (s : Scheduler α β) (events : List NoteEvent) (p : Performer σ α β)
    (state : σ) (actions : List (Action α)) (honce : s.loopLength = none)
    (hforward : ∀ w ∈ windows p.recorded actions (s.load events, state, []), w.IsForward) :
    IsStableSort
        (events.filter fun e => decide
          (e.beat < (run p.recorded actions (s.load events, state, [])).1.transport.position))
        ((run p.recorded actions (s.load events, state, [])).2.2.filterMap Call.rendered?)
      ∧ (run p.recorded actions (s.load events, state, [])).2.2.filterMap Call.noticed?
        = (run p.recorded actions (s.load events, state, [])).2.2.filterMap Call.rendered? := by
  have h := run_invariant p.recorded Window.IsForward (fun _ x => PlayedOnce events x)
    (fun _ _ action hw hx => hx.act action hw) actions _ (playedOnce_load s events state honce)
    hforward
  refine ⟨?_, h.noticed_eq⟩
  rw [h.rendered_eq]
  exact (isStableSort_byStart events).filter_before _

/-- Two strokes that start together, and one before them that is given last, are played in blocks of
half a beat and, at another tempo, of two beats. -/
theorem rendered_of_run_once_across_tempos :
    let stroke (instrument : String) (beat : Ticks) : NoteEvent :=
      { notes := ["C4"], beat, duration := Ticks.beat, lineIndex := 0, tokenIndex := 0, soft := false
        instrument }
    let events := [stroke "kick" Ticks.beat, stroke "snare" Ticks.beat, stroke "clap" Ticks.zero]
    let s : Scheduler Float Float32 := Scheduler.new 60 960 1 480
    let p : Performer Unit Float Float32 := Performer.ofRender fun _ _ => [1]
    let actions := [Action.play, .block, .setTempo 240, .block]
    let x := run p.recorded actions (s.load events, (), [])
    s.loopLength = none
      ∧ (∀ w ∈ windows p.recorded actions (s.load events, (), []), w.IsForward)
      ∧ x.1.transport.position = Ticks.ofNat 2400
      ∧ IsStableSort (events.filter fun e => decide (e.beat < x.1.transport.position))
          (x.2.2.filterMap Call.rendered?)
      ∧ x.2.2.filterMap Call.noticed? = x.2.2.filterMap Call.rendered? := by
  intro stroke events s p actions x
  have hforward : ∀ w ∈ windows p.recorded actions (s.load events, (), []), w.IsForward := by
    decide +kernel
  exact ⟨rfl, hforward, by decide +kernel,
    rendered_of_run_once s events p () actions rfl hforward⟩

end Stave.Scheduler
