import Stave.Proofs.Playback.Prepared
import Stave.Proofs.Playback.Requests
import Stave.Proofs.Score.Extent

/-!
# The course of a session

At all times a session is at rest or plays what it was given last.  At rest it stands at the start and
is silent.  While it plays, the end of what it plays is the end of its loop, if it plays in a loop, and
no event goes on beyond it; and the timeline has been read to where the clock stands.  Every request
keeps this, also one that is refused.
-/

namespace Stave

namespace Session

variable {σ : Type}

/-! ## At rest -/

/-- A session that plays nothing stands at the start, with nothing read and nothing sounding. -/
structure IsAtRest (s : Session σ) : Prop where
  stopped : s.isPlaying = false
  position_eq : s.position = Ticks.zero
  cursor_eq : s.scheduler.timeline.cursor = 0
  tail_eq : s.scheduler.tail = []

theorem isAtRest_new (sink : σ) (settings : AudioSettings) (source : Source) :
    (Session.new sink settings source).IsAtRest := ⟨rfl, rfl, rfl, rfl⟩

/-- A session whose scheduler has stopped is at rest. -/
theorem isAtRest_of_stopped {s : Session σ} {scheduler : Scheduler Float Float32}
    (h : s.scheduler = scheduler.stop) : s.IsAtRest := by
  refine ⟨?_, ?_, ?_, ?_⟩
  · rw [isPlaying, h]
    rfl
  · rw [position, h]
    rfl
  · rw [h]
    exact Timeline.cursor_rewind _
  · rw [h]
    rfl

theorem isAtRest_stop (behaviour : Sink σ) (s : Session σ) : (s.stop behaviour).2.IsAtRest :=
  isAtRest_of_stopped rfl

/-! ## Playing -/

/-- A session plays a composition, of which it has sent blocks with given windows. -/
structure Plays (s : Session σ) (composition : Composition) (windows : List Window) : Prop where
  playing : s.isPlaying = true
  finish_eq : s.finish = composition.length
  finish_pos : Ticks.zero < s.finish
  loop : s.scheduler.loopLength = none ∨ s.scheduler.loopLength = some s.finish
  inside : s.scheduler.loopLength.isSome = true → s.position < s.finish
  events : s.scheduler.timeline.events ⊆ composition.events
  readTo : (∀ w ∈ windows, w.IsForward) → s.scheduler.timeline.ReadTo s.position

/-- What plays when a composition has been taken up. -/
theorem plays_opened {behaviour : Sink σ} {s : Session σ} {composition : Composition} {bpm : Float}
    (h : refusal? behaviour s composition bpm = none) (registry : Registry) (looping : Bool)
    (volumes : Named Float) (voices : Named VoiceSettings) :
    (s.opened behaviour composition registry bpm looping volumes voices).Plays composition [] := by
  have hpos : Ticks.zero < composition.length := by
    by_contra hnot
    have hempty : composition.isEmpty = true := by
      rw [Composition.isEmpty, Ticks.eq_zero_of_not_pos hnot]
      rfl
    rw [(sounds_of_not_refused behaviour s composition bpm h).1] at hempty
    cases hempty
  refine ⟨rfl, rfl, hpos, ?_, fun _ => hpos, ?_, fun _ => Timeline.readTo_ofEvents _⟩
  · -- a loop that has length is kept
    cases looping with
    | false => exact Or.inl rfl
    | true =>
      right
      show Option.filter (fun l => decide (Ticks.zero < l)) (some composition.length)
        = some composition.length
      exact Option.filter_some_pos (decide_eq_true hpos)
  · intro e he
    exact (Preparation.sublist_events volumes voices s.settings s.source composition registry).subset
      (List.mem_mergeSort.mp he)

/-- A session that is pumped either plays on or has come to the end and is at rest. -/
theorem Plays.feed {s : Session σ} {composition : Composition} {windows : List Window}
    (h : s.Plays composition windows) (behaviour : Sink σ) :
    (s.feed behaviour).2.Plays composition (windows ++ (s.window? behaviour).toList)
      ∨ (s.feed behaviour).2.IsAtRest := by
  have hplaying : s.scheduler.transport.playing = true := h.playing
  rw [feed_of_playing hplaying]
  by_cases hfinished : s.scheduler.isFinished s.finish = true
  · rw [if_pos hfinished]
    exact Or.inr (isAtRest_of_stopped rfl)
  left
  rw [if_neg hfinished]
  by_cases henough : s.reserve ≤ behaviour.buffered s.sink
  · rw [if_pos henough]
    simpa [window?, henough] using h
  rw [if_neg henough]
  by_cases hplay : Rendering.canPlay s.router s.nextBlock = true
  · have hwindow : s.window? behaviour
        = some (s.scheduler.transport.move s.scheduler.blockSize).1 := by
      simp [window?, h.playing, hfinished, henough, hplay]
    rw [if_pos hplay, hwindow, Scheduler.nextBlock_of_playing hplaying]
    refine ⟨s.scheduler.playing_dueNext.trans hplaying, h.finish_eq, h.finish_pos, h.loop,
      fun hlooped => ?_, ?_, fun hforward => ?_⟩
    · rcases h.loop with honce | hloop
      · rw [honce] at hlooped
        cases hlooped
      · exact Scheduler.position_dueNext_lt hloop h.finish_pos
    · exact s.scheduler.events_dueNext.symm ▸ h.events
    · have hbefore := h.readTo fun w hw => hforward w (List.mem_append_left _ hw)
      exact Scheduler.readTo_dueNext hbefore (hforward _ (by simp))
  · rw [if_neg hplay]
    simpa [window?, hplay] using h

/-! ## Requests -/

theorem bpm_feed (s : Session σ) (behaviour : Sink σ) : (s.feed behaviour).2.bpm = s.bpm := by
  rcases Bool.eq_false_or_eq_true s.scheduler.transport.playing with hplaying | hstopped
  · rw [feed_of_playing hplaying]
    split
    · rfl
    split
    · rfl
    split
    · rw [Scheduler.nextBlock_of_playing hplaying]
      exact s.scheduler.bpm_dueNext
    · rfl
  · rw [feed_of_stopped hstopped]

theorem Plays.setTempo {s : Session σ} {composition : Composition} {windows : List Window}
    (h : s.Plays composition windows) (bpm : Float) :
    (s.setTempo bpm).2.Plays composition windows := by
  rw [Session.setTempo]
  split
  · exact h
  · exact { h with }

theorem IsAtRest.setTempo {s : Session σ} (h : s.IsAtRest) (bpm : Float) :
    (s.setTempo bpm).2.IsAtRest := by
  rw [Session.setTempo]
  split
  · exact h
  · exact { h with }

/-- A tempo is taken over only if it is one. -/
theorem isTempo_setTempo {s : Session σ} (h : isTempo s.bpm = true) (bpm : Float) :
    isTempo (s.setTempo bpm).2.bpm = true := by
  rw [Session.setTempo, requireTempo]
  by_cases htempo : isTempo bpm = true
  · rw [if_pos htempo]
    exact htempo
  · rw [if_neg htempo]
    exact h

/-- What is refused is not played. -/
theorem isAtRest_of_start_error {behaviour : Sink σ} {s : Session σ} {composition : Composition}
    {registry : Registry} {bpm : Float} {looping : Bool} {volumes : Named Float}
    {voices : Named VoiceSettings} {e : PlaybackError}
    (h : (s.start behaviour composition registry bpm looping volumes voices).1 = .error e) :
    (s.start behaviour composition registry bpm looping volumes voices).2.IsAtRest := by
  rw [start_eq] at h ⊢
  cases hrefusal : refusal? behaviour s composition bpm with
  | some e => exact isAtRest_stop behaviour s
  | none =>
    rw [hrefusal] at h
    cases h

namespace Course

/-- What holds of a session at all times: it has a tempo, it was given what satisfies `Given`, and it
either is at rest or plays what it was given last. -/
structure Keeps (Given : Composition → Prop) (x : Course σ) : Prop where
  tempo : isTempo x.session.bpm = true
  given : ∀ composition ∈ x.composition, Given composition
  standing : x.session.IsAtRest
    ∨ ∃ composition, x.composition = some composition ∧ x.session.Plays composition x.windows

theorem keeps_new (Given : Composition → Prop) (sink : σ) (settings : AudioSettings)
    (source : Source) : Keeps Given (new sink settings source) where
  tempo := show isTempo 120.0 = true by decide +kernel
  given := fun _ h => by cases h
  standing := Or.inl (isAtRest_new sink settings source)

/-- Every request keeps what holds of a session. -/
theorem Keeps.serve {Given : Composition → Prop} {x : Course σ} (h : Keeps Given x)
    (behaviour : Sink σ) {request : Request}
    (hgiven : ∀ composition ∈ request.composition?, Given composition) :
    Keeps Given (x.serve behaviour request) := by
  cases request with
  | start composition registry bpm looping volumes voices =>
    simp only [Course.serve, Session.serve, start_eq]
    cases hrefusal : refusal? behaviour x.session composition bpm with
    | some e => exact ⟨h.tempo, hgiven, Or.inl (isAtRest_stop behaviour x.session)⟩
    | none =>
      exact ⟨(sounds_of_not_refused behaviour x.session composition bpm hrefusal).2, hgiven,
        Or.inr ⟨composition, rfl, plays_opened hrefusal registry looping volumes voices⟩⟩
  | feed =>
    refine ⟨(congrArg isTempo (x.session.bpm_feed behaviour)).trans h.tempo, h.given, ?_⟩
    rcases h.standing with hrest | ⟨composition, hcomposition, hplays⟩
    · left
      simp only [Course.serve, Session.serve, feed_of_stopped hrest.stopped]
      exact hrest
    · rcases hplays.feed behaviour with hplays | hrest
      · exact Or.inr ⟨composition, hcomposition, hplays⟩
      · exact Or.inl hrest
  | stop => exact ⟨h.tempo, h.given, Or.inl (isAtRest_stop behaviour x.session)⟩
  | setTempo bpm =>
    refine ⟨isTempo_setTempo h.tempo bpm, h.given, ?_⟩
    rcases h.standing with hrest | ⟨composition, hcomposition, hplays⟩
    · exact Or.inl (hrest.setTempo bpm)
    · exact Or.inr ⟨composition, hcomposition, hplays.setTempo bpm⟩
  | setVolume channel db =>
    refine ⟨h.tempo, h.given, ?_⟩
    rcases h.standing with hrest | ⟨composition, hcomposition, hplays⟩
    · exact Or.inl { hrest with }
    · exact Or.inr ⟨composition, hcomposition, { hplays with }⟩

/-- What holds of a session at first holds after all requests. -/
theorem Keeps.after {Given : Composition → Prop} {behaviour : Sink σ} {requests : List Request}
    (hgiven : ∀ request ∈ requests, ∀ composition ∈ request.composition?, Given composition)
    {x : Course σ} (h : Keeps Given x) : Keeps Given (x.after behaviour requests) := by
  induction requests generalizing x with
  | nil => exact h
  | cons request requests ih =>
    obtain ⟨hfirst, hrest⟩ := List.forall_mem_cons.mp hgiven
    exact ih hrest (h.serve behaviour hfirst)

end Course

/-- Whatever is asked of a session that is given compiled texts, and whatever it answers: it has a
tempo.  While it plays a composition, the composition ends, a loop ends where it does, no event goes
on beyond it, the timeline has read what starts before the position, and in a loop the position is
before the end; where ticks are counted, this is as long as the count does not wrap around.  While it
does not play, it is at rest and sends nothing.  What it does not take up leaves it at rest. -/
theorem invariant_of_requests (behaviour : Sink σ) (sink : σ) (settings : AudioSettings)
    (source : Source) (requests : List Request)
    (h : ∀ request ∈ requests, ∀ composition ∈ request.composition?, composition.IsCompiled) :
    let x := (Course.new sink settings source).after behaviour requests
    let s := x.session
    let timeline := s.scheduler.timeline
    let atRest (s : Session σ) := s.IsAtRest ∧ s.feed behaviour = (⟨.ok false, []⟩, s)
    (s.bpm.isFinite = true ∧ 0 < s.bpm)
      ∧ (s.isPlaying = true → ∃ composition, x.composition = some composition
        ∧ s.finish = composition.length ∧ Ticks.zero < s.finish
        ∧ (s.scheduler.loopLength = none ∨ s.scheduler.loopLength = some s.finish)
        ∧ (composition.Fits →
          ∀ e ∈ timeline.events, e.beat.toNat + e.duration.toNat ≤ s.finish.toNat)
        ∧ ((∀ w ∈ x.windows, w.IsForward) →
          timeline.cursor = timeline.events.countP fun e => decide (e.beat < s.position))
        ∧ (s.scheduler.loopLength.isSome = true → s.position < s.finish))
      ∧ (s.isPlaying = false → atRest s)
      ∧ ∀ composition registry bpm looping volumes voices e,
        (s.start behaviour composition registry bpm looping volumes voices).1 = .error e →
          atRest (s.start behaviour composition registry bpm looping volumes voices).2 := by
  intro x s timeline atRest
  have hkeeps : x.Keeps Composition.IsCompiled :=
    (Course.keeps_new _ sink settings source).after h
  have hrest {s : Session σ} (h : s.IsAtRest) : atRest s := ⟨h, feed_of_stopped h.stopped behaviour⟩
  refine ⟨?_, fun hplaying => ?_, fun hstopped => ?_, fun _ _ _ _ _ _ _ herror =>
    hrest (isAtRest_of_start_error herror)⟩
  · obtain ⟨hfinite, hpos⟩ := Bool.and_eq_true_iff.mp hkeeps.tempo
    exact ⟨hfinite, of_decide_eq_true hpos⟩
  · rcases hkeeps.standing with hstill | ⟨composition, hcomposition, hplays⟩
    · rw [hstill.stopped] at hplaying
      cases hplaying
    refine ⟨composition, hcomposition, hplays.finish_eq, hplays.finish_pos, hplays.loop,
      fun hfits e he => ?_, fun hforward => (hplays.readTo hforward).cursor_eq, hplays.inside⟩
    have hcompiled := hkeeps.given composition hcomposition
    rw [hplays.finish_eq]
    exact (Composition.endsBy_of_mem_events hcompiled hfits (hplays.events he)).finish_le
  · rcases hkeeps.standing with hstill | ⟨composition, -, hplays⟩
    · exact hrest hstill
    · rw [hplays.playing] at hstopped
      cases hstopped

/-- A stroke and two rests in a loop, which blocks of two beats go around, with a tempo that is refused on
the way: after two blocks a session has played the stroke of the second round. -/
theorem invariant_of_requests_of_stroke :
    let text := "kick: x - -".toList
    let composition := (Composition.ofText text Registry.empty).1
    let registry := (Composition.ofText text Registry.empty).2
    let settings : AudioSettings :=
      { sampleRate := 8, channels := 2, blockSize := 16, tail := 0.5, seed := 1 }
    let source : Source := fun _ => .error (.unreachable "")
    let requests : List Session.Request := [.feed, .start composition registry 60 true [] [], .feed,
      .setTempo (-1), .feed, .setVolume "kick" 3]
    let x := (Course.new Captured.empty settings source).after Captured.sink requests
    let s := x.session
    s.isPlaying = true ∧ s.position = Ticks.beat ∧ s.finish = Ticks.ofBeats 3
      ∧ s.scheduler.timeline.cursor
        = s.scheduler.timeline.events.countP (fun e => decide (e.beat < s.position))
      ∧ (∀ e ∈ s.scheduler.timeline.events, e.beat.toNat + e.duration.toNat ≤ s.finish.toNat)
      ∧ s.position < s.finish ∧ (0 : Float) < s.bpm := by
  intro text composition registry settings source requests x s
  have hcompiled : ∀ request ∈ requests, ∀ composition ∈ request.composition?,
      composition.IsCompiled := by
    intro request hrequest c hc
    -- only one request gives something to play
    obtain rfl : composition = c := by
      simp only [requests, List.mem_cons, List.not_mem_nil, or_false] at hrequest
      rcases hrequest with rfl | rfl | rfl | rfl | rfl | rfl <;> cases hc
      rfl
    exact ⟨text, Registry.empty, rfl⟩
  obtain ⟨hplaying, hposition, hfinish, hlooped, hforward⟩ :
      s.isPlaying = true ∧ s.position = Ticks.beat ∧ s.finish = Ticks.ofBeats 3
        ∧ s.scheduler.loopLength.isSome = true ∧ (∀ w ∈ x.windows, w.IsForward) := by
    decide +kernel
  have hfits : composition.Fits := Composition.fits_of_length_lt (by decide +kernel) Registry.empty
  obtain ⟨⟨-, hpos⟩, hplays, -⟩ := invariant_of_requests Captured.sink Captured.empty settings source
    requests hcompiled
  obtain ⟨c, hc, -, -, -, hends, hcursor, hinside⟩ := hplays hplaying
  obtain rfl : composition = c := Option.some_inj.mp hc
  exact ⟨hplaying, hposition, hfinish, hcursor hforward, hends hfits, hinside hlooped, hpos⟩

end Session

end Stave
