import Stave.Proofs.Mix.Stream
import Stave.Proofs.Playback.Requests

/-!
# Starting anew

A session that starts to play forgets what it was used for before.  Apart from what its recorder holds
it is the session that a new one becomes by the same start, and the recorder is never looked at.  So
whatever is asked of it from then on, further starts included, is answered alike and sends the same
blocks.
-/

namespace Stave

/-- The blocks that a recorder was sent since an earlier state of it, the earliest one first. -/
def Captured.since (earlier later : Captured) : List (List Float32) :=
  (later.blocks.take (later.blocks.length - earlier.blocks.length)).reverse

theorem Captured.since_of_blocks_eq {earlier later : Captured}
    (h : later.blocks = earlier.blocks) : earlier.since later = [] := by
  simp [since, h]

namespace Session

/-- What is seen of a session that has served a request. -/
structure Report where
  answer : Answer
  /-- The blocks that it sent meanwhile. -/
  sent : List (List Float32)
  position : Ticks
  bpm : Float
  playing : Bool

/-- Serves a request, and reports what is seen. -/
def reported (s : Session Captured) (request : Request) : Report × Session Captured :=
  let (answer, next) := s.serve Captured.sink request
  ({ answer, sent := s.sink.since next.sink, position := next.position, bpm := next.bpm
     playing := next.isPlaying }, next)

/-- What is seen while requests are served one after the other. -/
def reports (s : Session Captured) (requests : List Request) : List Report :=
  (Mix.thread reported requests s).1

theorem reports_cons (s : Session Captured) (request : Request) (requests : List Request) :
    s.reports (request :: requests)
      = (s.reported request).1 :: (s.reported request).2.reports requests := by
  rw [reports, Mix.thread_cons]
  rfl

/-! ## Without the recorder -/

/-- The session with another recorder. -/
def withRecorder (s : Session Captured) (recorder : Captured) : Session Captured :=
  { s with sink := recorder }

/-- What a playing session does when it is pumped, said of one with any recorder. -/
theorem feed_withRecorder {s : Session Captured} (h : s.isPlaying = true) (recorder : Captured) :
    (s.withRecorder recorder).feed Captured.sink
      = if s.scheduler.isFinished s.finish = true then
          (⟨.ok false, []⟩, { s with scheduler := s.scheduler.stop, sink := recorder })
        else if s.reserve ≤ 0 then (⟨.ok true, []⟩, s.withRecorder recorder)
        else if Rendering.canPlay s.router s.nextBlock = true then
          (⟨.ok true, s.nextBlock.onsets⟩,
            { s with
              scheduler := (s.scheduler.nextBlock s.router.render).2
              sink := { recorder with blocks := s.nextBlock.samples :: recorder.blocks } })
        else (⟨.error (Rendering.fault s.router s.nextBlock), []⟩, s.withRecorder recorder) :=
  have hplaying : (s.withRecorder recorder).scheduler.transport.playing = true := h
  feed_of_playing hplaying Captured.sink

/-- A session takes a composition up, or refuses it, with any recorder alike. -/
theorem exists_start (s : Session Captured) (composition : Composition) (registry : Registry)
    (bpm : Float) (looping : Bool) (volumes : Named Float) (voices : Named VoiceSettings) :
    ∃ (answer : Except PlaybackError Started) (next : Session Captured), ∀ recorder,
      (s.withRecorder recorder).start Captured.sink composition registry bpm looping volumes voices
        = (answer, next.withRecorder { recorder with stops := recorder.stops + 1 }) := by
  cases hrefusal : refusal? Captured.sink s composition bpm with
  | some e =>
    refine ⟨.error e, (s.stop Captured.sink).2, fun recorder => ?_⟩
    have hsame : refusal? Captured.sink (s.withRecorder recorder) composition bpm = some e := hrefusal
    rw [start_eq, hsame]
    rfl
  | none =>
    let prepared :=
      Preparation.ofComposition composition registry volumes voices s.settings s.source
    refine ⟨.ok ⟨composition.length, prepared.failed⟩,
      s.opened Captured.sink composition registry bpm looping volumes voices, fun recorder => ?_⟩
    have hsame : refusal? Captured.sink (s.withRecorder recorder) composition bpm = none := hrefusal
    rw [start_eq, hsame]
    rfl

/-- A session that is pumped sends the same with any recorder. -/
theorem exists_feed (s : Session Captured) :
    ∃ (answer : Pumped) (next : Session Captured) (sent : List (List Float32)), ∀ recorder,
      (s.withRecorder recorder).feed Captured.sink
        = (answer, next.withRecorder { recorder with blocks := sent ++ recorder.blocks }) := by
  rcases Bool.eq_false_or_eq_true s.isPlaying with hplaying | hstopped
  · by_cases hfinished : s.scheduler.isFinished s.finish = true
    · refine ⟨⟨.ok false, []⟩, { s with scheduler := s.scheduler.stop }, [], fun recorder => ?_⟩
      rw [feed_withRecorder hplaying, if_pos hfinished]
      rfl
    by_cases henough : s.reserve ≤ 0
    · refine ⟨⟨.ok true, []⟩, s, [], fun recorder => ?_⟩
      rw [feed_withRecorder hplaying, if_neg hfinished, if_pos henough]
      rfl
    by_cases hplay : Rendering.canPlay s.router s.nextBlock = true
    · refine ⟨⟨.ok true, s.nextBlock.onsets⟩,
        { s with scheduler := (s.scheduler.nextBlock s.router.render).2 }, [s.nextBlock.samples],
        fun recorder => ?_⟩
      rw [feed_withRecorder hplaying, if_neg hfinished, if_neg henough, if_pos hplay]
      rfl
    · refine ⟨⟨.error (Rendering.fault s.router s.nextBlock), []⟩, s, [], fun recorder => ?_⟩
      rw [feed_withRecorder hplaying, if_neg hfinished, if_neg henough, if_neg hplay]
      rfl
  · refine ⟨⟨.ok false, []⟩, s, [], fun recorder => ?_⟩
    have hsame : (s.withRecorder recorder).scheduler.transport.playing = false := hstopped
    rw [feed_of_stopped hsame]
    rfl

/-- What a session answers, what it becomes and what it sends do not depend on what its recorder
holds. -/
theorem exists_serve (s : Session Captured) (request : Request) :
    ∃ (answer : Answer) (next : Session Captured) (sent : List (List Float32)) (stops : Nat),
      ∀ recorder, (s.withRecorder recorder).serve Captured.sink request
        = (answer, next.withRecorder ⟨sent ++ recorder.blocks, recorder.stops + stops⟩) := by
  cases request with
  | start composition registry bpm looping volumes voices =>
    obtain ⟨answer, next, hstart⟩ := s.exists_start composition registry bpm looping volumes voices
    refine ⟨.started answer, next, [], 1, fun recorder => ?_⟩
    rw [serve, hstart]
    rfl
  | feed =>
    obtain ⟨answer, next, sent, hfeed⟩ := s.exists_feed
    refine ⟨.pumped answer, next, sent, 0, fun recorder => ?_⟩
    rw [serve, hfeed]
    rfl
  | stop => exact ⟨.done (.ok ()), (s.stop Captured.sink).2, [], 1, fun _ => rfl⟩
  | setTempo bpm =>
    refine ⟨.done (s.setTempo bpm).1, (s.setTempo bpm).2, [], 0, fun recorder => ?_⟩
    rw [serve, Session.setTempo, Session.setTempo]
    cases requireTempo bpm with
    | error e => rfl
    | ok => rfl
  | setVolume channel db =>
    exact ⟨.done (.ok ()), s.setVolume channel db, [], 0, fun _ => rfl⟩

theorem exists_reported (s : Session Captured) (request : Request) :
    ∃ (report : Report) (next : Session Captured), ∀ recorder, ∃ later,
      (s.withRecorder recorder).reported request = (report, next.withRecorder later) := by
  obtain ⟨answer, next, sent, stops, hserve⟩ := s.exists_serve request
  refine ⟨⟨answer, sent.reverse, next.position, next.bpm, next.isPlaying⟩, next, fun recorder =>
    ⟨⟨sent ++ recorder.blocks, recorder.stops + stops⟩, ?_⟩⟩
  have hsince : recorder.since ⟨sent ++ recorder.blocks, recorder.stops + stops⟩ = sent.reverse := by
    simp [Captured.since]
  rw [reported, hserve]
  exact congrArg (fun s : List (List Float32) => (Report.mk answer s next.position next.bpm
    next.isPlaying, next.withRecorder ⟨sent ++ recorder.blocks, recorder.stops + stops⟩)) hsince

/-- Nothing that is seen of a session depends on what its recorder held before. -/
theorem reports_withRecorder (s : Session Captured) (recorder : Captured)
    (requests : List Request) :
    (s.withRecorder recorder).reports requests = s.reports requests := by
  induction requests generalizing s recorder with
  | nil => rfl
  | cons request requests ih =>
    obtain ⟨report, next, hreported⟩ := s.exists_reported request
    obtain ⟨later, hlater⟩ := hreported recorder
    obtain ⟨own, hown⟩ := hreported s.sink
    have hself : s.withRecorder s.sink = s := rfl
    rw [hself] at hown
    rw [reports_cons, reports_cons, hlater, hown]
    exact congrArg (report :: ·) ((ih next later).trans (ih next own).symm)

/-! ## Starting forgets the past -/

section Starting

variable (composition : Composition) (registry : Registry) (bpm : Float) (looping : Bool)
  (volumes : Named Float) (voices : Named VoiceSettings)

/-- Sessions with the same settings and the same source become the same session by a start, apart from
what their recorders hold. -/
theorem withRecorder_opened {settings : AudioSettings} {source : Source} {s t : Session Captured}
    (hs : s.IsSetUp settings source) (ht : t.IsSetUp settings source) :
    t.opened Captured.sink composition registry bpm looping volumes voices
      = (s.opened Captured.sink composition registry bpm looping volumes voices).withRecorder
          (t.stop Captured.sink).2.sink := by
  have hscheduler :
      (t.opened Captured.sink composition registry bpm looping volumes voices).scheduler
        = (s.opened Captured.sink composition registry bpm looping volumes voices).scheduler :=
    (scheduler_opened Captured.sink composition registry bpm looping volumes voices ht).trans
      (scheduler_opened Captured.sink composition registry bpm looping volumes voices hs).symm
  have hsettings := ht.settings_eq.trans hs.settings_eq.symm
  have hsource := ht.source_eq.trans hs.source_eq.symm
  simp only [opened, withRecorder, Session.stop] at hscheduler ⊢
  rw [hscheduler, hsettings, hsource]

/-- What is seen of a session that takes a composition up: it sends nothing, and it stands at the
start. -/
theorem reported_start {s : Session Captured}
    (h : refusal? Captured.sink s composition bpm = none) :
    s.reported (.start composition registry bpm looping volumes voices)
      = (⟨.started (.ok
            { total := composition.length
              failed := (Preparation.ofComposition composition registry volumes voices s.settings
                s.source).failed }), [], Ticks.zero, bpm, true⟩,
          s.opened Captured.sink composition registry bpm looping volumes voices) := by
  have hsince : s.sink.since
      (s.opened Captured.sink composition registry bpm looping volumes voices).sink = [] :=
    Captured.since_of_blocks_eq rfl
  rw [reported, serve, start_eq, h]
  simp only [hsince]
  rfl

/-- A session that takes a composition up is seen to do, whatever it has been used for and whatever is
asked of it then, what a new session is seen to do. -/
theorem reports_of_restarted {settings : AudioSettings} {source : Source} {s : Session Captured}
    (hs : Reached Captured.sink settings source s) {started : Started}
    (h : (s.start Captured.sink composition registry bpm looping volumes voices).1 = .ok started)
    (recorder : Captured) (requests : List Request) :
    s.reports (.start composition registry bpm looping volumes voices :: requests)
      = (Session.new recorder settings source).reports
          (.start composition registry bpm looping volumes voices :: requests) := by
  have hnew := (Reached.new recorder :
    Reached Captured.sink settings source (Session.new recorder settings source)).isSetUp
  have htaken : refusal? Captured.sink s composition bpm = none := by
    cases hrefusal : refusal? Captured.sink s composition bpm with
    | none => rfl
    | some e => rw [start_eq, hrefusal] at h; cases h
  -- a recorder always stops, so a new session takes the composition up as well
  have htakenNew :
      refusal? Captured.sink (Session.new recorder settings source) composition bpm = none := htaken
  rw [reports_cons, reports_cons, reported_start composition registry bpm looping volumes voices htaken,
    reported_start composition registry bpm looping volumes voices htakenNew,
    withRecorder_opened composition registry bpm looping volumes voices hs.isSetUp hnew,
    reports_withRecorder, hs.isSetUp.settings_eq, hs.isSetUp.source_eq]
  rfl

end Starting

/-- A stroke in a session that has played it in a loop, at another tempo and at another volume, and is in
the middle of it: started anew, it is seen to do what a new session is seen to do. -/
theorem reports_of_restarted_stroke :
    let text := "kick: x\npiano: -C4".toList
    let composition := (Composition.ofText text Registry.empty).1
    let registry := (Composition.ofText text Registry.empty).2
    let settings : AudioSettings :=
      { sampleRate := 8, channels := 2, blockSize := 3, tail := 0.5, seed := 1 }
    let source : Source := fun _ => .error (.unreachable "")
    let looped := ((Session.new Captured.empty settings source).start Captured.sink composition registry
      90 true [] []).2
    let s := (((looped.setVolume "kick" 6).feed Captured.sink).2.setTempo 200).2
    let start := Request.start composition registry 60 false [] []
    s.position ≠ Ticks.zero ∧ s.sink.blocks ≠ []
      ∧ s.reports [start, .feed, .setTempo 30, .feed, .setVolume "kick" 3, .feed]
        = (Session.new Captured.empty settings source).reports
            [start, .feed, .setTempo 30, .feed, .setVolume "kick" 3, .feed] := by
  intro text composition registry settings source looped s start
  have hs : Reached Captured.sink settings source s :=
    .setTempo (.feed (.setVolume (.start (.new _) _ _ _ _ _ _) _ _)) _
  have hmoved : s.position ≠ Ticks.zero ∧ s.sink.blocks.isEmpty = false := by decide +kernel
  have htaken : refusal? Captured.sink s composition 60 = none := by decide +kernel
  obtain ⟨started, h⟩ : ∃ started,
      (s.start Captured.sink composition registry 60 false [] []).1 = .ok started :=
    ⟨_, by rw [start_eq, htaken]⟩
  exact ⟨hmoved.1, List.isEmpty_eq_false_iff.mp hmoved.2,
    reports_of_restarted composition registry 60 false [] [] hs h Captured.empty _⟩

end Session

end Stave
