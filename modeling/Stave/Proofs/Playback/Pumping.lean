import Stave.Playback.Session
import Stave.Proofs.Playback.Blocks

/-!
# Pumping a session

A session that plays once sends a recorder one block for each time it is pumped, until it refuses a
block or finds that everything has ended; from then on it always gives the same answer.  It starts
from the scheduler that a rendering starts from, whatever it has played before.
-/

namespace Stave.Session

variable {σ : Type}

/-! ## Sessions in use -/

/-- Sessions that begin with nothing and are then used in any way. -/
inductive Reached (behaviour : Sink σ) (settings : AudioSettings) (source : Source) :
    Session σ → Prop
  | new (sink : σ) : Reached behaviour settings source (Session.new sink settings source)
  | start {s : Session σ} (h : Reached behaviour settings source s) (composition : Composition)
      (registry : Registry) (bpm : Float) (looping : Bool) (volumes : Named Float)
      (voices : Named VoiceSettings) :
      Reached behaviour settings source
        (s.start behaviour composition registry bpm looping volumes voices).2
  | feed {s : Session σ} (h : Reached behaviour settings source s) :
      Reached behaviour settings source (s.feed behaviour).2
  | stop {s : Session σ} (h : Reached behaviour settings source s) :
      Reached behaviour settings source (s.stop behaviour).2
  | setTempo {s : Session σ} (h : Reached behaviour settings source s) (bpm : Float) :
      Reached behaviour settings source (s.setTempo bpm).2
  | setVolume {s : Session σ} (h : Reached behaviour settings source s) (channel : String)
      (db : Float) : Reached behaviour settings source (s.setVolume channel db)

/-- What never changes in a session. -/
structure IsSetUp (settings : AudioSettings) (source : Source) (s : Session σ) : Prop where
  settings_eq : s.settings = settings
  source_eq : s.source = source
  sampleRate_eq : s.scheduler.transport.sampleRate = settings.sampleRate
  channels_eq : s.scheduler.channels = settings.channels
  blockSize_eq : s.scheduler.blockSize = max settings.blockSize 1

theorem IsSetUp.stop {settings : AudioSettings} {source : Source} {s : Session σ}
    (h : s.IsSetUp settings source) (behaviour : Sink σ) :
    (s.stop behaviour).2.IsSetUp settings source := { h with }

theorem IsSetUp.start {settings : AudioSettings} {source : Source} {s : Session σ}
    (h : s.IsSetUp settings source) (behaviour : Sink σ) (composition : Composition)
    (registry : Registry) (bpm : Float) (looping : Bool) (volumes : Named Float)
    (voices : Named VoiceSettings) :
    (s.start behaviour composition registry bpm looping volumes voices).2.IsSetUp settings
      source := by
  have hstopped := h.stop behaviour
  simp only [Session.start]
  split
  · exact hstopped
  · exact { hstopped with }

/-! ## One pump -/

theorem feed_of_stopped {s : Session σ} (h : s.scheduler.transport.playing = false)
    (behaviour : Sink σ) : s.feed behaviour = (⟨.ok false, []⟩, s) := by
  simp [Session.feed, isPlaying, h]

/-- What the next block of a playing session is. -/
def nextBlock (s : Session σ) : Block Float Float32 :=
  let mixed := (Performer.ofRender s.router.render).perform s.scheduler.conditionsNext
    s.scheduler.onsetsNext s.scheduler.tail ()
  ⟨Mix.takeOrSilence s.scheduler.blockSamples mixed.1, s.scheduler.onsetsNext,
    s.scheduler.conditionsNext⟩

theorem fst_nextBlock {s : Session σ} (h : s.scheduler.transport.playing = true) :
    (s.scheduler.nextBlock s.router.render).1 = some s.nextBlock := by
  rw [Scheduler.nextBlock_of_playing h]
  rfl

theorem feed_of_playing {s : Session σ} (h : s.scheduler.transport.playing = true)
    (behaviour : Sink σ) :
    s.feed behaviour
      = if s.scheduler.isFinished s.finish = true then
          (⟨.ok false, []⟩, { s with scheduler := s.scheduler.stop })
        else if s.reserve ≤ behaviour.buffered s.sink then (⟨.ok true, []⟩, s)
        else if Rendering.canPlay s.router s.nextBlock = true then
          (⟨((behaviour.send s.nextBlock.samples s.sink).1.mapError .sink).map fun _ => true,
              s.nextBlock.onsets⟩,
            { s with
              scheduler := (s.scheduler.nextBlock s.router.render).2
              sink := (behaviour.send s.nextBlock.samples s.sink).2 })
        else (⟨.error (Rendering.fault s.router s.nextBlock), []⟩, s) := by
  rw [Session.feed, isPlaying, h, Scheduler.nextBlock_of_playing h]
  rfl

theorem IsSetUp.feed {settings : AudioSettings} {source : Source} {s : Session σ}
    (h : s.IsSetUp settings source) (behaviour : Sink σ) :
    (s.feed behaviour).2.IsSetUp settings source := by
  rcases Bool.eq_false_or_eq_true s.scheduler.transport.playing with hplaying | hstopped
  · rw [feed_of_playing hplaying]
    have hnext : (s.scheduler.nextBlock s.router.render).2.transport.sampleRate
        = s.scheduler.transport.sampleRate := by
      rw [Scheduler.nextBlock_of_playing hplaying]
      exact s.scheduler.sampleRate_dueNext
    split
    · exact { h with }
    · split
      · exact h
      · split
        · refine ⟨h.settings_eq, h.source_eq, hnext.trans h.sampleRate_eq, ?_, ?_⟩
          · rw [Scheduler.nextBlock_of_playing hplaying]
            exact h.channels_eq
          · rw [Scheduler.nextBlock_of_playing hplaying]
            exact h.blockSize_eq
        · exact h
  · rw [feed_of_stopped hstopped]
    exact h

theorem Reached.isSetUp {behaviour : Sink σ} {settings : AudioSettings} {source : Source}
    {s : Session σ} (h : Reached behaviour settings source s) : s.IsSetUp settings source := by
  induction h with
  | new sink => exact ⟨rfl, rfl, rfl, rfl, rfl⟩
  | start _ composition registry bpm looping volumes voices ih =>
    exact ih.start behaviour composition registry bpm looping volumes voices
  | feed _ ih => exact ih.feed behaviour
  | stop _ ih => exact ih.stop behaviour
  | setTempo _ bpm ih =>
    rw [Session.setTempo]
    split
    · exact ih
    · exact { ih with }
  | setVolume _ channel db ih => exact { ih with }

/-! ## Pumping -/

/-- The session after it has been pumped some times. -/
def pumped (behaviour : Sink σ) (pumps : Nat) (s : Session σ) : Session σ :=
  (fun s => (s.feed behaviour).2)^[pumps] s

/-- What the session answers when it is pumped once more. -/
def answer (behaviour : Sink σ) (pumps : Nat) (s : Session σ) : Except PlaybackError Bool :=
  ((s.pumped behaviour pumps).feed behaviour).1.result

theorem pumped_succ (behaviour : Sink σ) (pumps : Nat) (s : Session σ) :
    s.pumped behaviour (pumps + 1) = ((s.pumped behaviour pumps).feed behaviour).2 :=
  Function.iterate_succ_apply' _ _ _

/-! ## Playing into a recorder -/

/-- The session after it has sent some blocks. -/
def sent (s : Session Captured) (count : Nat) : Session Captured :=
  { s with
    scheduler := s.scheduler.after s.router.render count
    sink :=
      { s.sink with
        blocks := ((Rendering.blocks s.router s.scheduler count).map Block.samples).reverse
          ++ s.sink.blocks } }

theorem samples_sent (s : Session Captured) (count : Nat) :
    (s.sent count).sink.samples
      = s.sink.samples ++ Rendering.heard s.router s.scheduler count := by
  simp [sent, Captured.samples, Rendering.heard, List.flatMap]

theorem feed_sent {s : Session Captured} (hplaying : s.scheduler.transport.playing = true)
    (hreserve : 0 < s.reserve) (count : Nat) :
    (s.sent count).feed Captured.sink
      = if (s.sent count).scheduler.isFinished s.finish = true then
          (⟨.ok false, []⟩,
            { s.sent count with scheduler := (s.sent count).scheduler.stop })
        else if Rendering.canPlay s.router (s.sent count).nextBlock = true then
          (⟨.ok true, (s.sent count).nextBlock.onsets⟩, s.sent (count + 1))
        else (⟨.error (Rendering.fault s.router (s.sent count).nextBlock), []⟩, s.sent count) := by
  have hafter : (s.sent count).scheduler.transport.playing = true :=
    Scheduler.playing_after hplaying count
  have hbuffered : ¬ (s.sent count).reserve ≤ Captured.sink.buffered (s.sent count).sink :=
    Nat.not_le.mpr hreserve
  have hblock := fst_nextBlock hafter
  have hsent : s.sent (count + 1)
      = { s.sent count with
          scheduler := ((s.sent count).scheduler.nextBlock s.router.render).2
          sink := (Captured.sink.send (s.sent count).nextBlock.samples (s.sent count).sink).2 } := by
    simp only [sent, Scheduler.after_succ, Rendering.blocks_succ]
    rw [show ((s.scheduler.after s.router.render count).nextBlock s.router.render).1 = _ from hblock]
    simp [Captured.sink, sent]
  rw [feed_of_playing hafter, if_neg hbuffered, hsent]
  rfl

/-- Where a session stands that has been pumped: how many blocks it has sent, and why not more. -/
inductive Standing (s : Session Captured) (pumps : Nat) : (count : Nat) → Prop
  /-- Every pump has sent a block. -/
  | sending (session : s.pumped Captured.sink pumps = s.sent pumps) : Standing s pumps pumps
  /-- Everything has ended. -/
  | ended {count : Nat} (lt : count < pumps)
      (finished : (s.sent count).scheduler.isFinished s.finish = true)
      (session : s.pumped Captured.sink pumps
        = { s.sent count with scheduler := (s.sent count).scheduler.stop })
      (answers : ∀ k < pumps, count ≤ k → s.answer Captured.sink k = .ok false) :
      Standing s pumps count
  /-- The next block cannot be played. -/
  | refused {count : Nat} (lt : count < pumps)
      (unfinished : (s.sent count).scheduler.isFinished s.finish = false)
      (unplayable : Rendering.canPlay s.router (s.sent count).nextBlock = false)
      (session : s.pumped Captured.sink pumps = s.sent count)
      (answers : ∀ k < pumps, count ≤ k →
        s.answer Captured.sink k = .error (Rendering.fault s.router (s.sent count).nextBlock)) :
      Standing s pumps count

theorem exists_standing {s : Session Captured} (hplaying : s.scheduler.transport.playing = true)
    (hreserve : 0 < s.reserve) (pumps : Nat) :
    ∃ count ≤ pumps, (∀ k < count, s.answer Captured.sink k = .ok true)
      ∧ Standing s pumps count := by
  induction pumps with
  | zero => exact ⟨0, Nat.le_refl 0, by simp, .sending rfl⟩
  | succ n ih =>
    obtain ⟨count, hle, hsent, hstanding⟩ := ih
    have hsucc := s.pumped_succ Captured.sink n
    cases hstanding with
    | sending session =>
      have hfeed := feed_sent hplaying hreserve n
      have hanswer : s.answer Captured.sink n = ((s.sent n).feed Captured.sink).1.result := by
        rw [answer, session]
      rw [session] at hsucc
      split at hfeed
      · next hfinished =>
        refine ⟨n, Nat.le_succ n, hsent, .ended (Nat.lt_succ_self n) hfinished ?_ fun k hk hnk => ?_⟩
        · rw [hsucc, hfeed]
        · obtain rfl : k = n := by omega
          rw [hanswer, hfeed]
      · next hunfinished =>
        split at hfeed
        · refine ⟨n + 1, Nat.le_refl _, fun k hk => ?_, .sending (by rw [hsucc, hfeed])⟩
          rcases Nat.lt_succ_iff_lt_or_eq.mp hk with hlt | rfl
          · exact hsent k hlt
          · rw [hanswer, hfeed]
        · next hunplayable =>
          refine ⟨n, Nat.le_succ n, hsent, .refused (Nat.lt_succ_self n)
            (Bool.eq_false_iff.mpr hunfinished) (Bool.eq_false_iff.mpr hunplayable) ?_ fun k hk hnk => ?_⟩
          · rw [hsucc, hfeed]
          · obtain rfl : k = n := by omega
            rw [hanswer, hfeed]
    | ended lt finished session answers =>
      have hfeed := feed_of_stopped (s := s.pumped Captured.sink n) (by rw [session]; rfl)
        Captured.sink
      refine ⟨count, Nat.le_succ_of_le hle, hsent, .ended (Nat.lt_succ_of_lt lt) finished ?_
        fun k hk hck => ?_⟩
      · rw [hsucc, hfeed, session]
      · rcases Nat.lt_succ_iff_lt_or_eq.mp hk with hlt | rfl
        · exact answers k hlt hck
        · rw [answer, hfeed]
    | refused lt unfinished unplayable session answers =>
      have hfeed := feed_sent hplaying hreserve count
      rw [unfinished, unplayable] at hfeed
      rw [session] at hsucc
      refine ⟨count, Nat.le_succ_of_le hle, hsent, .refused (Nat.lt_succ_of_lt lt) unfinished
        unplayable ?_ fun k hk hck => ?_⟩
      · rw [hsucc, hfeed]
        rfl
      · rcases Nat.lt_succ_iff_lt_or_eq.mp hk with hlt | rfl
        · exact answers k hlt hck
        · rw [answer, session, hfeed]
          rfl

/-- However a session stands, the recorder has got as many blocks. -/
theorem Standing.blocks_eq {s : Session Captured} {pumps count : Nat}
    (h : Standing s pumps count) :
    (s.pumped Captured.sink pumps).sink.blocks
      = ((Rendering.blocks s.router s.scheduler count).map Block.samples).reverse
        ++ s.sink.blocks := by
  cases h with
  | sending session | ended _ _ session | refused _ _ _ session =>
    rw [session]
    rfl

/-- However a session stands, the recorder has what is heard of as many blocks. -/
theorem Standing.samples_eq {s : Session Captured} {pumps count : Nat}
    (h : Standing s pumps count) :
    (s.pumped Captured.sink pumps).sink.samples
      = s.sink.samples ++ Rendering.heard s.router s.scheduler count := by
  rw [Captured.samples, h.blocks_eq, ← samples_sent]
  rfl

/-! ## Starting -/

section Starting

variable (behaviour : Sink σ) (s : Session σ) (composition : Composition) (registry : Registry)
  (bpm : Float) (looping : Bool) (volumes : Named Float) (voices : Named VoiceSettings)

/-- Why a composition is not taken up, if it is not: the sink does not stop, nothing sounds, or the
tempo is none. -/
def refusal? : Option PlaybackError :=
  match (behaviour.stop s.sink).1 with
  | .error e => some (.sink e)
  | .ok () =>
    if composition.isEmpty then some .nothingToRender
    else if isTempo bpm then none
    else some (.invalidTempo bpm)

/-- The session as it begins to play a composition that it has taken up. -/
def opened : Session σ :=
  let prepared :=
    Preparation.ofComposition composition registry volumes voices s.settings s.source
  let loop := if looping then some composition.length else none
  { (s.stop behaviour).2 with
    router := prepared.router, finish := composition.length
    scheduler := (((s.scheduler.stop.load prepared.events).setLoop loop).setTempo bpm).play }

/-- A session either takes a composition up or is only stopped. -/
theorem start_eq :
    s.start behaviour composition registry bpm looping volumes voices
      = match refusal? behaviour s composition bpm with
        | some e => (.error e, (s.stop behaviour).2)
        | none =>
          (.ok
            { total := composition.length
              failed := (Preparation.ofComposition composition registry volumes voices s.settings
                s.source).failed },
          s.opened behaviour composition registry bpm looping volumes voices) := by
  -- the checks are made one after the other
  cases hstop : (behaviour.stop s.sink).1 with
  | error e =>
    simp only [Session.start, Session.stop, refusal?, hstop]
    rfl
  | ok =>
    cases hempty : composition.isEmpty with
    | true =>
      simp only [Session.start, Session.stop, refusal?, hstop, hempty]
      rfl
    | false =>
      cases htempo : isTempo bpm with
      | false =>
        simp only [Session.start, Session.stop, refusal?, hstop, hempty, requireTempo, htempo]
        rfl
      | true =>
        simp only [Session.start, Session.stop, refusal?, hstop, hempty, requireTempo, htempo]
        rfl

/-- A composition that is taken up sounds, at a tempo. -/
theorem sounds_of_not_refused (h : refusal? behaviour s composition bpm = none) :
    composition.isEmpty = false ∧ isTempo bpm = true := by
  rw [refusal?] at h
  split at h
  · cases h
  · split at h
    · cases h
    · next hsounds =>
      split at h
      · next htempo => exact ⟨Bool.eq_false_iff.mpr hsounds, htempo⟩
      · cases h

variable {s} in
/-- A session with given settings that takes a composition up has the scheduler of a rendering, whatever
it has played before. -/
theorem scheduler_opened {settings : AudioSettings} {source : Source}
    (h : s.IsSetUp settings source) :
    (s.opened behaviour composition registry bpm looping volumes voices).scheduler
      = (Rendering.scheduler (Preparation.ofComposition composition registry volumes voices settings
          source).events bpm settings).setLoop
        (if looping then some composition.length else none) := by
  obtain ⟨rfl, rfl, hsampleRate, hchannels, hblockSize⟩ := h
  rw [Rendering.scheduler, Scheduler.new, Transport.new, ← hsampleRate, ← hchannels, ← hblockSize]
  rfl

end Starting

/-- A session that starts to play once has the scheduler of a rendering, whatever it has played
before. -/
theorem start_once {settings : AudioSettings} {source : Source} {s : Session Captured}
    (h : s.IsSetUp settings source) {composition : Composition} (registry : Registry) {bpm : Float}
    (volumes : Named Float) (voices : Named VoiceSettings) (hempty : composition.isEmpty = false)
    (htempo : requireTempo bpm = .ok ()) :
    let prepared := Preparation.ofComposition composition registry volumes voices settings source
    s.start Captured.sink composition registry bpm false volumes voices
      = (.ok { total := composition.length, failed := prepared.failed },
          { s with
            router := prepared.router, finish := composition.length
            scheduler := Rendering.scheduler prepared.events bpm settings
            sink := { s.sink with stops := s.sink.stops + 1 } }) := by
  intro prepared
  have haccepted : refusal? Captured.sink s composition bpm = none := by
    have hbpm : isTempo bpm = true := by
      by_contra hnot
      rw [requireTempo, if_neg hnot] at htempo
      cases htempo
    simp [refusal?, Captured.sink, hempty, hbpm]
  have hscheduler : (s.opened Captured.sink composition registry bpm false volumes voices).scheduler
      = Rendering.scheduler prepared.events bpm settings :=
    scheduler_opened Captured.sink composition registry bpm false volumes voices h
  obtain ⟨rfl, rfl, -⟩ := h
  rw [start_eq, haccepted, ← hscheduler]
  rfl

end Stave.Session
