import Stave.Proofs.Playback.Deliveries

/-!
# Blocks that are refused

A sink may refuse a block.  The session has gone past the block by then and never sends it again, so that
a session that is pumped on regardless hands over the stream that it would play into a recorder, and
what is refused is missing from what is heard.
-/

namespace Stave

/-- What a sink has taken of the blocks that it was sent. -/
def accepted (handed : List Delivery) : List (List Float32) :=
  (handed.filter Delivery.taken).map Delivery.samples

/-- As long as nothing is taken after a refused block, what is taken is the beginning of everything. -/
theorem isPrefix_accepted {handed : List Delivery}
    (h : handed.Pairwise fun earlier later => later.taken = true → earlier.taken = true) :
    accepted handed <+: handed.map Delivery.samples := by
  induction handed with
  | nil => exact List.prefix_refl _
  | cons d rest ih =>
    rw [List.pairwise_cons] at h
    obtain ⟨hfirst, hrest⟩ := h
    rw [accepted, List.filter_cons]
    split
    · exact List.cons_prefix_cons.mpr ⟨rfl, ih hrest⟩
    · next hrefused =>
      have hnone : rest.filter Delivery.taken = [] :=
        List.filter_eq_nil_iff.mpr fun later hlater htaken => hrefused (hfirst later hlater htaken)
      rw [hnone]
      exact List.nil_prefix

namespace Session

variable {σ : Type}

/-! ## Pumping on regardless -/

/-- What happens when a session is pumped. -/
structure Turn where
  answer : Except PlaybackError Bool
  /-- What the sink is sent. -/
  handed : List Delivery

/-- The sink goes on by itself, and then the session is pumped. -/
def turn (behaviour : Sink σ) (s : Session σ) (change : σ → σ) : Turn × Session σ :=
  let (pumped, next) := (s.onto (change s.sink, ([] : List Delivery))).feed behaviour.noting
  (⟨pumped.result, next.sink.2⟩, next.onto next.sink.1)

/-- The session is pumped again and again, whatever it answers. -/
def turns (behaviour : Sink σ) (changes : List (σ → σ)) (s : Session σ) : List Turn × Session σ :=
  Mix.thread (turn behaviour) changes s

theorem turn_eq (behaviour : Sink σ) (s : Session σ) (change : σ → σ) :
    let waiting := s.onto (change s.sink)
    s.turn behaviour change
      = (⟨(waiting.feed behaviour).1.result, waiting.delivered behaviour⟩,
          (waiting.feed behaviour).2) := by
  intro waiting
  have hnoted := feed_noting (s := waiting) behaviour []
  rw [turn, show s.onto (change s.sink, []) = waiting.onto (waiting.sink, []) from rfl, hnoted]
  rfl

/-- The ways in which pumping a session can go. -/
inductive Goes (s : Session σ) : Turn × Session σ → Prop
  /-- Nothing is sent. -/
  | waits (sink : σ) {answer : Except PlaybackError Bool} (willing : ∀ e, answer ≠ .error (.sink e)) :
    Goes s (⟨answer, []⟩, s.onto sink)
  /-- Everything has ended. -/
  | ends (sink : σ) (playing : s.scheduler.transport.playing = true)
    (finished : s.scheduler.isFinished s.finish = true) :
    Goes s (⟨.ok false, []⟩, { s.onto sink with scheduler := s.scheduler.stop })
  /-- The next block is sent. -/
  | sends (sink : σ) (result : Except SinkError Unit) (playing : s.scheduler.transport.playing = true)
    (unfinished : s.scheduler.isFinished s.finish = false) (reserve_pos : 0 < s.reserve)
    (plays : Rendering.canPlay s.router s.nextBlock = true) :
    Goes s (⟨(result.mapError .sink).map fun _ => true, [⟨s.nextBlock.samples, result.isOk⟩]⟩,
      s.moved.onto sink)

theorem goes_turn (behaviour : Sink σ) (s : Session σ) (change : σ → σ) :
    s.Goes (s.turn behaviour change) := by
  rw [turn_eq]
  rcases Bool.eq_false_or_eq_true s.scheduler.transport.playing with hplaying | hstopped
  · rw [delivered_onto hplaying, feed_onto hplaying]
    split
    · next hfinished => exact .ends _ hplaying hfinished
    next hunfinished =>
    split
    · exact .waits _ fun e h => by cases h
    next hshort =>
    split
    · next hplays =>
      exact .sends _ _ hplaying (Bool.eq_false_iff.mpr hunfinished)
        (Nat.zero_lt_of_lt (Nat.not_le.mp hshort)) hplays
    · refine .waits _ fun e h => ?_
      have hbreaks := Rendering.breaksOff_fault s.router s.nextBlock
      rw [Except.error.inj h] at hbreaks
      cases hbreaks
  · have hsame : (s.onto (change s.sink)).scheduler.transport.playing = false := hstopped
    rw [delivered_of_stopped hsame, feed_of_stopped hsame]
    exact .waits _ fun e h => by cases h

/-- A pump fails because of the sink exactly if the sink has refused a block. -/
theorem Goes.fails_iff {s : Session σ} {outcome : Turn × Session σ} (h : s.Goes outcome) :
    (∃ e, outcome.1.answer = .error (.sink e)) ↔ ∃ d ∈ outcome.1.handed, d.taken = false := by
  cases h with
  | waits sink willing =>
    refine iff_of_false (fun ⟨e, hanswer⟩ => willing e hanswer) ?_
    rintro ⟨d, hd, -⟩
    cases hd
  | ends =>
    refine iff_of_false (fun ⟨e, hanswer⟩ => by cases hanswer) ?_
    rintro ⟨d, hd, -⟩
    cases hd
  | sends sink result =>
    cases result with
    | ok =>
      refine iff_of_false (fun ⟨e, hanswer⟩ => by cases hanswer) ?_
      rintro ⟨d, hd, htaken⟩
      rw [List.mem_singleton.mp hd] at htaken
      cases htaken
    | error e => exact iff_of_true ⟨e, rfl⟩ ⟨_, List.mem_singleton_self _, rfl⟩

theorem Goes.length_handed_le {s : Session σ} {outcome : Turn × Session σ} (h : s.Goes outcome) :
    outcome.1.handed.length ≤ 1 := by
  cases h with
  | waits | ends => exact Nat.zero_le 1
  | sends => exact Nat.le_refl 1

/-- The block that a sink has refused was the next one, and the session has gone past it. -/
theorem Goes.refused {s : Session σ} {outcome : Turn × Session σ} (h : s.Goes outcome)
    {e : SinkError} (hanswer : outcome.1.answer = .error (.sink e)) :
    outcome.1.handed = [⟨s.nextBlock.samples, false⟩]
      ∧ outcome.2.scheduler = (s.scheduler.nextBlock s.router.render).2
      ∧ outcome.2.scheduler.transport.framesPlayed
        = (s.scheduler.transport.framesPlayed + s.scheduler.blockSize) % 2 ^ 64 := by
  cases h with
  | waits sink willing => exact absurd hanswer (willing e)
  | ends => cases hanswer
  | sends sink result playing =>
    cases result with
    | ok => cases hanswer
    | error =>
      refine ⟨rfl, rfl, ?_⟩
      show (s.scheduler.nextBlock s.router.render).2.transport.framesPlayed = _
      rw [Scheduler.nextBlock_of_playing playing]
      exact s.scheduler.framesPlayed_dueNext

/-! ## What is handed over -/

/-- The session some blocks later. -/
def later (s : Session σ) (count : Nat) : Session σ :=
  { s with scheduler := s.scheduler.after s.router.render count }

/-- What has become of a session that has handed over some blocks. -/
structure HasHanded (s : Session σ) (handed : List Delivery) (now : Session σ) : Prop where
  settings_eq : now.settings = s.settings
  router_eq : now.router = s.router
  finish_eq : now.finish = s.finish
  samples_eq : handed.map Delivery.samples
    = (Rendering.blocks s.router s.scheduler handed.length).map Block.samples
  /-- Nothing kept the session from sending these blocks. -/
  sent : ∀ k < handed.length, 0 < s.reserve ∧ s.scheduler.transport.playing = true
    ∧ (s.later k).scheduler.isFinished s.finish = false
    ∧ Rendering.canPlay s.router (s.later k).nextBlock = true
  scheduler_eq : now.scheduler = (s.later handed.length).scheduler
    ∨ (s.later handed.length).scheduler.isFinished s.finish = true
      ∧ now.scheduler = (s.later handed.length).scheduler.stop

theorem HasHanded.step {s now : Session σ} {handed : List Delivery} (h : s.HasHanded handed now)
    {outcome : Turn × Session σ} (hgoes : now.Goes outcome) :
    s.HasHanded (handed ++ outcome.1.handed) outcome.2 := by
  -- a session that has handed over all blocks is stopped, so a playing one stands behind them
  have hstands (hplaying : now.scheduler.transport.playing = true) :
      now.scheduler = (s.later handed.length).scheduler := by
    rcases h.scheduler_eq with hat | ⟨-, hstopped⟩
    · exact hat
    · rw [hstopped] at hplaying
      cases hplaying
  cases hgoes with
  | waits sink => exact (List.append_nil handed).symm ▸ { h with }
  | ends sink playing finished =>
    have hat := hstands playing
    rw [h.finish_eq, hat] at finished
    refine (List.append_nil handed).symm ▸ { h with scheduler_eq := .inr ⟨finished, ?_⟩ }
    rw [← hat]
  | sends sink result playing unfinished reserve_pos plays =>
    have hat := hstands playing
    have hnext : now.nextBlock = (s.later handed.length).nextBlock := by
      rw [nextBlock, nextBlock, hat, h.router_eq]
      rfl
    have hstarted : s.scheduler.transport.playing = true := by
      rcases Nat.eq_zero_or_pos handed.length with hnone | hsome
      · rwa [hat, hnone] at playing
      · exact (h.sent 0 hsome).2.1
    have hblock : ((s.scheduler.after s.router.render handed.length).nextBlock s.router.render).1
        = some now.nextBlock := by
      rw [hnext]
      exact fst_nextBlock (s := s.later handed.length)
        (Scheduler.playing_after hstarted handed.length)
    refine ⟨h.settings_eq, h.router_eq, h.finish_eq, ?_, fun k hk => ?_, .inl ?_⟩
    · rw [List.map_append, h.samples_eq, List.length_append, List.length_singleton,
        Rendering.blocks_succ, hblock, List.map_append]
      rfl
    · rw [List.length_append, List.length_singleton] at hk
      rcases Nat.lt_succ_iff_lt_or_eq.mp hk with hearlier | rfl
      · exact h.sent k hearlier
      · rw [reserve, h.settings_eq] at reserve_pos
        rw [hat, h.finish_eq] at unfinished
        rw [hnext, h.router_eq] at plays
        exact ⟨reserve_pos, hstarted, unfinished, plays⟩
    · rw [List.length_append, List.length_singleton, later, Scheduler.after_succ]
      show (now.scheduler.nextBlock now.router.render).2 = _
      rw [hat, h.router_eq]
      rfl

/-- What has become of a session that was pumped, whatever it answered. -/
theorem hasHanded_turns (behaviour : Sink σ) (changes : List (σ → σ)) (s : Session σ) :
    s.HasHanded ((s.turns behaviour changes).1.flatMap Turn.handed) (s.turns behaviour changes).2 := by
  induction changes using List.reverseRecOn with
  | nil => exact ⟨rfl, rfl, rfl, rfl, fun k hk => absurd hk (Nat.not_lt_zero k), .inl rfl⟩
  | append_singleton changes change ih =>
    rw [turns, Mix.thread_concat, List.flatMap_append, List.flatMap_singleton]
    exact ih.step (goes_turn behaviour _ change)

/-- No more than one block is handed over each time. -/
theorem length_handed_turns_le (behaviour : Sink σ) (changes : List (σ → σ)) (s : Session σ) :
    ((s.turns behaviour changes).1.flatMap Turn.handed).length ≤ changes.length := by
  induction changes using List.reverseRecOn with
  | nil => exact Nat.le_refl 0
  | append_singleton changes change ih =>
    have hone : ((s.turns behaviour changes).2.turn behaviour change).1.handed.length ≤ 1 :=
      (goes_turn behaviour _ change).length_handed_le
    rw [turns, Mix.thread_concat, List.flatMap_append, List.flatMap_singleton, List.length_append,
      List.length_append]
    exact Nat.add_le_add ih hone

theorem goes_of_mem_turns {behaviour : Sink σ} {changes : List (σ → σ)} {s : Session σ} {t : Turn}
    (h : t ∈ (s.turns behaviour changes).1) : ∃ now next : Session σ, now.Goes (t, next) := by
  induction changes using List.reverseRecOn with
  | nil => cases h
  | append_singleton changes change ih =>
    rw [turns, Mix.thread_concat] at h
    rcases List.mem_append.mp h with hearlier | hlast
    · exact ih hearlier
    · cases List.mem_singleton.mp hlast
      exact ⟨_, _, goes_turn behaviour (s.turns behaviour changes).2 change⟩

/-- What a session has handed over to any sink is the beginning of what a recorder gets when it is
pumped as often. -/
theorem HasHanded.isPrefix {s now : Session σ} {handed : List Delivery} (h : s.HasHanded handed now)
    {pumps : Nat} (hpumps : handed.length ≤ pumps) :
    handed.map Delivery.samples
      <+: ((s.onto Captured.empty).pumped Captured.sink pumps).sink.blocks.reverse := by
  rcases Nat.eq_zero_or_pos handed.length with hnone | hsome
  · rw [List.length_eq_zero_iff.mp hnone]
    exact List.nil_prefix
  obtain ⟨hreserve, hplaying, -⟩ := h.sent 0 hsome
  obtain ⟨count, -, -, hstanding⟩ :=
    exists_standing (s := s.onto Captured.empty) hplaying hreserve pumps
  have hcount : handed.length ≤ count := by
    by_contra hfewer
    obtain ⟨-, -, hunfinished, hplays⟩ := h.sent count (Nat.not_le.mp hfewer)
    cases hstanding with
    | sending => exact hfewer hpumps
    | ended _ finished => exact Bool.false_ne_true (hunfinished.symm.trans finished)
    | refused _ _ unplayable => exact Bool.false_ne_true (unplayable.symm.trans hplays)
  obtain ⟨more, rfl⟩ := Nat.exists_eq_add_of_le hcount
  rw [hstanding.blocks_eq, h.samples_eq]
  simp only [onto, Captured.empty, List.append_nil, List.reverse_reverse]
  exact (Rendering.isPrefix_blocks s.router s.scheduler handed.length more).map _

/-- A session that is pumped on regardless hands over the beginning of the stream that a recorder would
get, block by block, whatever its sink refuses.  What the sink takes is itself the beginning of that
stream as long as nothing is taken after a refused block.  A pump fails exactly if it has handed over a
block that was refused.  Such a block counts as played: the session stands behind all that it has handed
over, taken or not, and goes on with the block after. -/
theorem stream_with_refusals (behaviour : Sink σ) (changes : List (σ → σ)) (s : Session σ) :
    let turns := (s.turns behaviour changes).1
    let last := (s.turns behaviour changes).2
    let handed := turns.flatMap Turn.handed
    let stream := ((s.onto Captured.empty).pumped Captured.sink changes.length).sink.blocks.reverse
    let behind := (s.later handed.length).scheduler
    handed.map Delivery.samples <+: stream
      ∧ ((handed.Pairwise fun earlier later => later.taken = true → earlier.taken = true) →
        (accepted handed).flatten <+: stream.flatten)
      ∧ (∀ t ∈ turns, (∃ e, t.answer = .error (.sink e)) ↔ ∃ d ∈ t.handed, d.taken = false)
      ∧ (last.scheduler = behind
        ∨ behind.isFinished s.finish = true ∧ last.scheduler = behind.stop)
      ∧ ∀ change e, (last.turn behaviour change).1.answer = .error (.sink e) →
        (last.turn behaviour change).1.handed = [⟨last.nextBlock.samples, false⟩]
          ∧ (last.turn behaviour change).2.scheduler
            = (last.scheduler.nextBlock last.router.render).2
          ∧ (last.turn behaviour change).2.scheduler.transport.framesPlayed
            = (last.scheduler.transport.framesPlayed + last.scheduler.blockSize) % 2 ^ 64 := by
  intro turns last handed stream behind
  have hhanded := s.hasHanded_turns behaviour changes
  have hbegins : handed.map Delivery.samples <+: stream :=
    hhanded.isPrefix (s.length_handed_turns_le behaviour changes)
  refine ⟨hbegins, fun htaken => ?_, fun t ht => ?_, hhanded.scheduler_eq, fun change e hanswer => ?_⟩
  · exact ((isPrefix_accepted htaken).trans hbegins).flatten
  · obtain ⟨now, next, hgoes⟩ := goes_of_mem_turns ht
    exact hgoes.fails_iff
  · exact (goes_turn behaviour last change).refused hanswer

/-- A recording of two samples played into a sink that refuses its first block and takes the second: the
sink has the second sample alone, and the pump that has failed has moved the session on. -/
theorem refused_block_is_lost :
    let text := "vox: file:///v.wav\nvox: x".toList
    let composition := (Composition.ofText text Registry.empty).1
    let registry := (Composition.ofText text Registry.empty).2
    let settings : AudioSettings :=
      { sampleRate := 8, channels := 1, blockSize := 1, tail := 1, seed := 42 }
    let source : Source := fun _ => (Wav.encode [1.0, 0.5] 8 1).mapError .wav
    -- the state says whether the sink refuses
    let moody : Sink Bool :=
      { send := fun _ refuses => (if refuses then .error .full else .ok (), refuses)
        stop := fun refuses => (.ok (), refuses)
        buffered := fun _ => 0 }
    let s := ((Session.new false settings source).start moody composition registry 60 false [] []).2
    let turns := (s.turns moody [fun _ => true, fun _ => false]).1
    let stream := ((s.onto Captured.empty).pumped Captured.sink 2).sink.blocks.reverse
    let failed := s.turn moody fun _ => true
    s.isPlaying = true ∧ turns.map (fun t => t.answer.isOk) = [false, true]
      ∧ ¬(accepted (turns.flatMap Turn.handed)).flatten <+: stream.flatten
      ∧ failed.1.answer.isOk = false ∧ failed.2.scheduler ≠ s.scheduler := by
  intro text composition registry settings source moody s turns stream failed
  have htaken : (accepted (turns.flatMap Turn.handed)).flatten.map Float32.toBits = [1053608346] := by
    decide +kernel
  have hstream : stream.flatten.map Float32.toBits = [1061997363, 1053608346] := by decide +kernel
  refine ⟨by decide +kernel, by decide +kernel, fun hbegins => ?_, by decide +kernel,
    fun hsame => ?_⟩
  · have hbits := hbegins.map Float32.toBits
    rw [htaken, hstream, List.cons_prefix_cons] at hbits
    exact absurd hbits.1 (by decide)
  · have hframes := congrArg (fun scheduler => scheduler.transport.framesPlayed) hsame
    exact absurd hframes (by decide +kernel)

end Session

end Stave
