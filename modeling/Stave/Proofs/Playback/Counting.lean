import Stave.Proofs.Playback.Course
import Stave.Proofs.Time.Measuring

/-!
# Counting to the end of a word

The clock counts ticks in a word, to which each block adds the ticks that it takes.  As long as windows
join, all additions stay in the word exactly if the sum of what is added does, and the position goes
back at the first one that does not.  Whatever doubles round on the way, a block adds hardly more than
the ticks that it takes exactly, so that a number of blocks at a tempo is safe.
-/

namespace Stave

/-! ## Windows -/

namespace Window

/-- The ticks that a block adds to the count of the clock. -/
def moved (w : Window) : Nat := (w.finish.count - w.start.count).toNat

/-- Whether the count stays in its word when a block adds its ticks. -/
def IsCounted (w : Window) : Prop := w.start.toNat + w.moved < 2 ^ 64

theorem toNat_finish (w : Window) : w.finish.toNat = (w.start.toNat + w.moved) % 2 ^ 64 := by
  rw [Ticks.toNat, Ticks.toNat, moved, ← UInt64.toNat_add, UInt64.add_comm, UInt64.sub_add_cancel]

/-- The count goes back where it leaves its word, and only there. -/
theorem isForward_iff (w : Window) : w.IsForward ↔ w.IsCounted := by
  have hfinish := w.toNat_finish
  have hstart := w.start.toNat_lt
  have hmoved : w.moved < 2 ^ 64 := UInt64.toNat_lt _
  rw [IsForward, Ticks.le_iff_toNat_le, IsCounted, hfinish]
  omega

/-- Windows that lead from one position to another without a gap. -/
inductive Joined : Ticks → List Window → Ticks → Prop
  | nil (position : Ticks) : Joined position [] position
  | cons {w : Window} {rest : List Window} {last : Ticks} (h : Joined w.finish rest last) :
    Joined w.start (w :: rest) last

namespace Joined

variable {first last : Ticks} {windows : List Window}

theorem append (h : Joined first windows last) {more : List Window} {behind : Ticks}
    (hmore : Joined last more behind) : Joined first (windows ++ more) behind := by
  induction h with
  | nil position => exact hmore
  | cons _ ih => exact .cons (ih hmore)

/-- The position behind windows is what they have added, counted in a word. -/
theorem toNat_last (h : Joined first windows last) :
    last.toNat = (first.toNat + (windows.map moved).sum) % 2 ^ 64 := by
  induction h with
  | nil position => exact (Nat.mod_eq_of_lt position.toNat_lt).symm
  | @cons w rest last _ ih =>
    rw [ih, w.toNat_finish, Nat.mod_add_mod, List.map_cons, List.sum_cons, Nat.add_assoc]

/-- All additions stay in the word exactly if their sum does. -/
theorem isCounted_iff (h : Joined first windows last) :
    (∀ w ∈ windows, w.IsCounted) ↔ first.toNat + (windows.map moved).sum < 2 ^ 64 := by
  induction h with
  | nil position => exact iff_of_true (by simp) position.toNat_lt
  | @cons w rest last _ ih =>
    rw [List.forall_mem_cons, ih, List.map_cons, List.sum_cons, w.toNat_finish, IsCounted]
    have hstart := w.start.toNat_lt
    constructor
    · rintro ⟨hfirst, hrest⟩
      rwa [Nat.mod_eq_of_lt hfirst, Nat.add_assoc] at hrest
    · intro hsum
      have hfirst : w.start.toNat + w.moved < 2 ^ 64 := by omega
      rw [Nat.mod_eq_of_lt hfirst]
      exact ⟨hfirst, by omega⟩

end Joined

/-- Windows that each add less than some number of ticks add less than all of these together. -/
theorem sum_moved_lt {windows : List Window} {most : ℚ} (h : ∀ w ∈ windows, (w.moved : ℚ) < most)
    (hmost : windows.length * most ≤ 2 ^ 64) : (windows.map moved).sum < 2 ^ 64 := by
  have hsum : windows ≠ [] → (((windows.map moved).sum : ℕ) : ℚ) < windows.length * most := by
    clear hmost
    induction windows with
    | nil => exact fun hne => absurd rfl hne
    | cons w rest ih =>
      intro _
      obtain ⟨hfirst, hrest⟩ := List.forall_mem_cons.mp h
      rw [List.map_cons, List.sum_cons, List.length_cons, Nat.cast_add, Nat.cast_succ, add_one_mul]
      rcases eq_or_ne rest [] with rfl | hne
      · simpa using hfirst
      · linarith [ih hrest hne]
  rcases eq_or_ne windows [] with rfl | hne
  · norm_num
  · exact_mod_cast (hsum hne).trans_le hmost

end Window

/-! ## The clock -/

namespace Transport

/-- What a block adds is what its ticks come to as a word. -/
theorem moved_move (t : Transport Float) (frames : Nat) :
    (t.move frames).1.moved = Scalar.toNat (Scalar.floor (t.elapsed frames)) := by
  have hword : Scalar.toNat (Scalar.floor (t.elapsed frames)) < 2 ^ 64 :=
    (Scalar.floor (t.elapsed frames)).toUInt64.toNat_lt
  show ((t.position + Ticks.ofNat (Scalar.toNat (Scalar.floor (t.elapsed frames)))).count
    - t.position.count).toNat = _
  generalize Scalar.toNat (Scalar.floor (t.elapsed frames)) = n at hword ⊢
  show (t.position.count + UInt64.ofNat n - t.position.count).toNat = n
  rw [UInt64.add_comm, UInt64.add_sub_cancel, UInt64.toNat_ofNat', Nat.mod_eq_of_lt hword]

theorem joined_move (t : Transport Float) (frames : Nat) :
    Window.Joined t.position [(t.move frames).1] (t.move frames).1.finish :=
  .cons (w := (t.move frames).1) (.nil _)

/-- The ticks that a block can never add at a tempo: hardly more than it takes exactly. -/
def mostTicks (frames sampleRate : Nat) (tempo : ℚ) : ℚ :=
  (1 + 1 / 2 ^ 48) * (frames * tempo * 960 / (60 * sampleRate)) + 2

theorem mostTicks_mono (frames sampleRate : Nat) {tempo faster : ℚ} (h : tempo ≤ faster) :
    mostTicks frames sampleRate tempo ≤ mostTicks frames sampleRate faster := by
  rw [mostTicks, mostTicks]
  gcongr

end Transport

namespace Scheduler

variable {β : Type} {s : Scheduler Float β} {fastest : ℚ}

/-- A scheduler plays at a tempo that is not above a given one, and keeps time. -/
structure KeepsTempo (s : Scheduler Float β) (fastest : ℚ) : Prop where
  keepsTime : s.KeepsTime
  exists_tempo : ∃ tempo ≤ fastest, 0 < tempo ∧ HasValue s.transport.bpm tempo

/-- A block adds less than the fastest tempo allows. -/
theorem KeepsTempo.moved_lt (h : s.KeepsTempo fastest) (hpos : 0 < s.transport.sampleRate) :
    ((s.transport.move s.blockSize).1.moved : ℚ)
      < Transport.mostTicks s.blockSize s.transport.sampleRate fastest := by
  obtain ⟨tempo, hle, htempo, hbpm⟩ := h.exists_tempo
  have hrate : (s.transport.sampleRate : ℚ) ≠ 0 := by exact_mod_cast hpos.ne'
  have hmoved := Transport.toNat_floor_elapsed_le (h.keepsTime.carriesFraction hpos)
    h.keepsTime.blockSize_lt h.keepsTime.sampleRate_lt hpos hbpm htempo
  have hexact : (s.blockSize : ℚ) * tempo * 960 / (60 * s.transport.sampleRate)
      = 16 * (s.blockSize / s.transport.sampleRate * tempo) := by
    field_simp
    ring
  refine lt_of_lt_of_le ?_ (Transport.mostTicks_mono _ _ hle)
  rw [Transport.moved_move, Transport.mostTicks, hexact]
  norm_num at hmoved ⊢
  linarith

section

variable [Add β] [Zero β] {render : NoteEvent → Conditions Float → List β}

theorem KeepsTempo.nextBlock (h : s.KeepsTempo fastest) (hplaying : s.transport.playing = true) :
    (s.nextBlock render).2.KeepsTempo fastest := by
  obtain ⟨tempo, hle, htempo, hbpm⟩ := h.exists_tempo
  rw [nextBlock_of_playing hplaying]
  refine ⟨h.keepsTime.next _ _, tempo, hle, htempo, ?_⟩
  show HasValue s.dueNext.2.2.bpm tempo
  rwa [bpm_dueNext]

omit [Add β] [Zero β] in
theorem KeepsTempo.setTempo (h : s.KeepsTempo fastest) {bpm : Float}
    (htempo : ∃ tempo ≤ fastest, 0 < tempo ∧ HasValue bpm tempo) :
    (s.setTempo bpm).KeepsTempo fastest where
  keepsTime := { h.keepsTime with exists_tempo := htempo.imp fun _ h => h.2 }
  exists_tempo := htempo

theorem KeepsTempo.after (h : s.KeepsTempo fastest) (hplaying : s.transport.playing = true)
    (count : Nat) : (s.after render count).KeepsTempo fastest := by
  induction count with
  | zero => exact h
  | succ n ih =>
    rw [after_succ]
    exact ih.nextBlock (playing_after hplaying n)

/-- The windows of the first blocks of a scheduler. -/
def windowsOf (render : NoteEvent → Conditions Float → List β) (s : Scheduler Float β) (count : Nat) :
    List Window :=
  (List.range count).map fun k =>
    ((s.after render k).transport.move (s.after render k).blockSize).1

theorem windowsOf_succ (s : Scheduler Float β) (count : Nat) :
    s.windowsOf render (count + 1) = s.windowsOf render count
      ++ [((s.after render count).transport.move (s.after render count).blockSize).1] := by
  rw [windowsOf, List.range_succ, List.map_append]
  rfl

/-- What stays the same while a scheduler plays block after block. -/
structure GoesOn (s other : Scheduler Float β) : Prop where
  playing : other.transport.playing = true
  loopLength_eq : other.loopLength = s.loopLength
  bpm_eq : other.transport.bpm = s.transport.bpm
  sampleRate_eq : other.transport.sampleRate = s.transport.sampleRate
  blockSize_eq : other.blockSize = s.blockSize

theorem goesOn_after (hplaying : s.transport.playing = true) (count : Nat) :
    s.GoesOn (s.after render count) := by
  induction count with
  | zero => exact ⟨hplaying, rfl, rfl, rfl, rfl⟩
  | succ n ih =>
    rw [after_succ, nextBlock_of_playing ih.playing]
    exact ⟨(playing_dueNext _).trans ih.playing, ih.loopLength_eq, (bpm_dueNext _).trans ih.bpm_eq,
      (sampleRate_dueNext _).trans ih.sampleRate_eq, ih.blockSize_eq⟩

/-- A block that is played once leaves the clock at the end of its window. -/
theorem position_nextBlock (hplaying : s.transport.playing = true) (honce : s.loopLength = none) :
    (s.nextBlock render).2.transport.position = (s.transport.move s.blockSize).1.finish := by
  rw [nextBlock_of_playing hplaying]
  show s.dueNext.2.2.position = _
  rw [dueNext_of_once s honce]
  rfl

/-- Played once, blocks follow one another without a gap. -/
theorem joined_windowsOf (hplaying : s.transport.playing = true) (honce : s.loopLength = none)
    (count : Nat) :
    Window.Joined s.transport.position (s.windowsOf render count)
      (s.after render count).transport.position := by
  induction count with
  | zero => exact .nil _
  | succ n ih =>
    have hgoes : s.GoesOn (s.after render n) := goesOn_after hplaying n
    rw [windowsOf_succ, after_succ,
      position_nextBlock hgoes.playing (hgoes.loopLength_eq.trans honce)]
    exact ih.append (Transport.joined_move _ _)

end

end Scheduler

/-! ## Sessions -/

namespace Session

variable {σ : Type}

/-- The tempo that a request asks for. -/
def Request.tempo? : Request → Option Float
  | .start _ _ bpm .. => some bpm
  | .setTempo bpm => some bpm
  | _ => none

/-- A session that is pumped either sends a block or keeps its scheduler or stops it. -/
theorem window?_cases {s : Session σ} (h : s.scheduler.transport.playing = true)
    (behaviour : Sink σ) :
    (s.window? behaviour = some (s.scheduler.transport.move s.scheduler.blockSize).1
        ∧ (s.feed behaviour).2.scheduler = (s.scheduler.nextBlock s.router.render).2)
      ∨ s.window? behaviour = none
        ∧ ((s.feed behaviour).2.scheduler = s.scheduler
          ∨ (s.feed behaviour).2.scheduler = s.scheduler.stop) := by
  rw [feed_of_playing h]
  by_cases hfinished : s.scheduler.isFinished s.finish = true
  · rw [if_pos hfinished]
    exact .inr ⟨by simp [window?, hfinished], .inr rfl⟩
  rw [if_neg hfinished]
  by_cases henough : s.reserve ≤ behaviour.buffered s.sink
  · rw [if_pos henough]
    exact .inr ⟨by simp [window?, henough], .inl rfl⟩
  rw [if_neg henough]
  by_cases hplay : Rendering.canPlay s.router s.nextBlock = true
  · rw [if_pos hplay]
    exact .inl ⟨by simp [window?, isPlaying, h, hfinished, henough, hplay], rfl⟩
  · rw [if_neg hplay]
    exact .inr ⟨by simp [window?, hplay], .inl rfl⟩

/-- A tempo that is taken over is above zero. -/
theorem exists_tempo_of_isTempo {bpm : Float} {fastest : ℚ} (h : isTempo bpm = true)
    (hvalue : ∃ tempo ≤ fastest, HasValue bpm tempo) :
    ∃ tempo ≤ fastest, 0 < tempo ∧ HasValue bpm tempo := by
  obtain ⟨tempo, hle, htempo⟩ := hvalue
  obtain ⟨-, hpos⟩ := Bool.and_eq_true_iff.mp h
  exact ⟨tempo, hle, (hasValue_zero.lt_iff htempo).mp (of_decide_eq_true hpos), htempo⟩

/-- What a session takes up, it plays from the start at the tempo that it was given. -/
theorem keepsTempo_opened {behaviour : Sink σ} {s : Session σ} {composition : Composition}
    {bpm : Float} {fastest : ℚ} (htempo : ∃ tempo ≤ fastest, 0 < tempo ∧ HasValue bpm tempo)
    (hsampleRate : s.scheduler.transport.sampleRate < 2 ^ 32)
    (hblockSize : s.scheduler.blockSize < 2 ^ 32) (registry : Registry) (looping : Bool)
    (volumes : Named Float) (voices : Named VoiceSettings) :
    (s.opened behaviour composition registry bpm looping volumes voices).scheduler.KeepsTempo
      fastest := by
  refine ⟨⟨hsampleRate, hblockSize, ?_, fun _ => ?_, fun length hlooped => ?_⟩, htempo⟩
  · exact htempo.imp fun _ h => h.2
  · exact .inr ⟨0, zero_le_one, by exact_mod_cast hasValue_ofNat (n := 0) (by decide)⟩
  · exact of_decide_eq_true (Option.filter_eq_some_iff.mp hlooped).2

namespace Course

/-- What holds of a session at all times, given a tempo that no request exceeds: a block that it sends
adds no more ticks than that tempo allows, and the blocks of what it plays once follow one another up to
where it stands. -/
structure Counts (settings : AudioSettings) (source : Source) (fastest : ℚ) (x : Course σ) : Prop where
  setUp : x.session.IsSetUp settings source
  keepsTempo : x.session.scheduler.transport.playing = true → x.session.scheduler.KeepsTempo fastest
  moved_lt : ∀ w ∈ x.windows, (w.moved : ℚ)
    < Transport.mostTicks (max settings.blockSize 1) settings.sampleRate fastest
  joined : x.session.scheduler.loopLength = none → ∃ last, Window.Joined Ticks.zero x.windows last
    ∧ (x.session.scheduler.transport.playing = true → last = x.session.position)

variable {settings : AudioSettings} {source : Source} {fastest : ℚ}

theorem counts_new (sink : σ) : Counts settings source fastest (new sink settings source) where
  setUp := ⟨rfl, rfl, rfl, rfl, rfl⟩
  keepsTempo hplaying := absurd hplaying Bool.false_ne_true
  moved_lt := List.forall_mem_nil _
  joined _ := ⟨Ticks.zero, .nil _, fun hplaying => absurd hplaying Bool.false_ne_true⟩

variable {x : Course σ}

/-- A session that is stopped counts whatever it has sent. -/
theorem Counts.stopped {session : Session σ} (hsetUp : session.IsSetUp settings source)
    (hstopped : session.scheduler.transport.playing = false) {windows : List Window}
    (composition : Option Composition)
    (hmoved : ∀ w ∈ windows, (w.moved : ℚ)
      < Transport.mostTicks (max settings.blockSize 1) settings.sampleRate fastest)
    (hjoined : session.scheduler.loopLength = none →
      ∃ last, Window.Joined Ticks.zero windows last) :
    Counts settings source fastest ⟨session, composition, windows⟩ := by
  have hnot : session.scheduler.transport.playing ≠ true := by
    rw [hstopped]
    exact Bool.false_ne_true
  refine ⟨hsetUp, fun hplaying => absurd hplaying hnot, hmoved, fun honce => ?_⟩
  obtain ⟨last, hlast⟩ := hjoined honce
  exact ⟨last, hlast, fun hplaying => absurd hplaying hnot⟩

/-- A block that is sent continues those before. -/
theorem Counts.sent (h : Counts settings source fastest x) (hrate : 1 ≤ settings.sampleRate)
    (hplaying : x.session.scheduler.transport.playing = true) {session : Session σ}
    (hsetUp : session.IsSetUp settings source)
    (hscheduler : session.scheduler = (x.session.scheduler.nextBlock x.session.router.render).2) :
    Counts settings source fastest { x with
      session
      windows := x.windows
        ++ [(x.session.scheduler.transport.move x.session.scheduler.blockSize).1] } := by
  have hkeeps := h.keepsTempo hplaying
  refine ⟨hsetUp, fun _ => ?_, fun w hw => ?_, fun honce => ?_⟩
  · rw [hscheduler]
    exact hkeeps.nextBlock hplaying
  · rcases List.mem_append.mp hw with hw | hw
    · exact h.moved_lt w hw
    · obtain rfl := List.mem_singleton.mp hw
      rw [← h.setUp.sampleRate_eq, ← h.setUp.blockSize_eq]
      exact hkeeps.moved_lt (by rw [h.setUp.sampleRate_eq]; exact hrate)
  · have hloop : x.session.scheduler.loopLength = none := by
      rwa [hscheduler, Scheduler.nextBlock_of_playing hplaying] at honce
    obtain ⟨last, hjoined, hlast⟩ := h.joined hloop
    rw [hlast hplaying] at hjoined
    refine ⟨_, hjoined.append (Transport.joined_move _ _), fun _ => ?_⟩
    rw [position, hscheduler, Scheduler.position_nextBlock hplaying hloop]

/-- A session that is pumped goes on counting. -/
theorem Counts.feed (h : Counts settings source fastest x) (behaviour : Sink σ)
    (hrate : 1 ≤ settings.sampleRate) : Counts settings source fastest (x.serve behaviour .feed) := by
  have hsetUp := h.setUp.feed behaviour
  have hserve : x.serve behaviour .feed = { x with
      session := (x.session.feed behaviour).2
      windows := x.windows ++ (x.session.window? behaviour).toList } := rfl
  rw [hserve]
  rcases Bool.eq_false_or_eq_true x.session.scheduler.transport.playing with hplaying | hstopped
  · rcases window?_cases hplaying behaviour with
      ⟨hwindow, hscheduler⟩ | ⟨hwindow, hscheduler | hscheduler⟩
    · rw [hwindow]
      exact h.sent hrate hplaying hsetUp hscheduler
    · rw [hwindow, Option.toList_none, List.append_nil]
      refine ⟨hsetUp, ?_, h.moved_lt, ?_⟩
      · rw [hscheduler]
        exact h.keepsTempo
      · rw [position, hscheduler]
        exact h.joined
    · rw [hwindow, Option.toList_none, List.append_nil]
      refine .stopped hsetUp (by rw [hscheduler]; rfl) _ h.moved_lt fun honce => ?_
      rw [hscheduler] at honce
      exact (h.joined honce).imp fun _ hlast => hlast.1
  · have hwindow : x.session.window? behaviour = none := by
      simp [window?, isPlaying, hstopped]
    rw [hwindow, Option.toList_none, List.append_nil, feed_of_stopped hstopped]
    exact h

/-- Every request keeps the count of a session. -/
theorem Counts.serve (h : Counts settings source fastest x) (behaviour : Sink σ)
    (hrate : 1 ≤ settings.sampleRate) (hrateLt : settings.sampleRate < 2 ^ 32)
    (hblock : settings.blockSize < 2 ^ 32) {request : Request}
    (htempo : ∀ bpm ∈ request.tempo?, isTempo bpm = true → ∃ tempo ≤ fastest, HasValue bpm tempo) :
    Counts settings source fastest (x.serve behaviour request) := by
  cases request with
  | start composition registry bpm looping volumes voices =>
    have hsetUp := h.setUp.start behaviour composition registry bpm looping volumes voices
    simp only [Course.serve, Session.serve, start_eq] at hsetUp ⊢
    cases hrefusal : refusal? behaviour x.session composition bpm with
    | some e =>
      exact .stopped (h.setUp.stop behaviour) rfl _ (List.forall_mem_nil _) fun _ => ⟨_, .nil _⟩
    | none =>
      have hbpm := (sounds_of_not_refused behaviour x.session composition bpm hrefusal).2
      rw [hrefusal] at hsetUp
      refine ⟨hsetUp, fun _ => ?_, List.forall_mem_nil _, fun _ => ⟨_, .nil _, fun _ => rfl⟩⟩
      exact keepsTempo_opened (exists_tempo_of_isTempo hbpm (htempo bpm rfl hbpm))
        (by rw [h.setUp.sampleRate_eq]; exact hrateLt)
        (by rw [h.setUp.blockSize_eq]; exact max_lt hblock (by norm_num))
        registry looping volumes voices
  | feed => exact h.feed behaviour hrate
  | stop =>
    exact .stopped (h.setUp.stop behaviour) rfl _ h.moved_lt fun honce =>
      (h.joined honce).imp fun _ hlast => hlast.1
  | setTempo bpm =>
    show Counts settings source fastest { x with session := (x.session.setTempo bpm).2 }
    rw [Session.setTempo, requireTempo]
    by_cases hbpm : isTempo bpm = true
    · rw [if_pos hbpm]
      have hvalue := exists_tempo_of_isTempo hbpm (htempo bpm rfl hbpm)
      exact ⟨{ h.setUp with }, fun hplaying => (h.keepsTempo hplaying).setTempo hvalue, h.moved_lt,
        h.joined⟩
    · rw [if_neg hbpm]
      exact h
  | setVolume channel db => exact ⟨{ h.setUp with }, h.keepsTempo, h.moved_lt, h.joined⟩

/-- What holds of a session at first holds after all requests. -/
theorem Counts.after (h : Counts settings source fastest x) (behaviour : Sink σ)
    (hrate : 1 ≤ settings.sampleRate) (hrateLt : settings.sampleRate < 2 ^ 32)
    (hblock : settings.blockSize < 2 ^ 32) {requests : List Request}
    (htempos : ∀ request ∈ requests, ∀ bpm ∈ request.tempo?, isTempo bpm = true →
      ∃ tempo ≤ fastest, HasValue bpm tempo) :
    Counts settings source fastest (x.after behaviour requests) := by
  induction requests generalizing x with
  | nil => exact h
  | cons request rest ih =>
    obtain ⟨hfirst, hrest⟩ := List.forall_mem_cons.mp htempos
    exact ih (h.serve behaviour hrate hrateLt hblock hfirst) hrest

end Course

end Session

/-! ## Renderings -/

/-- The scheduler of a rendering keeps the tempo that it is given. -/
theorem Rendering.keepsTempo_scheduler (events : List NoteEvent) {bpm : Float} {tempo : ℚ}
    {settings : AudioSettings} (hrateLt : settings.sampleRate < 2 ^ 32)
    (hblock : settings.blockSize < 2 ^ 32) (hpos : 0 < tempo) (htempo : HasValue bpm tempo) :
    (Rendering.scheduler events bpm settings).KeepsTempo tempo where
  keepsTime :=
    { sampleRate_lt := hrateLt
      blockSize_lt := max_lt hblock (by norm_num)
      exists_tempo := ⟨tempo, hpos, htempo⟩
      carriesFraction := fun _ =>
        .inr ⟨0, zero_le_one, by exact_mod_cast hasValue_ofNat (n := 0) (by decide)⟩
      position_lt := fun _ hlooped => absurd hlooped.symm (Option.some_ne_none _) }
  exists_tempo := ⟨tempo, le_rfl, hpos, htempo⟩

/-- Windows that join from the start, each with less than some number of ticks. -/
theorem Window.fits_of_joined {windows : List Window} {last : Ticks} {most : ℚ}
    (hjoined : Window.Joined Ticks.zero windows last)
    (hmost : ∀ w ∈ windows, (w.moved : ℚ) < most) :
    ((∀ w ∈ windows, w.IsCounted) ↔ (windows.map Window.moved).sum < 2 ^ 64)
      ∧ ((∀ w ∈ windows, w.IsForward) ↔ ∀ w ∈ windows, w.IsCounted)
      ∧ (windows.length * most ≤ 2 ^ 64 → ∀ w ∈ windows, w.IsCounted) := by
  have hcounted := hjoined.isCounted_iff
  rw [Ticks.toNat_zero, Nat.zero_add] at hcounted
  exact ⟨hcounted, forall₂_congr fun w _ => w.isForward_iff,
    fun hle => hcounted.mpr (Window.sum_moved_lt hmost hle)⟩

/-- What plays once, as a rendering or in a session whose tempo may change between blocks, stands where
the ticks of its blocks have led it, counted in a word.  The additions all stay in the word exactly if
their sum does, and the position goes back where one of them does not.  Every block adds less than what
its exact ticks come to with a little more, so that as many blocks as fit into a word that way are safe
at a tempo. -/
theorem ticks_of_playing_once {σ : Type} (settings : AudioSettings) (source : Source)
    (hrate : 1 ≤ settings.sampleRate) (hrateLt : settings.sampleRate < 2 ^ 32)
    (hblock : settings.blockSize < 2 ^ 32) :
    let total (windows : List Window) : Nat := (windows.map Window.moved).sum
    let most (tempo : ℚ) : ℚ :=
      (1 + 1 / 2 ^ 48) * ((max settings.blockSize 1 : ℕ) * tempo * 960 / (60 * settings.sampleRate)) + 2
    let fits (tempo : ℚ) (windows : List Window) : Prop :=
      ((∀ w ∈ windows, w.IsCounted) ↔ total windows < 2 ^ 64)
        ∧ ((∀ w ∈ windows, w.IsForward) ↔ ∀ w ∈ windows, w.IsCounted)
        ∧ (windows.length * most tempo ≤ 2 ^ 64 → ∀ w ∈ windows, w.IsCounted)
    (∀ composition registry bpm volumes voices tempo count,
      isTempo bpm = true → HasValue bpm tempo →
      let prepared := Preparation.ofComposition composition registry volumes voices settings source
      let s := Rendering.scheduler prepared.events bpm settings
      let windows := s.windowsOf prepared.router.render count
      (s.after prepared.router.render count).transport.position.toNat = total windows % 2 ^ 64
        ∧ fits tempo windows)
    ∧ ∀ (behaviour : Sink σ) (sink : σ) (requests : List Session.Request) (tempo : ℚ),
      (∀ request ∈ requests, ∀ bpm ∈ request.tempo?, isTempo bpm = true →
        ∃ value ≤ tempo, HasValue bpm value) →
      let x := (Session.Course.new sink settings source).after behaviour requests
      x.session.scheduler.loopLength = none →
        (x.session.isPlaying = true → x.session.position.toNat = total x.windows % 2 ^ 64)
          ∧ fits tempo x.windows := by
  intro total most fits
  have hlast {windows : List Window} {last : Ticks} (h : Window.Joined Ticks.zero windows last) :
      last.toNat = total windows % 2 ^ 64 := by
    rw [h.toNat_last, Ticks.toNat_zero, Nat.zero_add]
  constructor
  · intro composition registry bpm volumes voices tempo count hbpm htempo prepared s windows
    obtain ⟨-, hpos⟩ := Bool.and_eq_true_iff.mp hbpm
    have hkeeps : s.KeepsTempo tempo := Rendering.keepsTempo_scheduler prepared.events hrateLt hblock
      ((hasValue_zero.lt_iff htempo).mp (of_decide_eq_true hpos)) htempo
    have hjoined : Window.Joined s.transport.position windows
        (s.after prepared.router.render count).transport.position :=
      Scheduler.joined_windowsOf rfl rfl count
    rw [show s.transport.position = Ticks.zero from rfl] at hjoined
    refine ⟨hlast hjoined, Window.fits_of_joined hjoined fun w hw => ?_⟩
    obtain ⟨k, -, rfl⟩ := List.mem_map.mp hw
    have hgoes : s.GoesOn (s.after prepared.router.render k) := Scheduler.goesOn_after rfl k
    have hafter : (s.after prepared.router.render k).KeepsTempo tempo := hkeeps.after rfl k
    refine (hafter.moved_lt (hgoes.sampleRate_eq ▸ hrate)).trans_eq ?_
    rw [hgoes.sampleRate_eq, hgoes.blockSize_eq]
    rfl
  · intro behaviour sink requests tempo htempos x honce
    have hcounts : x.Counts settings source tempo :=
      (Session.Course.counts_new sink).after behaviour hrate hrateLt hblock htempos
    obtain ⟨last, hjoined, hposition⟩ := hcounts.joined honce
    refine ⟨fun hplaying => ?_, Window.fits_of_joined hjoined hcounts.moved_lt⟩
    rw [← hposition hplaying]
    exact hlast hjoined

/-- A stroke and two rests, rendered in four blocks, and played by a session that changes its tempo
between blocks and refuses another one. -/
theorem ticks_of_playing_once_of_stroke :
    let text := "kick: x - -".toList
    let composition := (Composition.ofText text Registry.empty).1
    let registry := (Composition.ofText text Registry.empty).2
    let settings : AudioSettings :=
      { sampleRate := 8, channels := 2, blockSize := 3, tail := 0.5, seed := 1 }
    let source : Source := fun _ => .error (.unreachable "")
    let prepared := Preparation.ofComposition composition registry [] [] settings source
    let s := Rendering.scheduler prepared.events 120 settings
    let requests : List Session.Request := [.start composition registry 120 false [] [], .feed,
      .setTempo 150, .feed, .setTempo (-1), .feed]
    let x := (Session.Course.new Captured.empty settings source).after Captured.sink requests
    1 ≤ settings.sampleRate ∧ settings.sampleRate < 2 ^ 32 ∧ settings.blockSize < 2 ^ 32
      ∧ isTempo 120 = true ∧ HasValue 120 120
      ∧ (∀ w ∈ s.windowsOf prepared.router.render 4, w.IsCounted)
      ∧ (∀ request ∈ requests, ∀ bpm ∈ request.tempo?, isTempo bpm = true →
        ∃ value ≤ 150, HasValue bpm value)
      ∧ x.session.scheduler.loopLength = none
      ∧ x.windows.map (fun w => (w.start.toNat, w.finish.toNat))
        = [(0, 720), (720, 1620), (1620, 2520)]
      ∧ x.session.position.toNat = (x.windows.map Window.moved).sum % 2 ^ 64
      ∧ ∀ w ∈ x.windows, w.IsCounted := by
  intro text composition registry settings source prepared s requests x
  have hslow : HasValue 120 120 := by
    rw [show (120 : Float) = Scalar.ofNat 120 by decide +kernel]
    exact_mod_cast hasValue_ofNat (n := 120) (by decide)
  have hfast : HasValue 150 150 := by
    rw [show (150 : Float) = Scalar.ofNat 150 by decide +kernel]
    exact_mod_cast hasValue_ofNat (n := 150) (by decide)
  have htempo : isTempo 120 = true := by decide +kernel
  have hrefused : isTempo (-1) = false := by decide +kernel
  have htempos : ∀ request ∈ requests, ∀ bpm ∈ request.tempo?, isTempo bpm = true →
      ∃ value ≤ (150 : ℚ), HasValue bpm value := by
    intro request hrequest bpm hbpm hok
    simp only [requests, List.mem_cons, List.not_mem_nil, or_false] at hrequest
    rcases hrequest with rfl | rfl | rfl | rfl | rfl | rfl <;> cases hbpm
    · exact ⟨120, by norm_num, hslow⟩
    · exact ⟨150, le_rfl, hfast⟩
    · rw [hrefused] at hok
      cases hok
  have honce : x.session.scheduler.loopLength = none := by decide +kernel
  have hplaying : x.session.isPlaying = true := by decide +kernel
  have hwindows : x.windows.map (fun w => (w.start.toNat, w.finish.toNat))
      = [(0, 720), (720, 1620), (1620, 2520)] := by
    decide +kernel
  have hlength : x.windows.length = 3 := by
    simpa using congrArg List.length hwindows
  obtain ⟨hrendered, hplayed⟩ := ticks_of_playing_once (σ := Captured) settings source
    (by decide) (by decide) (by decide)
  obtain ⟨-, -, -, hsafe⟩ :=
    hrendered composition registry 120 [] [] 120 4 htempo hslow
  obtain ⟨hposition, -, -, hsafeOnce⟩ :=
    hplayed Captured.sink Captured.empty requests 150 htempos honce
  refine ⟨by decide, by decide, by decide, htempo, hslow, hsafe ?_, htempos, honce, hwindows,
    hposition hplaying, hsafeOnce ?_⟩
  · rw [Scheduler.windowsOf, List.length_map, List.length_range]
    norm_num [settings]
  · rw [hlength]
    norm_num [settings]

/-- At the tempo of 15 times two to the power of 59, which is finite and above zero, a frame takes 15
times two to the power of 60 ticks at a sample rate of 8.  In the second of eight blocks of a rendering
the count leaves its word and the position goes back, and so it does in a session. -/
theorem position_goes_back_at_tempo :
    let text := "kick: x".toList
    let composition := (Composition.ofText text Registry.empty).1
    let registry := (Composition.ofText text Registry.empty).2
    let settings : AudioSettings :=
      { sampleRate := 8, channels := 1, blockSize := 1, tail := 1, seed := 42 }
    let source : Source := fun _ => .error (.unreachable "")
    let bpm : Float := 8646911284551352320
    let prepared := Preparation.ofComposition composition registry [] [] settings source
    let s := Rendering.scheduler prepared.events bpm settings
    let rendered (count : Nat) := (s.after prepared.router.render count).transport.position.toNat
    let played (requests : List Session.Request) :=
      (Session.Course.new Captured.empty settings source).after Captured.sink
        (.start composition registry bpm false [] [] :: requests)
    isTempo bpm = true
      ∧ Rendering.frameCount composition.length bpm settings = 8
      ∧ rendered 1 = 15 * 2 ^ 60 ∧ rendered 2 = 14 * 2 ^ 60
      ∧ (played [.feed]).session.position.toNat = 15 * 2 ^ 60
      ∧ (played [.feed, .feed]).session.position.toNat = 14 * 2 ^ 60
      ∧ (played [.feed, .feed]).session.isPlaying = true
      ∧ ¬ ∀ w ∈ (played [.feed, .feed]).windows, w.IsForward := by
  decide +kernel

end Stave
