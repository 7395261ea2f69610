import Stave.Proofs.Time.Clock
import Stave.Proofs.Time.Measuring

/-!
# When events begin

An event begins in the block whose window has its tick, at the frame that the distance from the start
of the window comes to.  Windows are whole ticks, so that the fraction of a tick carried into a block
makes its events up to one tick late; rounding to a frame adds half a frame either way.  Read over the
rational numbers, onsets never go back, and at one tempo each is within a tick of the place that its own
tick has, as long as a word can count to the start of its block.
-/

namespace Stave

/-! ## Distances -/

/-- What is not above a whole number is not rounded to more. -/
theorem floor_add_half_le {x : ℚ} {n : Nat} (hx : 0 ≤ x) (hle : x ≤ n) : ⌊x + 1 / 2⌋₊ ≤ n := by
  rw [← Nat.lt_add_one_iff, Nat.floor_lt (by linarith)]
  push_cast
  linarith

/-- The frames that one tick takes at the tempo of a clock. -/
def Transport.framesPerTick (t : Transport ℚ) : ℚ := 60 * t.sampleRate / (960 * t.bpm)

/-- A distance in frames is rounded to the nearest frame. -/
theorem Ticks.toFrames_eq (d : Ticks) (t : Transport ℚ) (hbpm : 0 < t.bpm) :
    d.toFrames t.bpm t.sampleRate
      = min ⌊d.toNat * t.framesPerTick + 1 / 2⌋₊ (2 ^ 64 - 1) := by
  have hexact : Scalar.ofNat d.toNat * Scalar.ofNat 60 * Scalar.ofNat t.sampleRate
      / (Scalar.ofNat perBeat * t.bpm) = d.toNat * t.framesPerTick := by
    show (d.toNat : ℚ) * (60 : ℕ) * t.sampleRate / ((960 : ℕ) * t.bpm) = _
    rw [Transport.framesPerTick]
    push_cast
    ring
  have hnonneg : 0 ≤ d.toNat * t.framesPerTick := by
    rw [Transport.framesPerTick]
    positivity
  rw [toFrames, hexact, Scalar.toNat_round hnonneg]

/-- Whether a clock has counted some blocks of equal length: it is never ahead of them, and not behind
them either as long as a word can count so far. -/
structure Transport.HasCounted (t : Transport ℚ) (blocks frames : Nat) : Prop where
  le : t.position.toNat + t.carry ≤ blocks * t.exact frames
  eq : blocks * t.exact frames < 2 ^ 64 → t.position.toNat + t.carry = blocks * t.exact frames

namespace Transport.Runs

variable {t : Transport ℚ}

theorem framesPerTick_pos (h : t.Runs) (hbpm : 0 < t.bpm) : 0 < t.framesPerTick := by
  have hrate : (0 : ℚ) < t.sampleRate := by exact_mod_cast h.sampleRate_pos
  rw [framesPerTick]
  positivity

/-- Ticks and frames are turned into each other. -/
theorem exact_mul_framesPerTick (h : t.Runs) (hbpm : 0 < t.bpm) (frames : Nat) :
    t.exact frames * t.framesPerTick = frames := by
  have hrate : (t.sampleRate : ℚ) ≠ 0 := by exact_mod_cast h.sampleRate_pos.ne'
  rw [exact, framesPerTick]
  field_simp

/-- A clock that has counted some blocks counts one more. -/
theorem hasCounted_move (h : t.Runs) {blocks frames : Nat} (hcounted : t.HasCounted blocks frames) :
    (t.move frames).2.HasCounted (blocks + 1) frames := by
  have hticks : t.exact frames + t.carry
      = ((t.move frames).1.finish.toNat - t.position.toNat : ℚ)
        + (t.reached frames - (t.move frames).1.finish.toNat : ℕ) + (t.move frames).2.carry :=
    h.exact_move frames
  have hsame : (t.move frames).2.exact frames = t.exact frames := rfl
  have hlost : (0 : ℚ) ≤ (t.reached frames - (t.move frames).1.finish.toNat : ℕ) := Nat.cast_nonneg _
  have hle := hcounted.le
  refine ⟨?_, fun hword => ?_⟩
  · rw [position_move, hsame]
    push_cast
    linarith
  · rw [hsame] at hword
    push_cast at hword
    have hnonneg := h.exact_nonneg frames
    have hbefore := hcounted.eq (by linarith)
    -- the block ends where a word can count, so that nothing of it is lost
    have hreached : t.reached frames < 2 ^ 64 := by
      have hwhole := h.floor_add_carry frames
      have hcarry := (h.move frames).carry_nonneg
      have hcast : (t.reached frames : ℚ) < 2 ^ 64 := by
        rw [reached, Nat.cast_add]
        linarith
      exact_mod_cast hcast
    rw [(t.toNat_finish_eq_reached_iff frames).mpr hreached, Nat.sub_self, Nat.cast_zero] at hticks
    rw [position_move, hsame, (t.toNat_finish_eq_reached_iff frames).mpr hreached]
    push_cast
    linarith

end Transport.Runs

namespace Scheduler

variable {σ β : Type}

/-- What holds of a scheduler that plays once, at tempos above zero. -/
structure KeepsPace (s : Scheduler ℚ β) : Prop where
  once : s.loopLength = none
  runs : s.transport.Runs
  bpm_pos : 0 < s.transport.bpm
  blockSize_lt : s.blockSize < 2 ^ 64

/-! ## One block -/

namespace KeepsPace

variable {s : Scheduler ℚ β}

/-- The events of a block are at their distances from its start, all of them before its end. -/
theorem frame_eq (h : s.KeepsPace) {onset : Onset ℚ} (honset : onset ∈ s.onsetsNext) :
    let distance := (onset.event.beat.toNat - s.transport.position.toNat) * s.transport.framesPerTick
    onset.frame = ⌊distance + 1 / 2⌋₊ ∧ 0 ≤ distance ∧ distance ≤ s.blockSize := by
  obtain ⟨⟨e, d⟩, hdue, rfl⟩ := List.mem_map.mp honset
  intro distance
  have hlt := distance_lt (fun length hlength => by rw [h.once] at hlength; cases hlength) hdue
  rw [dueNext_of_once s h.once] at hdue
  obtain ⟨found, hfound, heq⟩ := List.mem_map.mp hdue
  obtain ⟨rfl, rfl⟩ := Prod.mk.inj heq
  have hstart := Ticks.le_iff_toNat_le.mp (Timeline.beat_mem_of_mem_drain hfound).1
  have hpos := h.runs.framesPerTick_pos h.bpm_pos
  -- the distance is a whole number of ticks, one less than the clock moves at most
  have hticks : ((found.beat - s.transport.position).toNat : ℚ)
      = found.beat.toNat - s.transport.position.toNat := by
    rw [Ticks.toNat_sub, Nat.cast_sub hstart]
  have hmoved : (found.beat.toNat - s.transport.position.toNat : ℚ)
      ≤ s.transport.exact s.blockSize := by
    have hfloor : (found.beat - s.transport.position).toNat + 1
        ≤ ⌊s.transport.elapsed s.blockSize⌋₊ := by
      rw [Scalar.toNat_floor] at hlt
      exact Nat.succ_le_of_lt (hlt.trans_le (min_le_left _ _))
    have hcast : ((found.beat - s.transport.position).toNat + 1 : ℚ)
        ≤ ⌊s.transport.elapsed s.blockSize⌋₊ := by
      exact_mod_cast hfloor
    have hwhole := h.runs.floor_add_carry s.blockSize
    have hcarry := h.runs.carry_lt
    have hnext := (h.runs.move s.blockSize).carry_nonneg
    rw [hticks] at hcast
    linarith
  have hnonneg : 0 ≤ distance := by
    refine mul_nonneg ?_ hpos.le
    rw [← hticks]
    exact Nat.cast_nonneg _
  have hle : distance ≤ s.blockSize := by
    calc distance ≤ s.transport.exact s.blockSize * s.transport.framesPerTick :=
          mul_le_mul_of_nonneg_right hmoved hpos.le
      _ = s.blockSize := h.runs.exact_mul_framesPerTick h.bpm_pos s.blockSize
  refine ⟨?_, hnonneg, hle⟩
  have hfloor := floor_add_half_le hnonneg hle
  have hsize := h.blockSize_lt
  show (found.beat - s.transport.position).toFrames s.dueNext.2.2.bpm s.dueNext.2.2.sampleRate = _
  rw [s.bpm_dueNext, s.sampleRate_dueNext, Ticks.toFrames_eq _ _ h.bpm_pos, hticks]
  exact min_eq_left (hfloor.trans (Nat.le_sub_one_of_lt hsize))

/-- No onset is behind the end of its block. -/
theorem frame_le (h : s.KeepsPace) {onset : Onset ℚ} (honset : onset ∈ s.onsetsNext) :
    onset.frame ≤ s.blockSize := by
  obtain ⟨hframe, hnonneg, hle⟩ := h.frame_eq honset
  rw [hframe]
  exact floor_add_half_le hnonneg hle

/-- The events of a block are in the order of their starts, and so are their onsets. -/
theorem pairwise_frame (h : s.KeepsPace) : s.onsetsNext.Pairwise fun a b => a.frame ≤ b.frame := by
  have hpos := h.runs.framesPerTick_pos h.bpm_pos
  have hsorted : s.onsetsNext.Pairwise fun a b => a.event.beat ≤ b.event.beat := by
    have hdrained : (s.timeline.drain s.transport.position
        (s.transport.move s.blockSize).1.finish).1.Pairwise fun a b => a.beat ≤ b.beat := by
      rw [Timeline.fst_drain]
      exact s.timeline.pairwise_unread.sublist List.filter_sublist
    rw [onsetsNext, Window.onsets, dueNext_of_once s h.once, List.map_map, List.pairwise_map]
    exact hdrained
  refine hsorted.imp_of_mem fun {a b} ha hb hab => ?_
  have hbeat : (a.event.beat.toNat : ℚ) ≤ b.event.beat.toNat := by
    exact_mod_cast Ticks.le_iff_toNat_le.mp hab
  rw [(h.frame_eq ha).1, (h.frame_eq hb).1]
  gcongr

/-- Behind some blocks at one tempo no onset is early by more than half a frame, and none is late by
more than a tick and half a frame, as long as a word can count to the block. -/
theorem onset_near (h : s.KeepsPace) {blocks : Nat}
    (hcounted : s.transport.HasCounted blocks s.blockSize) {onset : Onset ℚ}
    (honset : onset ∈ s.onsetsNext) :
    let ticks := (onset.event.beat.toNat : ℚ)
    ticks * s.transport.framesPerTick - 1 / 2 ≤ blocks * s.blockSize + onset.frame
      ∧ (blocks * s.blockSize < 2 ^ 64 * s.transport.framesPerTick →
        blocks * s.blockSize + onset.frame
          ≤ ticks * s.transport.framesPerTick + s.transport.framesPerTick + 1 / 2) := by
  obtain ⟨hframe, hnonneg, -⟩ := h.frame_eq honset
  intro ticks
  have hpos := h.runs.framesPerTick_pos h.bpm_pos
  have hframes := h.runs.exact_mul_framesPerTick h.bpm_pos s.blockSize
  have hcarry := h.runs.carry_nonneg
  have hcarryLt := h.runs.carry_lt
  have hlow := Nat.lt_floor_add_one
    ((ticks - s.transport.position.toNat) * s.transport.framesPerTick + 1 / 2)
  have hhigh := Nat.floor_le (add_nonneg hnonneg (by norm_num : (0 : ℚ) ≤ 1 / 2))
  rw [← hframe] at hlow hhigh
  generalize s.transport.framesPerTick = perTick at *
  have hblocks : (blocks * s.blockSize : ℚ) = blocks * s.transport.exact s.blockSize * perTick := by
    rw [mul_assoc, hframes]
  constructor
  · -- the clock is not ahead of the blocks
    have hbehind := mul_le_mul_of_nonneg_right hcounted.le hpos.le
    have hlate := mul_nonneg hcarry hpos.le
    rw [hblocks]
    linarith
  · intro hword
    have hexact := hcounted.eq (by
      rw [hblocks] at hword
      exact lt_of_mul_lt_mul_right hword hpos.le)
    have hlate := mul_le_mul_of_nonneg_right hcarryLt.le hpos.le
    rw [hblocks, ← hexact]
    linarith

/-- The clock of the next block. -/
theorem transport_dueNext (h : s.KeepsPace) :
    s.dueNext.2.2 = (s.transport.move s.blockSize).2 := by
  rw [dueNext_of_once s h.once]

theorem next (h : s.KeepsPace) (timeline : Timeline) (tail : List β) :
    KeepsPace { s with timeline, transport := s.dueNext.2.2, tail } where
  once := h.once
  runs := by
    rw [h.transport_dueNext]
    exact h.runs.move s.blockSize
  bpm_pos := by
    rw [h.transport_dueNext]
    exact h.bpm_pos
  blockSize_lt := h.blockSize_lt

end KeepsPace

/-! ## Runs -/

section

variable [Add β] [Zero β] {p : Performer σ ℚ β}

/-- Whether all tempos that some actions set are above zero. -/
def TemposPos (actions : List (Action ℚ)) : Prop := ∀ bpm, .setTempo bpm ∈ actions → 0 < bpm

theorem TemposPos.of_cons {action : Action ℚ} {rest : List (Action ℚ)}
    (h : TemposPos (action :: rest)) : TemposPos rest :=
  fun bpm hbpm => h bpm (List.mem_cons_of_mem action hbpm)

theorem KeepsPace.act {x : Scheduler ℚ β × σ} (h : x.1.KeepsPace) {action : Action ℚ}
    {rest : List (Action ℚ)} (htempos : TemposPos (action :: rest)) :
    (act p x action).1.KeepsPace ∧ (act p x action).1.blockSize = x.1.blockSize := by
  cases action with
  | play => exact ⟨{ h with runs := { h.runs with playing := rfl } }, rfl⟩
  | setTempo bpm =>
    have hbpm := htempos bpm List.mem_cons_self
    exact ⟨{ h with runs := { h.runs with bpm_nonneg := hbpm.le }, bpm_pos := hbpm }, rfl⟩
  | block =>
    have hblock := performBlock_of_playing x.1 p x.2 h.runs.playing
    rw [show Scheduler.act p x .block = _ from congrArg Prod.snd hblock]
    exact ⟨h.next _ _, rfl⟩

/-- The sounds of a run that begins with a block. -/
theorem sounds_block {x : Scheduler ℚ β × σ} (h : x.1.transport.playing = true)
    (rest : List (Action ℚ)) :
    sounds p (.block :: rest) x = p.sounds x.1.conditionsNext x.1.onsetsNext x.2
      ++ (sounds p rest (act p x .block)).map PlacedSound.later := by
  rw [sounds, block?, performBlock_of_playing x.1 p x.2 h]

omit [Add β] [Zero β] in
theorem mem_onsetsNext_of_mem_sounds {x : Scheduler ℚ β × σ} {sound : PlacedSound ℚ β}
    (h : sound ∈ p.sounds x.1.conditionsNext x.1.onsetsNext x.2) :
    sound.block = 0 ∧ sound.onset ∈ x.1.onsetsNext := by
  have hpair := List.mem_map_of_mem (f := fun s : PlacedSound ℚ β => (s.block, s.onset)) h
  rw [p.map_onset_sounds] at hpair
  obtain ⟨onset, honset, heq⟩ := List.mem_map.mp hpair
  obtain ⟨hblock, rfl⟩ := Prod.mk.inj heq
  exact ⟨hblock.symm, honset⟩

omit [Add β] [Zero β] in
/-- The sounds of a block begin in the order of its onsets. -/
theorem KeepsPace.pairwise_frame_sounds {x : Scheduler ℚ β × σ} (h : x.1.KeepsPace) :
    (p.sounds x.1.conditionsNext x.1.onsetsNext x.2).Pairwise
      fun a b => a.onset.frame ≤ b.onset.frame := by
  have hpairwise : (x.1.onsetsNext.map fun onset => ((0 : Nat), onset)).Pairwise
      fun a b => a.2.frame ≤ b.2.frame := List.pairwise_map.mpr h.pairwise_frame
  rw [← p.map_onset_sounds x.1.conditionsNext x.1.onsetsNext x.2, List.pairwise_map] at hpairwise
  exact hpairwise

/-- In a run onsets never go back, and none is behind the end of its block. -/
theorem KeepsPace.pairwise_onsetFrame {x : Scheduler ℚ β × σ} (h : x.1.KeepsPace)
    {actions : List (Action ℚ)} (htempos : TemposPos actions) :
    (∀ sound ∈ sounds p actions x, sound.onset.frame ≤ x.1.blockSize)
      ∧ (sounds p actions x).Pairwise
        fun a b => a.onsetFrame x.1.blockSize ≤ b.onsetFrame x.1.blockSize := by
  induction actions generalizing x with
  | nil => exact ⟨by simp [sounds], List.Pairwise.nil⟩
  | cons action rest ih =>
    obtain ⟨hnext, hsize⟩ := h.act (p := p) htempos
    obtain ⟨hframes, hpairs⟩ := ih hnext htempos.of_cons
    rw [hsize] at hframes hpairs
    cases action with
    | play => exact ⟨hframes, hpairs⟩
    | setTempo bpm => exact ⟨hframes, hpairs⟩
    | block =>
      rw [sounds_block h.runs.playing]
      have hfirst : ∀ sound ∈ p.sounds x.1.conditionsNext x.1.onsetsNext x.2,
          sound.block = 0 ∧ sound.onset.frame ≤ x.1.blockSize := fun sound hsound =>
        (mem_onsetsNext_of_mem_sounds hsound).imp_right h.frame_le
      refine ⟨fun sound hsound => ?_, List.pairwise_append.mpr ⟨?_, ?_, ?_⟩⟩
      · rcases List.mem_append.mp hsound with hsound | hsound
        · exact (hfirst sound hsound).2
        · obtain ⟨later, hlater, rfl⟩ := List.mem_map.mp hsound
          exact hframes later hlater
      · refine h.pairwise_frame_sounds.imp_of_mem fun {a b} ha hb hab => ?_
        rw [PlacedSound.onsetFrame, PlacedSound.onsetFrame, (hfirst a ha).1, (hfirst b hb).1]
        exact Nat.add_le_add_left hab _
      · refine List.pairwise_map.mpr (hpairs.imp fun {a b} hab => ?_)
        rw [PlacedSound.onsetFrame_later, PlacedSound.onsetFrame_later]
        exact Nat.add_le_add_right hab _
      · -- what begins in the first block begins no later than the second block
        intro a ha b hb
        obtain ⟨later, -, rfl⟩ := List.mem_map.mp hb
        obtain ⟨hblock, hle⟩ := hfirst a ha
        rw [PlacedSound.onsetFrame_later, PlacedSound.onsetFrame, hblock, Nat.zero_mul, Nat.zero_add]
        exact hle.trans (Nat.le_add_left _ _)

/-- In a run at one tempo every onset is near the place of its tick. -/
theorem KeepsPace.onsetFrame_near {x : Scheduler ℚ β × σ} (h : x.1.KeepsPace) {blocks : Nat}
    (hcounted : x.1.transport.HasCounted blocks x.1.blockSize) {actions : List (Action ℚ)}
    (htempo : ∀ bpm, .setTempo bpm ∈ actions → bpm = x.1.transport.bpm) {sound : PlacedSound ℚ β}
    (hsound : sound ∈ sounds p actions x) :
    let perTick := x.1.transport.framesPerTick
    let ticks := (sound.onset.event.beat.toNat : ℚ)
    let begun := ((blocks + sound.block : ℕ) * x.1.blockSize : ℚ)
    ticks * perTick - 1 / 2 ≤ begun + sound.onset.frame
      ∧ (begun < 2 ^ 64 * perTick →
        begun + sound.onset.frame ≤ ticks * perTick + perTick + 1 / 2) := by
  induction actions generalizing x blocks sound with
  | nil => cases hsound
  | cons action rest ih =>
    have hrest : ∀ bpm, .setTempo bpm ∈ rest → bpm = x.1.transport.bpm := fun bpm hbpm =>
      htempo bpm (List.mem_cons_of_mem _ hbpm)
    cases action with
    | play =>
      exact ih (x := (x.1.play, x.2)) { h with runs := { h.runs with playing := rfl } }
        ⟨hcounted.le, hcounted.eq⟩ hrest hsound
    | setTempo bpm =>
      obtain rfl := htempo bpm List.mem_cons_self
      exact ih (x := (x.1.setTempo x.1.transport.bpm, x.2)) { h with } hcounted hrest hsound
    | block =>
      rw [sounds_block h.runs.playing] at hsound
      rcases List.mem_append.mp hsound with hsound | hsound
      · obtain ⟨hblock, honset⟩ := mem_onsetsNext_of_mem_sounds hsound
        rw [hblock]
        exact h.onset_near hcounted honset
      · obtain ⟨later, hlater, rfl⟩ := List.mem_map.mp hsound
        have hact : Scheduler.act p x .block = _ :=
          congrArg Prod.snd (performBlock_of_playing x.1 p x.2 h.runs.playing)
        rw [hact] at hlater
        have hmoved := h.runs.hasCounted_move hcounted
        rw [← h.transport_dueNext] at hmoved
        have hnear := ih (h.next _ _) hmoved (by rw [h.transport_dueNext]; exact hrest) hlater
        rw [h.transport_dueNext] at hnear
        rw [show blocks + later.later.block = blocks + 1 + later.block from
          Nat.add_right_comm blocks 1 later.block ▸ rfl]
        exact hnear

/-- Events that are loaded and played from the start, at tempos above zero, without a loop, begin in
the order in which they are triggered, none of them behind the end of its block.  At one tempo no event
begins more than half a frame before the place of its tick, and none more than a tick and half a frame
behind it, as long as a word can count the ticks to the start of its block; half a frame behind that,
all are later. -/
theorem onsetFrame_of_run (s : Scheduler ℚ β) (events : List NoteEvent) (p : Performer σ ℚ β)
    (state : σ) (actions : List (Action ℚ)) (honce : s.loopLength = none)
    (hrate : 1 ≤ s.transport.sampleRate) (hsize : s.blockSize < 2 ^ 64)
    (hbpm : 0 < s.transport.bpm) (htempos : TemposPos actions) :
    let sounds := sounds p actions ((s.load events).play, state)
    let perTick : ℚ := 60 * s.transport.sampleRate / (960 * s.transport.bpm)
    sounds.Pairwise (fun a b => a.onsetFrame s.blockSize ≤ b.onsetFrame s.blockSize)
      ∧ (∀ sound ∈ sounds, sound.onset.frame ≤ s.blockSize)
      ∧ ((∀ bpm, .setTempo bpm ∈ actions → bpm = s.transport.bpm) → ∀ sound ∈ sounds,
        let tick : ℚ := sound.onset.event.beat.toNat
        let frame : ℚ := sound.onsetFrame s.blockSize
        tick * perTick - 1 / 2 ≤ frame
          ∧ (sound.block * s.blockSize < 2 ^ 64 * perTick →
            frame ≤ tick * perTick + perTick + 1 / 2)
          ∧ (2 ^ 64 * perTick + 1 / 2 < sound.block * s.blockSize →
            tick * perTick + perTick + 1 / 2 < frame)) := by
  intro sounds perTick
  have hstart : ((s.load events).play, state).1.KeepsPace :=
    { once := honce
      runs := { playing := rfl, sampleRate_pos := hrate, bpm_nonneg := hbpm.le, carry_nonneg := le_rfl
                carry_lt := one_pos }
      bpm_pos := hbpm
      blockSize_lt := hsize }
  have hcounted : ((s.load events).play, state).1.transport.HasCounted 0 s.blockSize := by
    have hzero : (((s.load events).play.transport.position.toNat : ℚ)
        + (s.load events).play.transport.carry) = 0 := zero_add _
    exact ⟨by rw [hzero, Nat.cast_zero, zero_mul], fun _ => by rw [hzero, Nat.cast_zero, zero_mul]⟩
  obtain ⟨hframes, hpairs⟩ := hstart.pairwise_onsetFrame (p := p) htempos
  refine ⟨hpairs, hframes, fun htempo sound hsound => ?_⟩
  obtain ⟨hearly, hlate⟩ := hstart.onsetFrame_near (p := p) hcounted htempo hsound
  intro tick frame
  have hframe : frame = ((0 + sound.block : ℕ) * s.blockSize : ℚ) + sound.onset.frame := by
    rw [Nat.zero_add, ← Nat.cast_mul, ← Nat.cast_add]
    rfl
  have hbegun : (sound.block * s.blockSize : ℚ) = ((0 + sound.block : ℕ) * s.blockSize : ℚ) := by
    rw [Nat.zero_add]
  rw [hframe]
  refine ⟨hearly, fun hword => hlate (hbegun ▸ hword), fun hbeyond => ?_⟩
  -- no event starts behind the last tick of a word
  have htick : tick + 1 ≤ 2 ^ 64 := by
    have hlt : sound.onset.event.beat.toNat + 1 ≤ 2 ^ 64 := sound.onset.event.beat.toNat_lt
    show (sound.onset.event.beat.toNat : ℚ) + 1 ≤ 2 ^ 64
    exact_mod_cast hlt
  have hpos : 0 < perTick := hstart.runs.framesPerTick_pos hbpm
  have hlast := mul_le_mul_of_nonneg_right htick hpos.le
  have hnonneg : (0 : ℚ) ≤ sound.onset.frame := Nat.cast_nonneg _
  rw [hbegun] at hbeyond
  linarith

end

/-- Three strokes one tick after the other, in blocks of about a third of a tick: each begins with the
block in which its tick is passed. -/
theorem onsetFrame_of_run_in_short_blocks :
    let stroke (instrument : String) (beat : Nat) : NoteEvent :=
      { notes := ["C4"], beat := Ticks.ofNat beat, duration := Ticks.beat, lineIndex := 0
        tokenIndex := 0, soft := false, instrument }
    let events := [stroke "clap" 0, stroke "snare" 1, stroke "kick" 2]
    let s : Scheduler ℚ Int := Scheduler.new 60 44100 1 16
    let p : Performer Unit ℚ Int := Performer.ofRender fun _ _ => [1]
    let actions : List (Action ℚ) := .setTempo 60 :: List.replicate 9 .block
    let sounds := sounds p actions ((s.load events).play, ())
    let perTick : ℚ := 60 * 44100 / (960 * 60)
    s.loopLength = none ∧ 1 ≤ s.transport.sampleRate ∧ s.blockSize < 2 ^ 64 ∧ 0 < s.transport.bpm
      ∧ (∀ bpm, .setTempo bpm ∈ actions → 0 < bpm)
      ∧ sounds.map (fun sound => (sound.onset.event.instrument, sound.onsetFrame 16))
        = [("clap", 32), ("snare", 80), ("kick", 128)]
      ∧ sounds.Pairwise (fun a b => a.onsetFrame 16 ≤ b.onsetFrame 16)
      ∧ ∀ sound ∈ sounds,
        (sound.onset.event.beat.toNat * perTick - 1 / 2 : ℚ) ≤ sound.onsetFrame 16
          ∧ (sound.onsetFrame 16 : ℚ)
            ≤ sound.onset.event.beat.toNat * perTick + perTick + 1 / 2 := by
  intro stroke events s p actions sounds perTick
  have hconstant : ∀ bpm : ℚ, .setTempo bpm ∈ actions → bpm = 60 := fun bpm hbpm => by
    simpa [actions] using hbpm
  have htempos : TemposPos actions := fun bpm hbpm => by
    rw [hconstant bpm hbpm]
    norm_num
  obtain ⟨hpairs, -, hnear⟩ := onsetFrame_of_run s events p () actions rfl (by decide) (by decide)
    (by decide +kernel) htempos
  have hload : s.load events = { s with
      timeline := ⟨events, events, by decide, List.suffix_refl events⟩
      transport := s.transport.rewind
      tail := [] } := by
    rw [load, Timeline.ofEvents_of_pairwise]
  have hword : ∀ sound ∈ sounds, (sound.block * s.blockSize : ℚ) < 2 ^ 64 * perTick := by
    simp only [sounds, hload]
    decide +kernel
  have honsets : sounds.map (fun sound => (sound.onset.event.instrument, sound.onsetFrame 16))
      = [("clap", 32), ("snare", 80), ("kick", 128)] := by
    simp only [sounds, hload]
    decide +kernel
  refine ⟨rfl, by decide, by decide, by decide +kernel, htempos, honsets, hpairs,
    fun sound hsound => ?_⟩
  obtain ⟨hearly, hlate, -⟩ := hnear hconstant sound hsound
  exact ⟨hearly, hlate (hword sound hsound)⟩

/-- A stroke whose tick a word cannot reach in time: its place is the frame 64, and it begins at the
frame 166, when the count of ticks has come round. -/
theorem onset_behind_end_of_word_is_late :
    let stroke : NoteEvent :=
      { notes := ["C4"], beat := Ticks.ofNat (80 * 2 ^ 57), duration := Ticks.beat, lineIndex := 0
        tokenIndex := 0, soft := false, instrument := "kick" }
    let s : Scheduler ℚ Int := Scheduler.new (5 * 2 ^ 51) 1 1 60
    let p : Performer Unit ℚ Int := Performer.ofRender fun _ _ => [1]
    let actions : List (Action ℚ) := [.block, .block, .block]
    let sounds := sounds p actions ((s.load [stroke]).play, ())
    let perTick : ℚ := 60 * s.transport.sampleRate / (960 * s.transport.bpm)
    s.loopLength = none ∧ 1 ≤ s.transport.sampleRate ∧ s.blockSize < 2 ^ 64 ∧ 0 < s.transport.bpm
      ∧ (∀ bpm, .setTempo bpm ∈ actions → 0 < bpm)
      ∧ sounds.map (fun sound => (sound.block, sound.onset.frame, sound.onsetFrame 60))
        = [(2, 46, 166)]
      ∧ (stroke.beat.toNat * perTick : ℚ) = 64
      ∧ ¬ ∀ sound ∈ sounds, (sound.onsetFrame 60 : ℚ)
        ≤ sound.onset.event.beat.toNat * perTick + perTick + 1 / 2 := by
  intro stroke s p actions sounds perTick
  refine ⟨rfl, by decide, by decide, by decide +kernel, fun bpm hbpm => ?_, by decide +kernel,
    by decide +kernel, by decide +kernel⟩
  simp [actions] at hbpm

end Scheduler

end Stave
