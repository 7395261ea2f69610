import Mathlib.Algebra.Ring.Int.Defs
import Stave.Proofs.Mix.Overlay
import Stave.Proofs.Time.Reading

/-!
# What a run sounds like

A run hands out its sound block by block and keeps what sounds beyond the last block as a tail.  Blocks
and tail together are one mix: at every sample, the sum of the sounds that have one there, in the
order in which they were triggered.  Where blocks end does not show in it.

The mix of one block is laid over the tail of the blocks before it, and a run is mixed block by block:
behind the first block the mix of the whole is the mix of the rest, read one block later.
-/

namespace Stave

/-! ## Sounds -/

/-- A sound that a run has triggered. -/
structure PlacedSound (α β : Type) where
  /-- How many blocks of the run come before the one that it begins in. -/
  block : Nat
  onset : Onset α
  samples : List β

namespace PlacedSound

variable {α β : Type}

/-- Frames from the start of the run to the onset. -/
def onsetFrame (s : PlacedSound α β) (blockSize : Nat) : Nat := s.block * blockSize + s.onset.frame

/-- The sample of the run that the sound begins at. -/
def start (s : PlacedSound α β) (blockSize channels : Nat) : Nat :=
  s.block * (blockSize * channels) + Mix.sampleCount s.onset.frame channels

/-- The sample behind the last one of the sound; a sound without samples is nowhere. -/
def finish (s : PlacedSound α β) (blockSize channels : Nat) : Nat :=
  if s.samples = [] then 0 else s.start blockSize channels + s.samples.length

/-- The sound in a run that has one more block in front. -/
def later (s : PlacedSound α β) : PlacedSound α β := { s with block := s.block + 1 }

theorem onsetFrame_later (s : PlacedSound α β) (blockSize : Nat) :
    s.later.onsetFrame blockSize = s.onsetFrame blockSize + blockSize := by
  rw [onsetFrame, onsetFrame, Nat.add_right_comm, ← Nat.add_one_mul]
  rfl

/-- A sound begins at its onset, unless the word that counts its samples wraps around. -/
theorem start_eq_onsetFrame_mul {s : PlacedSound α β} {blockSize channels : Nat}
    (h : s.onset.frame * channels < 2 ^ 64) :
    s.start blockSize channels = s.onsetFrame blockSize * channels := by
  have hcount : Mix.sampleCount s.onset.frame channels = s.onset.frame * channels :=
    Nat.mod_eq_of_lt h
  rw [start, onsetFrame, hcount, Nat.add_mul, Nat.mul_assoc]

theorem start_later (s : PlacedSound α β) (blockSize channels : Nat) :
    s.later.start blockSize channels = s.start blockSize channels + blockSize * channels := by
  rw [start, start, Nat.add_right_comm, ← Nat.add_one_mul]
  rfl

theorem soundAt?_later (s : PlacedSound α β) (blockSize channels place : Nat) :
    Mix.soundAt? (s.later.start blockSize channels) s.later.samples place
      = if place < blockSize * channels then none
        else Mix.soundAt? (s.start blockSize channels) s.samples
          (place - blockSize * channels) := by
  rw [start_later, Mix.soundAt?, Mix.soundAt?]
  by_cases hplace : place < blockSize * channels
  · rw [if_neg (by omega), if_pos hplace]
  · rw [if_neg hplace]
    by_cases hstart : s.start blockSize channels + blockSize * channels ≤ place
    · rw [if_pos hstart, if_pos (by omega), Nat.add_comm, Nat.sub_add_eq]
      rfl
    · rw [if_neg hstart, if_neg (by omega)]

end PlacedSound

/-! ## Mixes -/

namespace Mix

variable {α β : Type} (blockSize channels : Nat)

/-- Where the last of some sounds ends, or what sounds already, if that ends later. -/
def finishOver (finish : Nat) (sounds : List (PlacedSound α β)) : Nat :=
  (sounds.map fun s => s.finish blockSize channels).foldl max finish

theorem finishOver_append (finish : Nat) (first rest : List (PlacedSound α β)) :
    finishOver blockSize channels finish (first ++ rest)
      = finishOver blockSize channels (finishOver blockSize channels finish first) rest := by
  rw [finishOver, finishOver, finishOver, List.map_append, List.foldl_append]

/-- Sounds that begin behind the first block end as much later as the block is long. -/
theorem max_finishOver_later (finish : Nat) (sounds : List (PlacedSound α β)) :
    max (blockSize * channels) (finishOver blockSize channels finish (sounds.map PlacedSound.later))
      = blockSize * channels
        + finishOver blockSize channels (finish - blockSize * channels) sounds := by
  induction sounds generalizing finish with
  | nil =>
    show max (blockSize * channels) finish = blockSize * channels + (finish - blockSize * channels)
    omega
  | cons s rest ih =>
    have hstart := s.start_later blockSize channels
    have hfinish : max finish (s.later.finish blockSize channels) - blockSize * channels
        = max (finish - blockSize * channels) (s.finish blockSize channels) := by
      by_cases hs : s.samples = []
      · simp [PlacedSound.finish, PlacedSound.later, hs]
      · rw [PlacedSound.finish, if_neg (show s.later.samples ≠ [] from hs), hstart,
          PlacedSound.finish, if_neg hs]
        show max finish (_ + s.samples.length) - _ = _
        omega
    show max _ (finishOver blockSize channels (max finish (s.later.finish blockSize channels))
      (rest.map PlacedSound.later)) = _
    rw [ih, hfinish]
    rfl

variable [Add β]

/-- The sum of sounds at a sample, over what sounds there already. -/
def mixOver (sounding : β) (sounds : List (PlacedSound α β)) (place : Nat) : β :=
  (sounds.filterMap fun s => soundAt? (s.start blockSize channels) s.samples place).foldl (· + ·)
    sounding

theorem mixOver_cons (sounding : β) (s : PlacedSound α β) (sounds : List (PlacedSound α β))
    (place : Nat) :
    mixOver blockSize channels sounding (s :: sounds) place
      = mixOver blockSize channels
          (plus sounding (soundAt? (s.start blockSize channels) s.samples place)) sounds place := by
  rw [mixOver, mixOver, List.filterMap_cons]
  cases soundAt? (s.start blockSize channels) s.samples place <;> rfl

theorem mixOver_append (sounding : β) (first rest : List (PlacedSound α β)) (place : Nat) :
    mixOver blockSize channels sounding (first ++ rest) place
      = mixOver blockSize channels (mixOver blockSize channels sounding first place) rest place := by
  rw [mixOver, mixOver, mixOver, List.filterMap_append, List.foldl_append]

/-- Sounds that begin behind the first block do not sound in it, and sound behind it as they do
without it. -/
theorem mixOver_later (sounding : β) (sounds : List (PlacedSound α β)) (place : Nat) :
    mixOver blockSize channels sounding (sounds.map PlacedSound.later) place
      = if place < blockSize * channels then sounding
        else mixOver blockSize channels sounding sounds (place - blockSize * channels) := by
  rw [mixOver, mixOver, List.filterMap_map]
  simp only [Function.comp_def, PlacedSound.soundAt?_later]
  by_cases hplace : place < blockSize * channels
  · have hnone : (sounds.filterMap fun _ => (none : Option β)) = [] :=
      List.filterMap_eq_nil_iff.mpr fun _ _ => rfl
    simp only [hplace, if_true, hnone, List.foldl_nil]
  · simp only [hplace, if_false]

end Mix

/-! ## Blocks -/

/-- Whether an action asks for a block. -/
def Action.isBlock {α : Type} : Action α → Bool
  | .block => true
  | _ => false

namespace Performer

variable {σ α β : Type}

/-- The sounds that a performer renders for some onsets, one after the other. -/
def sounds (p : Performer σ α β) (context : Conditions α) :
    List (Onset α) → σ → List (PlacedSound α β)
  | [], _ => []
  | onset :: rest, state =>
    let (samples, state) := p.render onset.event context (p.notice onset state)
    ⟨0, onset, samples⟩ :: p.sounds context rest state

theorem map_onset_sounds (p : Performer σ α β) (context : Conditions α) (onsets : List (Onset α))
    (state : σ) :
    (p.sounds context onsets state).map (fun s => (s.block, s.onset))
      = onsets.map fun onset => (0, onset) := by
  induction onsets generalizing state with
  | nil => rfl
  | cons onset rest ih => exact congrArg (_ :: ·) (ih _)

variable [Add β] [Zero β]

/-- Performing mixes the sounds over what sounds already. -/
theorem sampleAt_perform (p : Performer σ α β) (context : Conditions α) (blockSize : Nat)
    (onsets : List (Onset α)) (sounding : List β) (state : σ) (place : Nat) :
    Mix.sampleAt (p.perform context onsets sounding state).1 place
      = Mix.mixOver blockSize context.channels (Mix.sampleAt sounding place)
          (p.sounds context onsets state) place := by
  induction onsets generalizing sounding state with
  | nil => rfl
  | cons onset rest ih =>
    rw [perform_cons, ih, Mix.sampleAt_overlay, sounds, Mix.mixOver_cons, PlacedSound.start,
      Nat.zero_mul, Nat.zero_add]

theorem length_perform (p : Performer σ α β) (context : Conditions α) (blockSize : Nat)
    (onsets : List (Onset α)) (sounding : List β) (state : σ) :
    (p.perform context onsets sounding state).1.length
      = Mix.finishOver blockSize context.channels sounding.length
          (p.sounds context onsets state) := by
  induction onsets generalizing sounding state with
  | nil => rfl
  | cons onset rest ih =>
    have hfinish (samples : List β) :
        (Mix.overlay sounding (Mix.sampleCount onset.frame context.channels) samples).length
          = max sounding.length
            ((⟨0, onset, samples⟩ : PlacedSound α β).finish blockSize context.channels) := by
      rw [Mix.length_overlay, PlacedSound.finish, PlacedSound.start, Nat.zero_mul, Nat.zero_add]
      split
      · exact (Nat.max_zero _).symm
      · rfl
    rw [perform_cons, ih, hfinish, sounds]
    rfl

end Performer

namespace Scheduler

variable {σ α β : Type} [Scalar α] [Add β] [Zero β]

/-- The block that an action renders, if it renders one. -/
def block? (s : Scheduler α β) (p : Performer σ α β) (state : σ) : Action α → Option (Block α β)
  | .block => (s.performBlock p state).1
  | _ => none

/-- What the performer of the next block is told besides its events. -/
def conditionsNext (s : Scheduler α β) : Conditions α :=
  ⟨s.dueNext.2.2.sampleRate, s.channels, s.dueNext.2.2.bpm⟩

/-- The events that start in the next block. -/
def onsetsNext (s : Scheduler α β) : List (Onset α) :=
  (s.transport.move s.blockSize).1.onsets s.conditionsNext s.dueNext.1

/-- A playing scheduler mixes the sounds of a block over its tail, hands out what fits into the block
and keeps the rest. -/
theorem performBlock_of_playing (s : Scheduler α β) (p : Performer σ α β) (state : σ)
    (h : s.transport.playing = true) :
    let mixed := p.perform s.conditionsNext s.onsetsNext s.tail state
    s.performBlock p state
      = (some ⟨Mix.takeOrSilence s.blockSamples mixed.1, s.onsetsNext, s.conditionsNext⟩,
          { s with
            timeline := s.dueNext.2.1, transport := s.dueNext.2.2
            tail := mixed.1.drop s.blockSamples },
          mixed.2) := by
  simp only [performBlock, Transport.advance, h, if_true]
  rfl

/-! ## Runs -/

/-- The blocks of a run. -/
def blocks (p : Performer σ α β) : List (Action α) → Scheduler α β × σ → List (Block α β)
  | [], _ => []
  | action :: rest, x => (x.1.block? p x.2 action).toList ++ blocks p rest (act p x action)

/-- The sounds of a run, in the order in which they are triggered. -/
def sounds (p : Performer σ α β) : List (Action α) → Scheduler α β × σ → List (PlacedSound α β)
  | [], _ => []
  | action :: rest, x =>
    match x.1.block? p x.2 action with
    | none => sounds p rest (act p x action)
    | some block =>
      p.sounds block.context block.onsets x.2
        ++ (sounds p rest (act p x action)).map PlacedSound.later

/-- What the blocks of a run and the tail behind them have to do with its sounds. -/
structure MixedOver (x : Scheduler α β × σ) (blocks : List (Block α β))
    (sounds : List (PlacedSound α β)) (tail : List β) : Prop where
  length_samples : ∀ b ∈ blocks, b.samples.length = x.1.blockSamples
  onsets_eq : sounds.map (fun s => (s.block, s.onset))
    = blocks.zipIdx.flatMap fun (b, i) => b.onsets.map fun onset => (i, onset)
  sampleAt_eq : ∀ place, Mix.sampleAt (blocks.flatMap Block.samples ++ tail) place
    = Mix.mixOver x.1.blockSize x.1.channels (Mix.sampleAt x.1.tail place) sounds place
  length_tail : blocks.length * x.1.blockSamples + tail.length
    = max (blocks.length * x.1.blockSamples)
        (Mix.finishOver x.1.blockSize x.1.channels x.1.tail.length sounds)

omit [Scalar α] in
theorem mixedOver_nil (x : Scheduler α β × σ) : MixedOver x [] [] x.1.tail where
  length_samples := by simp
  onsets_eq := rfl
  sampleAt_eq := fun _ => rfl
  length_tail := by
    show 0 * x.1.blockSamples + x.1.tail.length = max (0 * x.1.blockSamples) x.1.tail.length
    omega

omit [Scalar α] in
/-- A block in front of a run that is mixed over its tail. -/
theorem MixedOver.cons {x y : Scheduler α β × σ} {blocks : List (Block α β)}
    {sounds : List (PlacedSound α β)} {tail : List β} (h : MixedOver y blocks sounds tail)
    (p : Performer σ α β) (context : Conditions α) (onsets : List (Onset α))
    (hcontext : context.channels = x.1.channels) (hsize : y.1.blockSize = x.1.blockSize)
    (hchannels : y.1.channels = x.1.channels)
    (htail : y.1.tail = (p.perform context onsets x.1.tail x.2).1.drop x.1.blockSamples) :
    MixedOver x
      (⟨Mix.takeOrSilence x.1.blockSamples (p.perform context onsets x.1.tail x.2).1, onsets,
        context⟩ :: blocks)
      (p.sounds context onsets x.2 ++ sounds.map PlacedSound.later) tail := by
  have hsamples : y.1.blockSamples = x.1.blockSamples := by
    rw [blockSamples, blockSamples, hsize, hchannels]
  have hperform := p.sampleAt_perform context x.1.blockSize onsets x.1.tail x.2
  have hlength := p.length_perform context x.1.blockSize onsets x.1.tail x.2
  rw [hcontext] at hlength
  refine ⟨?_, ?_, fun place => ?_, ?_⟩
  · intro b hb
    rcases List.mem_cons.mp hb with rfl | hb
    · exact Mix.length_takeOrSilence _ _
    · rw [h.length_samples b hb, hsamples]
  · -- the blocks of the rest are counted from one on
    have hrest := congrArg (List.map (Prod.map (· + 1) id)) h.onsets_eq
    rw [List.map_map, List.map_flatMap] at hrest
    rw [List.map_append, List.map_map, p.map_onset_sounds, List.zipIdx_cons, List.flatMap_cons,
      List.zipIdx_succ, List.flatMap_map]
    refine congrArg _ (hrest.trans ?_)
    simp [List.map_map, Function.comp_def]
  · rw [List.flatMap_cons, List.append_assoc, Mix.sampleAt_takeOrSilence_append, hperform, hcontext,
      Mix.mixOver_append, Mix.mixOver_later]
    split
    · rw [if_pos ‹_›]
    · -- behind the block the rest is mixed over what the block leaves
      have hplace : x.1.blockSamples + (place - x.1.blockSamples) = place := by omega
      rw [if_neg ‹_›, h.sampleAt_eq, htail, Mix.sampleAt_drop, hplace, hperform, hcontext, hsize,
        hchannels]
      rfl
  · have hrest := h.length_tail
    have hlater := Mix.max_finishOver_later x.1.blockSize x.1.channels
      (p.perform context onsets x.1.tail x.2).1.length sounds
    rw [hsize, hchannels, htail, List.length_drop, hsamples] at hrest
    rw [show x.1.blockSize * x.1.channels = x.1.blockSamples from rfl] at hlater
    rw [List.length_cons, Nat.succ_mul, Mix.finishOver_append, ← hlength]
    omega

theorem mixedOver_run (p : Performer σ α β) (actions : List (Action α)) (x : Scheduler α β × σ) :
    MixedOver x (blocks p actions x) (sounds p actions x) (run p actions x).1.tail := by
  induction actions generalizing x with
  | nil => exact mixedOver_nil x
  | cons action rest ih =>
    have hrest := ih (act p x action)
    rw [blocks, sounds, run, List.foldl_cons]
    cases action with
    | play => exact { hrest with }
    | setTempo bpm => exact { hrest with }
    | block =>
      rcases Bool.eq_false_or_eq_true x.1.transport.playing with hplaying | hstopped
      · have hblock := performBlock_of_playing x.1 p x.2 hplaying
        have hact : act p x .block = _ := congrArg Prod.snd hblock
        rw [block?, hblock]
        exact hrest.cons p x.1.conditionsNext x.1.onsetsNext rfl (by rw [hact])
          (by rw [hact]) (by rw [hact])
      · have hblock := performBlock_of_stopped x.1 p x.2 hstopped
        have hact : act p x .block = x := congrArg Prod.snd hblock
        rw [hact] at hrest
        rw [block?, hblock, hact]
        exact hrest

/-! ## Counting blocks -/

/-- A playing scheduler goes on playing, and renders a block whenever it is asked for one. -/
theorem length_blocks (p : Performer σ α β) (actions : List (Action α)) {x : Scheduler α β × σ}
    (h : x.1.transport.playing = true) :
    (blocks p actions x).length = actions.countP Action.isBlock := by
  induction actions generalizing x with
  | nil => rfl
  | cons action rest ih =>
    rw [blocks, List.length_append]
    cases action with
    | play => exact (Nat.zero_add _).trans (ih rfl)
    | setTempo bpm => exact (Nat.zero_add _).trans (ih h)
    | block =>
      have hblock := performBlock_of_playing x.1 p x.2 h
      have hact : (act p x .block).1.transport.playing = true := by
        rw [show act p x .block = _ from congrArg Prod.snd hblock]
        exact x.1.playing_dueNext.trans h
      rw [block?, hblock, ih hact, List.countP_cons_of_pos rfl, Nat.add_comm]
      rfl

/-- The blocks that a run hands out after events are loaded, and the tail behind them, are one mix of
its sounds: at every sample the sum, over silence and in the order in which they were triggered, of the
sounds that have one there.  A sound begins at its onset, counted in frames from the start of the run,
and the tail ends with the last sound. -/
theorem samples_of_run (s : Scheduler α β) (events : List NoteEvent) (p : Performer σ α β)
    (state : σ) (actions : List (Action α)) :
    let start := ((s.load events).play, state)
    let played := blocks p actions start
    let tail := (run p actions start).1.tail
    let sounds := sounds p actions start
    let total := played.length * s.blockSamples
    let mix := Mix.mixOver s.blockSize s.channels 0 sounds
    played.length = actions.countP Action.isBlock
      ∧ (∀ b ∈ played, b.samples.length = s.blockSamples)
      ∧ (sounds.map fun sound => (sound.block, sound.onset))
        = played.zipIdx.flatMap (fun (b, i) => b.onsets.map fun onset => (i, onset))
      ∧ (∀ place < total, Mix.sampleAt (played.flatMap Block.samples) place = mix place)
      ∧ (∀ place, Mix.sampleAt tail place = mix (total + place))
      ∧ tail.length = Mix.finishOver s.blockSize s.channels 0 sounds - total
      ∧ ∀ sound ∈ sounds, sound.onset.frame * s.channels < 2 ^ 64 →
        sound.start s.blockSize s.channels = sound.onsetFrame s.blockSize * s.channels := by
  intro start played tail sounds total mix
  have h := mixedOver_run p actions start
  have hplayed : (played.flatMap Block.samples).length = total := by
    rw [List.length_flatMap, List.map_congr_left h.length_samples, List.map_const',
      List.sum_replicate_nat]
    rfl
  have hmix (place : Nat) :
      Mix.sampleAt (played.flatMap Block.samples ++ tail) place = mix place := h.sampleAt_eq place
  have htail : total + tail.length
      = max total (Mix.finishOver s.blockSize s.channels 0 sounds) := h.length_tail
  refine ⟨length_blocks p actions rfl, h.length_samples, h.onsets_eq, fun place hplace => ?_,
    fun place => ?_, by omega, fun sound _ hword => PlacedSound.start_eq_onsetFrame_mul hword⟩
  · rw [← hmix, Mix.sampleAt_append, hplayed, if_pos hplace]
  · rw [← hmix, Mix.sampleAt_append, hplayed, if_neg (by omega), Nat.add_sub_cancel_left]

/-- A loop of one beat with a stroke that sounds longer than a block, played in blocks of three frames
at two tempos: the last block triggers it twice, the second time behind its own end. -/
theorem samples_of_run_looped_across_tempos :
    let stroke : NoteEvent :=
      { notes := ["C4"], beat := Ticks.ofNat 480, duration := Ticks.beat, lineIndex := 0
        tokenIndex := 0, soft := false, instrument := "kick" }
    let s : Scheduler Float Int := (Scheduler.new 60 4 2 3).setLoop (some Ticks.beat)
    let p : Performer Unit Float Int := Performer.ofRender fun _ _ => [1, 2, 3, 4, 5, 6, 7]
    let actions := [Action.block, .block, .block, .setTempo 120, .block]
    let start := ((s.load [stroke]).play, ())
    let played := blocks p actions start
    let tail := (run p actions start).1.tail
    let sounds := sounds p actions start
    played.map Block.samples
        = [[0, 0, 0, 0, 1, 2], [3, 4, 5, 6, 7, 0], [1, 2, 3, 4, 5, 6], [7, 0, 1, 2, 3, 4]]
      ∧ tail = [6, 8, 10, 4, 5, 6, 7]
      ∧ sounds.map (fun sound => sound.onsetFrame 3) = [2, 6, 10, 12]
      ∧ (∀ place < played.length * s.blockSamples, Mix.sampleAt (played.flatMap Block.samples) place
        = Mix.mixOver 3 2 0 sounds place)
      ∧ (∀ place, Mix.sampleAt tail place
        = Mix.mixOver 3 2 0 sounds (played.length * s.blockSamples + place))
      ∧ ∀ sound ∈ sounds, sound.start 3 2 = sound.onsetFrame 3 * 2 := by
  intro stroke s p actions start played tail sounds
  obtain ⟨-, -, -, hplayed, htail, -, hstart⟩ := samples_of_run s [stroke] p () actions
  have hword : ∀ sound ∈ sounds, sound.onset.frame * s.channels < 2 ^ 64 := by decide +kernel
  exact ⟨by decide +kernel, by decide +kernel, by decide +kernel, hplayed, htail,
    fun sound hsound => hstart sound hsound (hword sound hsound)⟩

end Scheduler

end Stave
