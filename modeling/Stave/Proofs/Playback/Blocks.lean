import Mathlib.Logic.Function.Iterate
import Stave.Playback.Rendering
import Stave.Proofs.Mix.Stream
import Stave.Proofs.Time.Mixing
import Stave.Proofs.Time.Once

/-!
# The blocks of a rendering

A playing scheduler renders block after block and never stops by itself.  The sound of its first blocks
is the beginning of the sound of any more of them.  Once everything has been rendered and has ended,
all further blocks are silent.
-/

namespace Stave

namespace Scheduler

variable {α β : Type} [Scalar α] [Add β] [Zero β] (render : NoteEvent → Conditions α → List β)

/-! ## Block after block -/

/-- The scheduler after some blocks. -/
def after (count : Nat) (s : Scheduler α β) : Scheduler α β :=
  (fun s => (s.nextBlock render).2)^[count] s

theorem after_succ (count : Nat) (s : Scheduler α β) :
    s.after render (count + 1) = ((s.after render count).nextBlock render).2 :=
  Function.iterate_succ_apply' _ _ _

variable {render}

theorem nextBlock_of_playing {s : Scheduler α β} (h : s.transport.playing = true) :
    let mixed := (Performer.ofRender render).perform s.conditionsNext s.onsetsNext s.tail ()
    s.nextBlock render
      = (some ⟨Mix.takeOrSilence s.blockSamples mixed.1, s.onsetsNext, s.conditionsNext⟩,
          { s with
            timeline := s.dueNext.2.1, transport := s.dueNext.2.2
            tail := mixed.1.drop s.blockSamples }) := by
  rw [nextBlock, performBlock_of_playing s _ () h]

theorem playing_after {s : Scheduler α β} (h : s.transport.playing = true) (count : Nat) :
    (s.after render count).transport.playing = true := by
  induction count with
  | zero => exact h
  | succ n ih =>
    rw [after_succ, nextBlock_of_playing ih]
    exact (playing_dueNext _).trans ih

theorem blockSamples_after {s : Scheduler α β} (h : s.transport.playing = true) (count : Nat) :
    (s.after render count).blockSamples = s.blockSamples := by
  induction count with
  | zero => rfl
  | succ n ih => rw [after_succ, nextBlock_of_playing (playing_after h n), ← ih]; rfl

/-! ## Silence -/

/-- Whether a scheduler that plays once has rendered all events and all sounds have ended. -/
structure IsSpent (s : Scheduler α β) : Prop where
  playing : s.transport.playing = true
  once : s.loopLength = none
  unread_eq : s.timeline.unread = []
  tail_eq : s.tail = []

omit [Scalar α] [Add β] [Zero β] in
theorem isSpent_of_isFinished {s : Scheduler α β} {finish : Ticks}
    (hplaying : s.transport.playing = true) (h : s.isFinished finish = true) : s.IsSpent := by
  simp only [isFinished, Bool.and_eq_true, Option.isNone_iff_eq_none, List.isEmpty_iff] at h
  obtain ⟨⟨⟨honce, -⟩, hunread⟩, htail⟩ := h
  exact ⟨hplaying, honce, hunread, htail⟩

/-- The next block of a spent scheduler is silent, and the scheduler stays spent. -/
theorem IsSpent.nextBlock {s : Scheduler α β} (h : s.IsSpent) :
    (∃ context, (s.nextBlock render).1 = some ⟨List.replicate s.blockSamples 0, [], context⟩)
      ∧ (s.nextBlock render).2.IsSpent := by
  have hdue : s.dueNext.1 = [] ∧ s.dueNext.2.1.unread = [] := by
    rw [dueNext_of_once s h.once]
    simp [Timeline.drain, h.unread_eq]
  have honsets : s.onsetsNext = [] := by
    rw [onsetsNext, hdue.1]
    rfl
  rw [nextBlock_of_playing h.playing, honsets, h.tail_eq]
  refine ⟨⟨s.conditionsNext, ?_⟩, (playing_dueNext s).trans h.playing, h.once, hdue.2, ?_⟩
  · simp [Performer.perform, Mix.takeOrSilence]
  · simp [Performer.perform]

end Scheduler

namespace Rendering

open Scheduler

variable {router : Router} {s : Scheduler Float Float32}

/-! ## Sound -/

/-- The sound of the first blocks of a scheduler. -/
def heard (router : Router) (s : Scheduler Float Float32) (count : Nat) : List Float32 :=
  (blocks router s count).flatMap Block.samples

theorem blocks_succ (router : Router) (s : Scheduler Float Float32) (count : Nat) :
    blocks router s (count + 1)
      = blocks router s count ++ ((s.after router.render count).nextBlock router.render).1.toList := by
  have hstate (n : Nat) :
      (Mix.run (fun (s : Scheduler Float Float32) _ => s.nextBlock router.render) n s).2
        = s.after router.render n := by
    induction n with
    | zero => rfl
    | succ n ih => rw [Mix.run_succ, ih, after_succ]
  rw [blocks, blocks, Mix.generate, Mix.generate, Mix.run_succ, List.filterMap_append, hstate]
  cases ((s.after router.render count).nextBlock router.render).1 <;> rfl

theorem heard_succ (router : Router) (s : Scheduler Float Float32) (count : Nat) :
    heard router s (count + 1) = heard router s count
      ++ ((s.after router.render count).nextBlock router.render).1.toList.flatMap Block.samples := by
  rw [heard, heard, blocks_succ, List.flatMap_append]

theorem length_heard (h : s.transport.playing = true) (count : Nat) :
    (heard router s count).length = count * s.blockSamples := by
  induction count with
  | zero => exact (Nat.zero_mul _).symm
  | succ n ih =>
    have hsize : (s.after router.render n).blockSamples = s.blockSamples := blockSamples_after h n
    rw [heard_succ, List.length_append, ih, nextBlock_of_playing (playing_after h n), ← hsize,
      Nat.succ_mul]
    simp

theorem isPrefix_blocks (router : Router) (s : Scheduler Float Float32) (count more : Nat) :
    blocks router s count <+: blocks router s (count + more) := by
  induction more with
  | zero => exact List.prefix_refl _
  | succ n ih =>
    rw [← Nat.add_assoc, blocks_succ]
    exact ih.trans (List.prefix_append _ _)

/-- Further blocks leave what has been heard before. -/
theorem isPrefix_heard (router : Router) (s : Scheduler Float Float32) (count more : Nat) :
    heard router s count <+: heard router s (count + more) := by
  obtain ⟨rest, hrest⟩ := isPrefix_blocks router s count more
  rw [heard, heard, ← hrest, List.flatMap_append]
  exact List.prefix_append _ _

/-- What is heard of a scheduler that is spent after some blocks goes on with silence. -/
theorem heard_of_isSpent (hplaying : s.transport.playing = true) {count : Nat}
    (h : (s.after router.render count).IsSpent) (more : Nat) :
    heard router s (count + more)
      = heard router s count ++ List.replicate (more * s.blockSamples) 0 := by
  have hspent (n : Nat) : (s.after router.render (count + n)).IsSpent := by
    induction n with
    | zero => exact h
    | succ n ih =>
      rw [← Nat.add_assoc, after_succ]
      exact ih.nextBlock.2
  induction more with
  | zero => simp
  | succ n ih =>
    have hnext : ∃ context, ((s.after router.render (count + n)).nextBlock router.render).1
        = some ⟨List.replicate (s.after router.render (count + n)).blockSamples 0, [], context⟩ :=
      (hspent n).nextBlock.1
    obtain ⟨context, hblock⟩ := hnext
    rw [← Nat.add_assoc, heard_succ, ih, hblock, blockSamples_after hplaying, Nat.succ_mul,
      ← List.replicate_append_replicate, List.append_assoc]
    simp

/-- More blocks change nothing at a sample that has been heard, nor anything at all once everything
has ended. -/
theorem sampleAt_heard_add (hplaying : s.transport.playing = true) {count place : Nat} (more : Nat)
    (h : place < count * s.blockSamples ∨ (s.after router.render count).IsSpent) :
    Mix.sampleAt (heard router s (count + more)) place = Mix.sampleAt (heard router s count) place := by
  rcases h with hplace | hspent
  · obtain ⟨rest, hrest⟩ := isPrefix_heard router s count more
    rw [← hrest, Mix.sampleAt_append, length_heard hplaying, if_pos hplace]
  · rw [heard_of_isSpent hplaying hspent, Mix.sampleAt_append_silence]

/-- A stretch of what is heard, filled up with silence, does not depend on how many blocks there are,
as long as they fill the stretch or leave nothing that could sound. -/
theorem takeOrSilence_heard (hplaying : s.transport.playing = true) {total enough count : Nat}
    (henough : total ≤ enough * s.blockSamples)
    (h : total ≤ count * s.blockSamples ∨ (s.after router.render count).IsSpent) :
    Mix.takeOrSilence total (heard router s count) = (heard router s enough).take total := by
  refine Mix.ext_sampleAt ?_ fun place hplace => ?_
  · rw [Mix.length_takeOrSilence, List.length_take, length_heard hplaying,
      Nat.min_eq_left henough]
  · rw [Mix.length_takeOrSilence] at hplace
    rw [Mix.sampleAt_takeOrSilence _ hplace, Mix.sampleAt, Mix.sampleAt,
      List.getElem?_take_of_lt hplace]
    rcases Nat.le_total count enough with hle | hle
    · obtain ⟨more, rfl⟩ := Nat.exists_eq_add_of_le hle
      exact (sampleAt_heard_add hplaying more (h.imp_left fun hfull => by omega)).symm
    · obtain ⟨more, rfl⟩ := Nat.exists_eq_add_of_le hle
      exact sampleAt_heard_add hplaying more (Or.inl (by omega))

/-! ## Renderings -/

theorem unlimited_eq_ok {prepared : Preparation} {bpm : Float} {settings : AudioSettings}
    {frames : Nat} {samples : List Float32}
    (h : unlimited prepared bpm settings frames = .ok samples) :
    let s := scheduler prepared.events bpm settings
    let total := Mix.sampleCount frames settings.channels
    let count := (total + s.blockSamples - 1) / s.blockSamples
    (∀ b ∈ blocks prepared.router s count, canPlay prepared.router b = true)
      ∧ samples = (heard prepared.router s count).take total := by
  intro s total count
  rw [unlimited] at h
  simp only at h
  split at h
  · cases h
  · split at h
    · next hall =>
      cases h
      refine ⟨fun b hb => ?_, rfl⟩
      simpa using List.find?_eq_none.mp hall b hb
    · cases h

/-- What a composition has to be so that it can be rendered, and what comes of it. -/
theorem ofComposition_eq_ok {composition : Composition} {registry : Registry} {bpm : Float}
    {volumes : Named Float} {voices : Named VoiceSettings} {settings : AudioSettings}
    {source : Source} {r : Rendering}
    (h : ofComposition composition registry bpm volumes voices settings source = .ok r) :
    let prepared := Preparation.ofComposition composition registry volumes voices settings source
    composition.isEmpty = false ∧ requireTempo bpm = .ok () ∧ r.failed = prepared.failed
      ∧ ∃ samples, unlimited prepared bpm settings r.frames = .ok samples
        ∧ Wav.encode ((Limiter.standard settings.sampleRate).process settings.channels samples).1
          settings.sampleRate settings.channels = .ok r.file := by
  intro prepared
  have hfile {value : Except Wav.Fault (List UInt8)} {file : List UInt8}
      (hvalue : value.mapError PlaybackError.wav = .ok file) : value = .ok file := by
    cases value with
    | error e => cases hvalue
    | ok found => cases hvalue; rfl
  simp only [ofComposition, bind, Except.bind, pure, Except.pure, throw, throwThe,
    MonadExceptOf.throw] at h
  split at h
  · cases h
  · next hempty =>
    split at h
    · cases h
    · next htempo =>
      split at h
      · cases h
      · next samples hsamples =>
        split at h
        · cases h
        · next file hencoded =>
          cases h
          exact ⟨Bool.eq_false_iff.mpr hempty, htempo, rfl, samples, hsamples, hfile hencoded⟩

end Rendering

end Stave
