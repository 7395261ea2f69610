import Stave.Mix.Overlay

/-!
# What a stream sounds like at a sample

A stream is read at every sample, silence standing where it has ended.  Each operation on streams is
known by its length and by what it is at a sample: cutting and filling up keep the samples below the
cut, dropping moves the reader, and an overlay adds the sound's sample to the stream's where the sound
has one.
-/

namespace Stave.Mix

variable {α : Type} [Zero α]

/-- The sample of a stream at a place; silence behind its end. -/
def sampleAt (stream : List α) (place : Nat) : α := stream[place]?.getD 0

@[simp]
theorem sampleAt_nil (place : Nat) : sampleAt ([] : List α) place = 0 := rfl

theorem sampleAt_of_length_le {stream : List α} {place : Nat} (h : stream.length ≤ place) :
    sampleAt stream place = 0 := by
  rw [sampleAt, List.getElem?_eq_none h, Option.getD_none]

theorem sampleAt_append (first second : List α) (place : Nat) :
    sampleAt (first ++ second) place
      = if place < first.length then sampleAt first place
        else sampleAt second (place - first.length) := by
  rw [sampleAt, List.getElem?_append]
  split <;> rfl

theorem sampleAt_drop (stream : List α) (n place : Nat) :
    sampleAt (stream.drop n) place = sampleAt stream (n + place) := by
  rw [sampleAt, List.getElem?_drop, sampleAt]

/-- Streams of one length that sound the same at each of their samples are equal. -/
theorem ext_sampleAt {first second : List α} (hlength : first.length = second.length)
    (h : ∀ place < first.length, sampleAt first place = sampleAt second place) : first = second := by
  refine List.ext_getElem hlength fun place hfirst hsecond => ?_
  have hplace := h place hfirst
  rwa [sampleAt, sampleAt, List.getElem?_eq_getElem hfirst, List.getElem?_eq_getElem hsecond,
    Option.getD_some, Option.getD_some] at hplace

theorem sampleAt_append_silence (stream : List α) (n place : Nat) :
    sampleAt (stream ++ List.replicate n 0) place = sampleAt stream place := by
  rw [sampleAt_append]
  by_cases hplace : place < stream.length
  · rw [if_pos hplace]
  · rw [if_neg hplace, sampleAt_of_length_le (Nat.not_lt.mp hplace), sampleAt,
      List.getElem?_replicate]
    split <;> rfl

/-! ## Cutting and filling up -/

@[simp]
theorem length_takeOrSilence (n : Nat) (stream : List α) : (takeOrSilence n stream).length = n := by
  simp only [takeOrSilence, List.length_append, List.length_take, List.length_replicate]
  omega

theorem sampleAt_takeOrSilence {n place : Nat} (stream : List α) (h : place < n) :
    sampleAt (takeOrSilence n stream) place = sampleAt stream place := by
  rw [takeOrSilence, sampleAt_append_silence, sampleAt, sampleAt, List.getElem?_take_of_lt h]

/-- A stream that is filled up goes on with silence. -/
theorem getElem?_takeOrSilence {n place : Nat} {stream : List α} (hend : stream.length ≤ place)
    (h : place < n) : (takeOrSilence n stream)[place]? = some 0 := by
  have hplace : place < (takeOrSilence n stream).length := by rwa [length_takeOrSilence]
  have hsample := sampleAt_takeOrSilence stream h
  rwa [sampleAt_of_length_le hend, sampleAt, List.getElem?_eq_getElem hplace, Option.getD_some,
    ← Option.some_inj, ← List.getElem?_eq_getElem hplace] at hsample

/-- A stream cut at a sample, followed by what is behind the cut. -/
theorem sampleAt_takeOrSilence_append (n : Nat) (stream rest : List α) (place : Nat) :
    sampleAt (takeOrSilence n stream ++ rest) place
      = if place < n then sampleAt stream place else sampleAt rest (place - n) := by
  rw [sampleAt_append, length_takeOrSilence]
  split
  · exact sampleAt_takeOrSilence stream ‹_›
  · rfl

/-! ## Overlays -/

variable [Add α]

/-- The sample that a sound has at a place, when it begins at `start`. -/
def soundAt? (start : Nat) (sound : List α) (place : Nat) : Option α :=
  if start ≤ place then sound[place - start]? else none

/-- A sample with another one added to it, if there is one. -/
def plus (sample : α) (added : Option α) : α := added.elim sample (sample + ·)

theorem length_add (base added : List α) :
    (add base added).length = max base.length added.length := by
  simp only [add, List.length_append, List.length_zipWith, List.length_drop, List.length_map]
  omega

theorem sampleAt_add (base added : List α) (place : Nat) :
    sampleAt (add base added) place = plus (sampleAt base place) added[place]? := by
  rw [add, List.append_assoc, sampleAt_append, List.length_zipWith]
  by_cases hboth : place < min base.length added.length
  · rw [if_pos hboth]
    have hbase : place < base.length := by omega
    have hadded : place < added.length := by omega
    rw [sampleAt, sampleAt, List.getElem?_zipWith, List.getElem?_eq_getElem hbase,
      List.getElem?_eq_getElem hadded]
    rfl
  · rw [if_neg hboth, sampleAt_append, List.length_drop]
    by_cases hbase : place < base.length
    · -- only the base goes on
      have hplace : min base.length added.length = added.length := by omega
      rw [if_pos (by omega), hplace, sampleAt_drop, Nat.add_sub_cancel' (by omega),
        List.getElem?_eq_none (by omega), plus, Option.elim_none]
    · -- only the added stream can go on, over silence
      have hindex : base.length + (place - min base.length added.length
          - (base.length - added.length)) = place := by omega
      have hsilent : sampleAt base place = 0 := sampleAt_of_length_le (by omega)
      rw [if_neg (by omega), hsilent, sampleAt,
        List.getElem?_map, List.getElem?_drop, hindex]
      cases added[place]? <;> rfl

theorem length_overlay (stream : List α) (start : Nat) (sound : List α) :
    (overlay stream start sound).length
      = if sound = [] then stream.length else max stream.length (start + sound.length) := by
  rw [overlay]
  by_cases hsound : sound = []
  · simp [hsound]
  · simp only [List.isEmpty_iff, hsound, if_false, List.length_append, length_takeOrSilence,
      length_add, List.length_drop]
    omega

/-- An overlay adds the sound's sample to the stream's where the sound has one. -/
theorem sampleAt_overlay (stream : List α) (start : Nat) (sound : List α) (place : Nat) :
    sampleAt (overlay stream start sound) place
      = plus (sampleAt stream place) (soundAt? start sound place) := by
  rw [overlay, soundAt?]
  by_cases hsound : sound = []
  · simp [hsound, plus]
  · simp only [List.isEmpty_iff, hsound, if_false, sampleAt_takeOrSilence_append]
    by_cases hstart : start ≤ place
    · rw [if_neg (by omega), if_pos hstart, sampleAt_add, sampleAt_drop,
        Nat.add_sub_cancel' hstart]
    · rw [if_pos (by omega), if_neg hstart, plus, Option.elim_none]

end Stave.Mix
