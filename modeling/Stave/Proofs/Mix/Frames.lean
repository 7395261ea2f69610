import Stave.Mix.Stream

/-!
# Streams in pieces

A stream that is cut into pieces of one size is its first piece and the pieces of what is behind it.
Two streams behind each other have the pieces of the first and then those of the second, as long as the
first ends where a piece ends.
-/

namespace Stave.Mix

variable {β : Type}

/-- What has been cut off already stays before the pieces of the rest. -/
theorem toList_cut (size : Nat) (pieces : Array (List β)) (stream : List β) :
    (cut size pieces stream).toList = pieces.toList ++ frames size stream := by
  induction hlength : stream.length using Nat.strongRecOn generalizing pieces stream with
  | _ length ih =>
    rw [frames]
    by_cases hdone : (stream.isEmpty || size == 0) = true
    · rw [cut, if_pos hdone, cut, if_pos hdone]
      exact (List.append_nil _).symm
    · have hshorter : (stream.drop size).length < length := by
        simp only [Bool.or_eq_true, List.isEmpty_iff, beq_iff_eq, not_or] at hdone
        have hpos := List.length_pos_iff.mpr hdone.1
        rw [List.length_drop]
        omega
      -- the rest is cut behind either row of pieces
      rw [cut, if_neg hdone, ih _ hshorter _ _ rfl, cut, if_neg hdone, ih _ hshorter _ _ rfl]
      simp

theorem frames_nil (size : Nat) : frames size ([] : List β) = [] := by
  rw [frames, cut]
  rfl

theorem frames_of_ne_nil {size : Nat} (hsize : 0 < size) {stream : List β} (hne : stream ≠ []) :
    frames size stream = stream.take size :: frames size (stream.drop size) := by
  have hrest : ¬(stream.isEmpty || size == 0) = true := by
    simp [hne, Nat.ne_of_gt hsize]
  rw [frames, cut, if_neg hrest, toList_cut]
  rfl

/-- The pieces of a stream and those of what stands behind it. -/
theorem frames_append {size : Nat} {stream : List β} (h : size ∣ stream.length) (behind : List β) :
    frames size (stream ++ behind) = frames size stream ++ frames size behind := by
  obtain ⟨count, hcount⟩ := h
  induction count generalizing stream with
  | zero =>
    rw [List.eq_nil_of_length_eq_zero hcount, frames_nil, List.nil_append, List.nil_append]
  | succ n ih =>
    by_cases hnil : stream = []
    · rw [hnil, frames_nil, List.nil_append, List.nil_append]
    · have hsize : 0 < size := by
        refine Nat.pos_of_ne_zero fun hzero => hnil (List.eq_nil_of_length_eq_zero ?_)
        rw [hcount, hzero, Nat.zero_mul]
      have hle : size ≤ stream.length := hcount ▸ Nat.le_mul_of_pos_right size (Nat.succ_pos n)
      have hdrop : (stream.drop size).length = size * n := by
        rw [List.length_drop, hcount, Nat.mul_succ, Nat.add_sub_cancel]
      rw [frames_of_ne_nil hsize (List.append_ne_nil_of_left_ne_nil hnil behind),
        frames_of_ne_nil hsize hnil, List.take_append_of_le_length hle,
        List.drop_append_of_le_length hle, ih hdrop, List.cons_append]

/-- The pieces of a stream are the stream. -/
theorem flatten_frames {size : Nat} (hsize : 0 < size) (stream : List β) :
    (frames size stream).flatten = stream := by
  induction hlength : stream.length using Nat.strongRecOn generalizing stream with
  | _ length ih =>
    by_cases hnil : stream = []
    · rw [hnil, frames_nil, List.flatten_nil]
    · have hshorter : (stream.drop size).length < length := by
        have hpos := List.length_pos_iff.mpr hnil
        rw [List.length_drop]
        omega
      rw [frames_of_ne_nil hsize hnil, List.flatten_cons, ih _ hshorter _ rfl, List.take_append_drop]

/-- Which pieces a stream has, and where they begin. -/
theorem getElem?_frames {size : Nat} (hsize : 0 < size) (stream : List β) (i : Nat) :
    (frames size stream)[i]?
      = if i * size < stream.length then some ((stream.drop (i * size)).take size) else none := by
  induction i generalizing stream with
  | zero =>
    by_cases hnil : stream = []
    · simp [hnil, frames_nil]
    · simp [frames_of_ne_nil hsize hnil, List.length_pos_iff.mpr hnil]
  | succ n ih =>
    by_cases hnil : stream = []
    · simp [hnil, frames_nil]
    · rw [frames_of_ne_nil hsize hnil, List.getElem?_cons_succ, ih, List.length_drop, List.drop_drop,
        Nat.add_comm size, ← Nat.succ_mul]
      have hbound : n * size < stream.length - size ↔ (n + 1) * size < stream.length := by
        rw [Nat.succ_mul]
        omega
      simp only [hbound]

theorem length_frames {size : Nat} (hsize : 0 < size) {stream : List β} (h : size ∣ stream.length) :
    (frames size stream).length = stream.length / size := by
  obtain ⟨count, hcount⟩ := h
  have hend (i : Nat) : (frames size stream).length ≤ i ↔ count ≤ i := by
    rw [← List.getElem?_eq_none_iff, getElem?_frames hsize, hcount, Nat.mul_comm size]
    simp [Nat.mul_lt_mul_right hsize]
  rw [hcount, Nat.mul_div_cancel_left count hsize]
  exact Nat.le_antisymm ((hend count).mpr (Nat.le_refl count)) ((hend _).mp (Nat.le_refl _))

/-- What is put together of pieces of one size is cut into them again. -/
theorem frames_flatMap {α : Type} {size : Nat} (hsize : 0 < size) {f : α → List β}
    (h : ∀ a, (f a).length = size) (items : List α) : frames size (items.flatMap f) = items.map f := by
  induction items with
  | nil => exact frames_nil size
  | cons a rest ih =>
    have hsingle : frames size (f a) = [f a] := by
      have hne : f a ≠ [] := List.ne_nil_of_length_pos (by rw [h]; exact hsize)
      rw [frames_of_ne_nil hsize hne, ← h a, List.take_length, List.drop_length, frames_nil]
    rw [List.flatMap_cons, frames_append ⟨1, by rw [h, Nat.mul_one]⟩, hsingle, ih, List.map_cons,
      List.singleton_append]

end Stave.Mix
