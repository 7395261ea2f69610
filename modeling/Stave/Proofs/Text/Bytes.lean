import Mathlib.Algebra.GroupWithZero.Nat
import Stave.Text.Blank

/-!
# Texts in bytes

Positions in a text are counted in bytes of its UTF-8 form.  A text can be cut where a character
begins and at its end; a part that stands between two such cuts has its own bytes there.
-/

namespace Stave.Text

/-! ## Widths -/

theorem width_eq_sum (text : List Char) : width text = (text.map Char.utf8Size).sum := by
  suffices hfrom : ∀ start, text.foldl (fun bytes c => bytes + c.utf8Size) start
      = start + (text.map Char.utf8Size).sum by simpa [width] using hfrom 0
  induction text with
  | nil => exact fun start => rfl
  | cons c rest ih =>
    intro start
    rw [List.foldl_cons, ih, List.map_cons, List.sum_cons, Nat.add_assoc]

theorem width_cons (c : Char) (rest : List Char) : width (c :: rest) = c.utf8Size + width rest := by
  rw [width_eq_sum, width_eq_sum, List.map_cons, List.sum_cons]

theorem width_append (a b : List Char) : width (a ++ b) = width a + width b := by
  rw [width_eq_sum, width_eq_sum, width_eq_sum, List.map_append, List.sum_append]

theorem width_pos {text : List Char} (h : text ≠ []) : 0 < width text := by
  obtain ⟨c, rest, rfl⟩ := List.exists_cons_of_ne_nil h
  rw [width_cons]
  exact Nat.add_pos_left c.utf8Size_pos _

/-! ## Bytes -/

/-- The text in UTF-8. -/
def bytes (text : List Char) : List UInt8 := text.flatMap String.utf8EncodeChar

theorem bytes_append (a b : List Char) : bytes (a ++ b) = bytes a ++ bytes b :=
  List.flatMap_append

theorem length_bytes (text : List Char) : (bytes text).length = width text := by
  rw [bytes, List.length_flatMap, width_eq_sum]
  congr 1
  exact List.map_congr_left fun c _ => String.length_utf8EncodeChar c

/-- The bytes of a part of a text are those between its ends. -/
theorem extract_bytes (before text behind : List Char) :
    (bytes (before ++ text ++ behind)).extract (width before) (width before + width text)
      = bytes text := by
  rw [List.extract_eq_take_drop, bytes_append, bytes_append, List.append_assoc,
    List.drop_left' (length_bytes before), Nat.add_sub_cancel_left,
    List.take_left' (length_bytes text)]

/-- A character of one byte is that byte. -/
theorem exists_utf8EncodeChar_of_lt {c : Char} (h : c.toNat < 0x80) :
    ∃ b, String.utf8EncodeChar c = [b] ∧ Char.ofUInt8 b = c := by
  have hle : c.val.toNat ≤ 127 := Nat.le_of_lt_succ h
  refine ⟨UInt8.ofNat c.val.toNat, by rw [String.utf8EncodeChar]; exact if_pos hle, ?_⟩
  apply Char.ext
  apply UInt32.toNat_inj.mp
  show (UInt8.ofNat c.val.toNat).toUInt32.toNat = c.val.toNat
  rw [UInt8.toNat_toUInt32, UInt8.toNat_ofNat']
  omega

/-- The bytes of any other character are no characters by themselves. -/
theorem le_of_mem_utf8EncodeChar {c : Char} (h : 0x80 ≤ c.toNat) {b : UInt8}
    (hb : b ∈ String.utf8EncodeChar c) : 0x80 ≤ (Char.ofUInt8 b).toNat := by
  have hne : ¬c.val.toNat ≤ 127 := Nat.not_le_of_lt h
  show 0x80 ≤ b.toUInt32.toNat
  rw [UInt8.toNat_toUInt32]
  -- a first byte begins with two ones at least, every other one with a one and a zero
  simp only [String.utf8EncodeChar, if_neg hne] at hb
  split at hb
  · simp only [List.mem_cons, List.not_mem_nil, or_false] at hb
    rcases hb with rfl | rfl
    all_goals rw [UInt8.toNat_ofNat']; omega
  · split at hb
    all_goals
      simp only [List.mem_cons, List.not_mem_nil, or_false] at hb
      rcases hb with rfl | rfl | rfl | rfl
    all_goals rw [UInt8.toNat_ofNat']; omega

/-- Where characters beyond the first 128 are all alike, going on byte by byte stops where going on
character by character does. -/
theorem takeWhile_bytes {keep : Char → Bool}
    (h : ∀ c d : Char, 0x80 ≤ c.toNat → 0x80 ≤ d.toNat → keep c = keep d) (text : List Char) :
    (bytes text).takeWhile (fun b => keep (Char.ofUInt8 b)) = bytes (text.takeWhile keep) := by
  induction text with
  | nil => rfl
  | cons c rest ih =>
    have hcons : bytes (c :: rest) = String.utf8EncodeChar c ++ bytes rest := List.flatMap_cons
    have hall : ∀ b ∈ String.utf8EncodeChar c, keep (Char.ofUInt8 b) = keep c := by
      intro b hb
      by_cases hsmall : c.toNat < 0x80
      · obtain ⟨b', hsingle, hb'⟩ := exists_utf8EncodeChar_of_lt hsmall
        rw [hsingle, List.mem_singleton] at hb
        rw [hb, hb']
      · have hlarge : 0x80 ≤ c.toNat := Nat.le_of_not_lt hsmall
        exact h _ _ (le_of_mem_utf8EncodeChar hlarge hb) hlarge
    rw [hcons]
    cases hkeep : keep c with
    | true =>
      rw [List.takeWhile_append_of_pos fun b hb => (hall b hb).trans hkeep, ih,
        List.takeWhile_cons_of_pos hkeep]
      exact List.flatMap_cons.symm
    | false =>
      obtain ⟨b, later, hsplit⟩ := List.exists_cons_of_length_pos
        (by rw [String.length_utf8EncodeChar]; exact c.utf8Size_pos)
      have hfirst : keep (Char.ofUInt8 b) = false :=
        (hall b (by rw [hsplit]; exact List.mem_cons_self)).trans hkeep
      rw [hsplit, List.cons_append, List.takeWhile_cons_of_neg (by simp [hfirst]),
        List.takeWhile_cons_of_neg (by simp [hkeep])]
      rfl

/-! ## Cuts -/

/-- Whether a text can be cut behind its first `n` bytes. -/
def IsCut (text : List Char) (n : Nat) : Prop :=
  ∃ before behind, text = before ++ behind ∧ width before = n

theorem IsCut.le_width {text : List Char} {n : Nat} (h : IsCut text n) : n ≤ width text := by
  obtain ⟨before, behind, rfl, rfl⟩ := h
  rw [width_append]
  exact Nat.le_add_right _ _

end Stave.Text
