import Mathlib.Data.List.Basic
import Mathlib.Data.List.TakeWhile
import Stave.Text.Blank

/-!
# Trimmed texts, joined lines and joined words

A trimmed text is its own trimming.  Texts that end within a line are joined by line feeds into a text
whose lines are those of the first text, then those of the second, and so on.  Words joined by spaces
are the words of the text.
-/

namespace Stave.Text

theorem toNat_of_isDigit {c : Char} (h : c.isDigit = true) : 48 ≤ c.toNat ∧ c.toNat ≤ 57 := by
  rw [Char.isDigit, Bool.and_eq_true, decide_eq_true_eq, decide_eq_true_eq] at h
  exact h

/-! ## Trimming -/

theorem head?_trimStart (text : List Char) : ∀ c ∈ (trimStart text).head?, isBlank c = false := by
  intro c hc
  have h := List.head?_dropWhile_not isBlank text
  rw [trimStart] at hc
  rw [hc] at h
  exact h

theorem getLast?_trimEnd (text : List Char) : ∀ c ∈ (trimEnd text).getLast?, isBlank c = false := by
  intro c hc
  rw [trimEnd, List.getLast?_reverse] at hc
  exact head?_trimStart text.reverse c hc

theorem trimEnd_prefix (text : List Char) : trimEnd text <+: text := by
  have h := List.reverse_prefix.mpr (List.dropWhile_suffix (l := text.reverse) isBlank)
  rwa [List.reverse_reverse] at h

/-- A text does not begin with a blank and does not end with one. -/
structure IsTrimmed (text : List Char) : Prop where
  head : ∀ c ∈ text.head?, isBlank c = false
  last : ∀ c ∈ text.getLast?, isBlank c = false

instance (text : List Char) : Decidable (IsTrimmed text) :=
  decidable_of_iff (text.head?.all (fun c => !isBlank c) = true
      ∧ text.getLast?.all (fun c => !isBlank c) = true) <| by
    simp only [Option.all_eq_true, Bool.not_eq_true']
    exact ⟨fun ⟨head, last⟩ => ⟨head, last⟩, fun h => ⟨h.head, h.last⟩⟩

theorem isTrimmed_trim (text : List Char) : IsTrimmed (trim text) where
  head c hc := by
    obtain ⟨behind, hbehind⟩ := trimEnd_prefix (trimStart text)
    apply head?_trimStart text c
    -- cutting off the end keeps the first character, if any is left
    rw [← hbehind, List.head?_append]
    rw [trim] at hc
    rw [hc]
    rfl
  last := getLast?_trimEnd _

theorem trimEnd_eq_self {text : List Char} (h : ∀ c ∈ text.getLast?, isBlank c = false) :
    trimEnd text = text := by
  have hstart : text.reverse.dropWhile isBlank = text.reverse := by
    cases hreverse : text.reverse with
    | nil => rfl
    | cons c rest =>
      have hc := h c (by rw [← List.head?_reverse, hreverse]; rfl)
      rw [List.dropWhile_cons, if_neg (by simp [hc])]
  rw [trimEnd, hstart, List.reverse_reverse]

theorem IsTrimmed.trim_eq {text : List Char} (h : IsTrimmed text) : trim text = text := by
  have hstart : trimStart text = text := by
    cases text with
    | nil => rfl
    | cons c rest => exact List.dropWhile_cons_of_neg (by simp [h.head c rfl])
  rw [trim, hstart, trimEnd_eq_self h.last]

/-- Blanks around a trimmed text are cut off. -/
theorem IsTrimmed.trim_append {text : List Char} (h : IsTrimmed text) (hne : text ≠ [])
    {before behind : List Char} (hbefore : ∀ c ∈ before, isBlank c = true)
    (hbehind : ∀ c ∈ behind, isBlank c = true) : trim (before ++ (text ++ behind)) = text := by
  have hstart : trimStart (before ++ (text ++ behind)) = text ++ behind := by
    obtain ⟨c, rest, rfl⟩ := List.exists_cons_of_ne_nil hne
    rw [trimStart, List.dropWhile_append_of_pos hbefore]
    exact List.dropWhile_cons_of_neg (by simp [h.head c rfl])
  have hend : trimEnd (text ++ behind) = trimEnd text := by
    rw [trimEnd, List.reverse_append, List.dropWhile_append_of_pos (by simpa using hbehind), trimEnd]
  rw [trim, hstart, hend, trimEnd_eq_self h.last]

/-- A blank at the end is cut off. -/
theorem trim_concat {c : Char} (h : isBlank c = true) (text : List Char) :
    trim (text ++ [c]) = trim text := by
  have hend : ∀ kept : List Char, trimEnd (kept ++ [c]) = trimEnd kept := fun kept => by
    rw [trimEnd, List.reverse_concat, List.dropWhile_cons_of_pos h, trimEnd]
  rw [trim, trimStart, List.dropWhile_append]
  split
  · next hblank =>
    rw [trim, trimStart, List.isEmpty_iff.mp hblank, List.dropWhile_cons_of_pos h, List.dropWhile_nil]
  · rw [hend, trim, trimStart]

theorem isTrimmed_nil : IsTrimmed [] := ⟨by simp, by simp⟩

/-- Trimmed texts with a character between them are a trimmed text. -/
theorem IsTrimmed.append_cons {a b : List Char} (ha : IsTrimmed a) (hane : a ≠ [])
    (hb : IsTrimmed b) (hbne : b ≠ []) (c : Char) : IsTrimmed (a ++ c :: b) where
  head d hd := by
    rw [List.head?_append_of_ne_nil _ hane] at hd
    exact ha.head d hd
  last d hd := by
    rw [List.getLast?_append_of_ne_nil _ (by simp), List.getLast?_cons_of_ne_nil hbne] at hd
    exact hb.last d hd

/-- Trimmed texts joined by spaces are a trimmed text. -/
theorem isTrimmed_intercalate {texts : List (List Char)}
    (h : ∀ text ∈ texts, text ≠ [] ∧ IsTrimmed text) : IsTrimmed ([' '].intercalate texts) := by
  induction texts with
  | nil => exact isTrimmed_nil
  | cons text rest ih =>
    obtain ⟨hne, htext⟩ := h text List.mem_cons_self
    have hrest : ∀ t ∈ rest, t ≠ [] ∧ IsTrimmed t := fun t ht => h t (List.mem_cons_of_mem _ ht)
    by_cases hlast : rest = []
    · simpa [hlast] using htext
    · rw [List.intercalate_cons_of_ne_nil hlast, List.append_assoc, List.singleton_append]
      refine htext.append_cons hne (ih hrest) (fun hnil => ?_) ' '
      -- the first of the texts behind is not empty
      obtain ⟨t, later, rfl⟩ := List.exists_cons_of_ne_nil hlast
      have htne := (hrest t List.mem_cons_self).1
      cases later with
      | nil => exact htne (by simpa using hnil)
      | cons u later => simp at hnil

/-- Cutting the blanks off a text leaves everything from a character on that is no blank. -/
theorem trimStart_append_cons (text : List Char) {c : Char} (h : isBlank c = false)
    (behind : List Char) : ∃ front, trimStart (text ++ c :: behind) = front ++ c :: behind := by
  rw [trimStart, List.dropWhile_append]
  split
  · exact ⟨[], List.dropWhile_cons_of_neg (by simp [h])⟩
  · exact ⟨_, rfl⟩

/-- Nothing stops at a character that a text does not have. -/
theorem bne_of_notMem {stop : Char} {text : List Char} (h : stop ∉ text) :
    ∀ c ∈ text, (c != stop) = true := by
  intro c hc
  rw [bne_iff_ne]
  rintro rfl
  exact h hc

/-! ## Lines -/

/-- Whether a text ends within a line: with a character, and not one of a line ending. -/
def EndsInLine (text : List Char) : Prop := ∃ c, text.getLast? = some c ∧ c ≠ '\n' ∧ c ≠ '\r'

theorem EndsInLine.ne_nil {text : List Char} (h : EndsInLine text) : text ≠ [] := by
  rintro rfl
  obtain ⟨c, hc, -⟩ := h
  cases hc

theorem dropReturn_of_notMem {line : List Char} (h : '\r' ∉ line) : dropReturn line = line := by
  rw [dropReturn, if_neg]
  exact fun hlast => h (List.mem_of_mem_getLast? hlast)

theorem dropReturn_prefix (line : List Char) : dropReturn line <+: line := by
  rw [dropReturn]
  split
  · exact List.dropLast_prefix line
  · exact List.prefix_rfl

/-- No more than a carriage return is cut off. -/
theorem eq_dropReturn_or (line : List Char) :
    line = dropReturn line ∨ line = dropReturn line ++ ['\r'] := by
  rw [dropReturn]
  split
  · next hlast => exact .inr (List.dropLast_append_getLast? '\r' hlast).symm
  · exact .inl rfl

theorem lines_nil : lines [] = [] := by
  rw [lines]
  rfl

theorem length_lines_le (text : List Char) : (lines text).length ≤ text.length := by
  fun_induction lines text with
  | case1 text hempty => exact Nat.zero_le _
  | case2 text hne hnone => exact List.length_pos_iff.mpr (by simpa using hne)
  | case3 text hne c rest hrest ih =>
    have hbehind := (List.dropWhile_suffix (l := text) (· != '\n')).length_le
    rw [hrest, List.length_cons] at hbehind
    rw [List.length_cons]
    omega

/-- A text without a line feed is one line. -/
theorem lines_of_notMem {text : List Char} (hne : text ≠ []) (h : '\n' ∉ text) :
    lines text = [text] := by
  have hdrop : text.dropWhile (· != '\n') = [] := List.dropWhile_eq_nil_iff.mpr (bne_of_notMem h)
  rw [lines, if_neg (by simpa using hne)]
  split
  · rfl
  · simp_all

/-- The line before a line feed, and the lines behind it. -/
theorem lines_append_cons {line : List Char} (h : '\n' ∉ line) (behind : List Char) :
    lines (line ++ '\n' :: behind) = dropReturn line :: lines behind := by
  have hkeep := bne_of_notMem h
  have htake : (line ++ '\n' :: behind).takeWhile (· != '\n') = line := by
    rw [List.takeWhile_append_of_pos hkeep]
    simp
  have hdrop : (line ++ '\n' :: behind).dropWhile (· != '\n') = '\n' :: behind := by
    rw [List.dropWhile_append_of_pos hkeep]
    simp
  rw [lines, if_neg (by simp), htake]
  split
  · simp_all
  · simp_all

theorem EndsInLine.of_append_cons {line behind : List Char}
    (h : EndsInLine (line ++ '\n' :: behind)) : EndsInLine behind := by
  obtain ⟨c, hlast, hfeed, hreturn⟩ := h
  refine ⟨c, ?_, hfeed, hreturn⟩
  cases behind with
  | nil =>
    have heq : '\n' = c := by simpa using hlast
    exact absurd heq.symm hfeed
  | cons d rest => simpa using hlast

theorem lines_append {a : List Char} (h : EndsInLine a) (b : List Char) :
    lines (a ++ '\n' :: b) = lines a ++ lines b := by
  -- the first line feed of `a`, if it has one, splits both sides
  induction hlength : a.length using Nat.strong_induction_on generalizing a with
  | _ length ih =>
    by_cases hmem : '\n' ∈ a
    · obtain ⟨line, behind, rfl, hline⟩ := List.eq_append_cons_of_mem hmem
      have hshorter : behind.length < length := by
        rw [← hlength, List.length_append, List.length_cons]
        omega
      rw [List.append_assoc, List.cons_append, lines_append_cons hline, lines_append_cons hline,
        ih _ hshorter h.of_append_cons rfl, List.cons_append]
    · obtain ⟨c, hlast, -, hreturn⟩ := h
      have hne : a ≠ [] := fun hnil => by simp [hnil] at hlast
      have hkept : a.getLast? ≠ some '\r' := by
        rw [hlast]
        simpa using hreturn
      rw [lines_append_cons hmem, lines_of_notMem hne hmem, dropReturn, if_neg hkept,
        List.singleton_append]

/-- The lines of joined texts are those of each text, one after the other. -/
theorem lines_intercalate {texts : List (List Char)} (h : ∀ text ∈ texts, EndsInLine text) :
    lines (['\n'].intercalate texts) = texts.flatMap lines := by
  induction texts with
  | nil => exact lines_nil
  | cons text rest ih =>
    have hrest := ih fun t ht => h t (List.mem_cons_of_mem _ ht)
    by_cases hlast : rest = []
    · simp [hlast]
    · rw [List.intercalate_cons_of_ne_nil hlast, List.append_assoc, List.singleton_append,
        lines_append (h text List.mem_cons_self), hrest, List.flatMap_cons]

/-- The line feed at the end of a text, if there is one. -/
def finalFeed (text : List Char) : List Char :=
  if text.getLast? == some '\n' then ['\n'] else []

/-! ## Words -/

theorem words_of_trimStart {text rest : List Char} {c : Char} (h : trimStart text = c :: rest) :
    words text
      = (c :: rest.takeWhile fun c => !isBlank c) :: words (rest.dropWhile fun c => !isBlank c) := by
  rw [words]
  split
  · next hnil => rw [h] at hnil; cases hnil
  · next d later hcons =>
    rw [h] at hcons
    obtain ⟨rfl, rfl⟩ := List.cons.inj hcons
    rfl

theorem words_nil : words [] = [] := by
  rw [words]
  rfl

/-- Characters without a blank are a word up to the next blank, or to the end of the text. -/
theorem words_append {word behind : List Char} (hne : word ≠ [])
    (hword : ∀ c ∈ word, isBlank c = false) (hbehind : ∀ c ∈ behind.head?, isBlank c = true) :
    words (word ++ behind) = word :: words behind := by
  obtain ⟨c, rest, rfl⟩ := List.exists_cons_of_ne_nil hne
  obtain ⟨hc, hrest⟩ := List.forall_mem_cons.mp hword
  have hstart : trimStart (c :: rest ++ behind) = c :: (rest ++ behind) :=
    List.dropWhile_cons_of_neg (by simp [hc])
  have hkeep : ∀ d ∈ rest, (!isBlank d) = true := fun d hd => by rw [hrest d hd]; rfl
  have htake : behind.takeWhile (fun c => !isBlank c) = [] := by
    cases behind with
    | nil => rfl
    | cons d later => exact List.takeWhile_cons_of_neg (by simp [hbehind d rfl])
  have hdrop : behind.dropWhile (fun c => !isBlank c) = behind := by
    cases behind with
    | nil => rfl
    | cons d later => exact List.dropWhile_cons_of_neg (by simp [hbehind d rfl])
  rw [words_of_trimStart hstart, List.takeWhile_append_of_pos hkeep,
    List.dropWhile_append_of_pos hkeep, htake, hdrop, List.append_nil]

theorem words_blank {c : Char} (h : isBlank c = true) (rest : List Char) :
    words (c :: rest) = words rest := by
  have hstart : trimStart (c :: rest) = trimStart rest := List.dropWhile_cons_of_pos h
  cases hrest : trimStart rest with
  | nil =>
    rw [words, words]
    split <;> split <;> simp_all
  | cons d later => rw [words_of_trimStart (hstart.trans hrest), words_of_trimStart hrest]

/-- Words joined by spaces are the words of the text. -/
theorem words_intercalate {texts : List (List Char)}
    (h : ∀ text ∈ texts, text ≠ [] ∧ ∀ c ∈ text, isBlank c = false) :
    words ([' '].intercalate texts) = texts := by
  induction texts with
  | nil => exact words_nil
  | cons text rest ih =>
    obtain ⟨⟨hne, htext⟩, hrest⟩ := List.forall_mem_cons.mp h
    by_cases hlast : rest = []
    · have hword : words (text ++ []) = text :: words [] := words_append hne htext (by simp)
      rw [List.append_nil, words_nil] at hword
      simpa [hlast] using hword
    · have hspace : isBlank ' ' = true := rfl
      rw [List.intercalate_cons_of_ne_nil hlast, List.append_assoc, List.singleton_append,
        words_append hne htext (by simp [hspace]), words_blank hspace, ih hrest]

end Stave.Text
