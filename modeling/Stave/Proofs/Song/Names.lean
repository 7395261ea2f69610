import Mathlib.Data.Nat.Digits.Defs
import Stave.Proofs.Song.Clarified
import Stave.Proofs.Yaml.Listed
import Stave.Song.Section

/-!
# Names and their repeats

A name as it may be given to a section or an instrument is text for YAML, also with the number of a
repeat behind it, and both are read back from that text.
-/

namespace Stave.Song

open Yaml

/-! ## Visible ASCII -/

/-- A character from the space to the tilde. -/
def IsPrintable (c : Char) : Prop := 32 ≤ c.toNat ∧ c.toNat ≤ 126

theorem isPrintable_of_isDigit {c : Char} (h : c.isDigit = true) : IsPrintable c := by
  have hrange := Text.toNat_of_isDigit h
  unfold IsPrintable
  omega

theorem isPrintable_of_inKey {c : Char} (h : KeyedLine.inKey c = true) : IsPrintable c := by
  simp only [KeyedLine.inKey, KeyedLine.startsKey, Char.isAlphanum, Bool.or_eq_true,
    beq_iff_eq] at h
  rcases h with ((((hletter | hdigit) | rfl) | rfl) | rfl) | rfl
  · have hrange := toNat_of_isAlpha hletter
    unfold IsPrintable
    omega
  · exact isPrintable_of_isDigit hdigit
  all_goals exact ⟨by decide, by decide⟩

namespace IsPrintable

variable {c : Char} (h : IsPrintable c)

include h

theorem isBreak_eq : isBreak c = false := by
  obtain ⟨hlow, hhigh⟩ := h
  simp only [isBreak, Bool.or_eq_false_iff, beq_eq_false_iff_ne]
  refine ⟨⟨⟨⟨?_, ?_⟩, ?_⟩, ?_⟩, ?_⟩
  all_goals
    rintro rfl
    first | exact absurd hlow (by decide) | exact absurd hhigh (by decide)

theorem isAllowed_eq : isAllowed c = true := by
  obtain ⟨hlow, hhigh⟩ := h
  simp [isAllowed, hlow, hhigh]

theorem utf8Size_eq : c.utf8Size = 1 := by
  rw [Char.utf8Size_eq_one_iff, UInt32.le_iff_toNat_le]
  exact Nat.le_succ_of_le h.2

theorem isSpacing_iff : isSpacing c = true ↔ c = ' ' := by
  have htab : c ≠ '\t' := by
    rintro rfl
    exact absurd h.1 (by decide)
  simp [isSpacing, isBlank, h.isBreak_eq, htab]

end IsPrintable

/-! ## Names -/

/-- A bare key that begins with no blank and does not end in a space has no blanks around it. -/
theorem IsBare.isTrimmed {key : List Char} (h : IsBare key)
    (hfirst : ∀ c ∈ key.head?, KeyedLine.startsKey c = true) (hlast : key.getLast? ≠ some ' ') :
    Text.IsTrimmed key where
  head c hc := isBlank_of_startsKey (hfirst c hc)
  last c hc := by
    have hin := h c (List.mem_of_mem_getLast? hc)
    rw [KeyedLine.inKey, Bool.or_eq_true, Bool.or_eq_true, Bool.or_eq_true, beq_iff_eq, beq_iff_eq,
      beq_iff_eq] at hin
    rcases hin with ((hstarts | rfl) | rfl) | rfl
    · exact isBlank_of_startsKey hstarts
    · exact absurd hc hlast
    · rfl
    · rfl

/-- A name of at most 128 letters, digits, underscores, spaces, points and dashes that begins with a
letter, does not end in a space and is no word for null or a truth value. -/
structure IsName (name : List Char) : Prop where
  short : name.length ≤ 128
  bare : IsBare name
  first : ∃ c ∈ name.head?, c.isAlpha = true
  last : name.getLast? ≠ some ' '
  notNull : isNullText (String.ofList name) = false
  notBool : bool? (String.ofList name) = none

instance (name : List Char) : Decidable (IsName name) :=
  decidable_of_iff (name.length ≤ 128 ∧ IsBare name ∧ name.head?.any Char.isAlpha = true
      ∧ name.getLast? ≠ some ' ' ∧ isNullText (String.ofList name) = false
      ∧ (bool? (String.ofList name)).isNone = true) <| by
    rw [Option.any_eq_true, Option.isNone_iff_eq_none]
    exact ⟨fun ⟨short, bare, first, last, null, bool⟩ => ⟨short, bare, first, last, null, bool⟩,
      fun h => ⟨h.short, h.bare, h.first, h.last, h.notNull, h.notBool⟩⟩

namespace IsName

variable {name : List Char} (h : IsName name)

include h

theorem exists_cons : ∃ c rest, name = c :: rest ∧ c.isAlpha = true := by
  obtain ⟨c, hc, hletter⟩ := h.first
  obtain ⟨rest, hname⟩ := List.head?_eq_some_iff.mp hc
  exact ⟨c, rest, hname, hletter⟩

theorem notMem {c : Char} (hc : KeyedLine.inKey c = false) : c ∉ name := by
  intro hmem
  rw [h.bare c hmem] at hc
  cases hc

theorem isTrimmed : Text.IsTrimmed name := by
  refine h.bare.isTrimmed (fun c hc => ?_) h.last
  obtain ⟨d, rest, hname, hletter⟩ := h.exists_cons
  obtain rfl : d = c := by simpa [hname] using hc
  simp [KeyedLine.startsKey, Char.isAlphanum, hletter]

end IsName

/-! ## The number of a repeat -/

theorem isDigit_of_mem_digits {count : Nat} {c : Char} (h : c ∈ Nat.toDigits 10 count) :
    c.isDigit = true := Nat.isDigit_of_mem_toDigits (by decide) (by decide) h

/-- The digits of a number are read back. -/
theorem repeatNumber?_toDigits {count : Nat} (h : count < 2 ^ 64) :
    repeatNumber? (Nat.toDigits 10 count) = some count := by
  have hdigits : ∀ c ∈ Nat.toDigits 10 count, c.isDigit = true := fun _ => isDigit_of_mem_digits
  have hread : (Nat.toDigits 10 count).foldl (fun n c => 10 * n + (c.toNat - '0'.toNat)) 0 = count :=
    Nat.ofDigitChars_toDigits (by decide) (by decide)
  obtain ⟨c, rest, hcons⟩ := List.exists_cons_of_ne_nil (@Nat.toDigits_ne_nil count 10)
  rw [hcons] at hdigits hread ⊢
  have hplus : c ≠ '+' := by
    rintro rfl
    have hdigit := hdigits '+' List.mem_cons_self
    cases hdigit
  have hall : (c :: rest).all Char.isDigit = true := List.all_eq_true.mpr hdigits
  have hlimit : count < Nat.pow 2 64 := h
  simp only [repeatNumber?, List.cons.injEq, hplus, false_and, imp_self, implies_true, hread, hall,
    hlimit, List.isEmpty_cons, Bool.not_true, Bool.or_self, Bool.false_eq_true, if_true, if_false]

/-- The name of a repeat has the characters of the key, the mark and digits. -/
theorem mem_repeatName {key : List Char} {count : Nat} {c : Char} (h : c ∈ repeatName key count) :
    c ∈ key ∨ (c = repeatMark ∨ c.isDigit = true) ∧ IsPrintable c := by
  unfold repeatName at h
  split at h
  · exact .inl h
  · rcases List.mem_append.mp h with hkey | hnumber
    · exact .inl hkey
    · rcases List.mem_cons.mp hnumber with rfl | hdigit
      · exact .inr ⟨.inl rfl, by decide, by decide⟩
      · have hisDigit := isDigit_of_mem_digits hdigit
        exact .inr ⟨.inr hisDigit, isPrintable_of_isDigit hisDigit⟩

theorem exists_repeatName (key : List Char) (count : Nat) : ∃ more, repeatName key count = key ++ more := by
  rw [repeatName]
  split
  · exact ⟨[], (List.append_nil key).symm⟩
  · exact ⟨_, rfl⟩

theorem isTrimmed_repeatName {key : List Char} (h : Text.IsTrimmed key) (hne : key ≠ []) (count : Nat) :
    Text.IsTrimmed (repeatName key count) := by
  rw [repeatName]
  split
  · exact h
  · have hdigit : ∀ c ∈ Nat.toDigits 10 count, Text.isBlank c = false := fun c hc =>
      isBlank_of_startsKey (by simp [KeyedLine.startsKey, Char.isAlphanum, isDigit_of_mem_digits hc])
    exact h.append_cons hne ⟨fun c hc => hdigit c (List.mem_of_mem_head? hc),
      fun c hc => hdigit c (List.mem_of_mem_getLast? hc)⟩ Nat.toDigits_ne_nil repeatMark

/-- A key and the number of its repeat are read back from the name of the repeat. -/
theorem readRepeat_repeatName {key : List Char} (hkey : repeatMark ∉ key) {count : Nat}
    (hcount : count < 2 ^ 64) : readRepeat (repeatName key count) = (key, count) := by
  have hstop : ∀ text : List Char, repeatMark ∉ text →
      ∀ c ∈ text.reverse, (c != repeatMark) = true := fun text htext =>
    Text.bne_of_notMem (List.mem_reverse.not.mpr htext)
  by_cases hzero : count = 0
  · rw [repeatName, if_pos hzero, hzero, readRepeat, List.takeWhile_eq_self_iff.mpr (hstop key hkey)]
    simp
  · have hmark : repeatMark ∉ Nat.toDigits 10 count := by
      intro hmem
      have hdigit := isDigit_of_mem_digits hmem
      cases hdigit
    have hnumber : ((key ++ repeatMark :: Nat.toDigits 10 count).reverse.takeWhile
        (· != repeatMark)).reverse = Nat.toDigits 10 count := by
      rw [List.reverse_append, List.reverse_cons, List.append_assoc,
        List.takeWhile_append_of_pos (hstop _ hmark)]
      simp
    have hlonger : ¬(Nat.toDigits 10 count).length
        = (key ++ repeatMark :: Nat.toDigits 10 count).length := by
      rw [List.length_append, List.length_cons]
      omega
    have hcut : (key ++ repeatMark :: Nat.toDigits 10 count).length
        - (Nat.toDigits 10 count).length - 1 = key.length := by
      rw [List.length_append, List.length_cons]
      omega
    rw [repeatName, if_neg hzero, readRepeat, hnumber]
    simp only [beq_iff_eq, if_neg hlonger, repeatNumber?_toDigits hcount, hcut, List.take_left]

/-! ## The name of a repeat in YAML -/

/-- Text without colons and hash signs goes on as a plain scalar. -/
theorem staysPlain_append_of_forall {a : List Char}
    (ha : ∀ c ∈ a, isBreak c = false ∧ c ≠ ':' ∧ c ≠ '#') {afterSpacing : Bool} {b : List Char}
    (hb : staysPlain (a.getLast?.elim afterSpacing isSpacing) b = true) :
    staysPlain afterSpacing (a ++ b) = true := by
  induction a generalizing afterSpacing with
  | nil => exact hb
  | cons c rest ih =>
    obtain ⟨hbreak, hcolon, hhash⟩ := ha c List.mem_cons_self
    have hrest : staysPlain (isSpacing c) (rest ++ b) = true := by
      apply ih fun d hd => ha d (List.mem_cons_of_mem c hd)
      rw [List.getLast?_cons] at hb
      cases hlast : rest.getLast? <;> simpa [hlast] using hb
    simp [staysPlain, hbreak, hcolon, hhash, hrest]

/-- No word for null or a truth value has a hash sign in it. -/
theorem noWord_of_mem {word : String} (h : '#' ∈ word.toList) :
    isNullText word = false ∧ bool? word = none := by
  have hother : ∀ words : List String, (∀ w ∈ words, '#' ∉ w.toList) →
      words.contains word = false := by
    intro words hwords
    rw [Bool.eq_false_iff, ne_eq, List.contains_iff_mem]
    exact fun hmem => hwords word hmem h
  unfold isNullText bool?
  rw [hother _ (by decide), hother _ (by decide), hother _ (by decide)]
  exact ⟨rfl, rfl⟩

theorem isIndicator_of_isAlpha {c : Char} (h : c.isAlpha = true) : isIndicator c = false := by
  rw [Bool.eq_false_iff]
  intro hmark
  simp only [isIndicator, String.reduceToList, List.contains_cons, List.contains_nil,
    Bool.or_eq_true, beq_iff_eq, Bool.false_eq_true, or_false] at hmark
  rcases hmark with rfl | rfl | rfl | rfl | rfl | rfl | rfl | rfl | rfl | rfl | rfl | rfl | rfl
    | rfl | rfl | rfl | rfl | rfl | rfl
  all_goals cases h

theorem sum_utf8Size {text : List Char} (h : ∀ c ∈ text, IsPrintable c) :
    (text.map Char.utf8Size).sum = text.length := by
  have hones : text.map Char.utf8Size = text.map fun _ => 1 :=
    List.map_congr_left fun c hc => (h c hc).utf8Size_eq
  simp [hones]

namespace IsName

variable {name : List Char} (h : IsName name)

include h

theorem isPrintable_repeatName {count : Nat} {c : Char} (hc : c ∈ repeatName name count) :
    IsPrintable c :=
  (mem_repeatName hc).elim (fun hname => isPrintable_of_inKey (h.bare c hname)) fun hnumber => hnumber.2

theorem exists_cons_repeatName (count : Nat) :
    ∃ c rest, repeatName name count = c :: rest ∧ c.isAlpha = true := by
  obtain ⟨c, rest, hname, hletter⟩ := h.exists_cons
  obtain ⟨more, hmore⟩ := exists_repeatName name count
  exact ⟨c, rest ++ more, by rw [hmore, hname, List.cons_append], hletter⟩

theorem staysPlain_repeatName (count : Nat) : staysPlain false (repeatName name count) = true := by
  have hname : ∀ c ∈ name, isBreak c = false ∧ c ≠ ':' ∧ c ≠ '#' := by
    intro c hc
    refine ⟨(isPrintable_of_inKey (h.bare c hc)).isBreak_eq, ?_, ?_⟩
    · rintro rfl
      exact h.notMem rfl hc
    · rintro rfl
      exact h.notMem rfl hc
  unfold repeatName
  split
  · rw [← List.append_nil name]
    exact staysPlain_append_of_forall hname rfl
  · -- the hash sign stands behind a character that is no space
    have hlast : name.getLast?.elim false isSpacing = false := by
      cases hend : name.getLast? with
      | none => rfl
      | some c =>
        have hprintable := isPrintable_of_inKey (h.bare c (List.mem_of_mem_getLast? hend))
        rw [Option.elim_some, Bool.eq_false_iff, ne_eq, hprintable.isSpacing_iff]
        rintro rfl
        exact h.last hend
    have hdigits : ∀ c ∈ Nat.toDigits 10 count, isBreak c = false ∧ c ≠ ':' ∧ c ≠ '#' := by
      intro c hc
      have hdigit := isDigit_of_mem_digits hc
      refine ⟨(isPrintable_of_isDigit hdigit).isBreak_eq, ?_, ?_⟩
      · rintro rfl
        cases hdigit
      · rintro rfl
        cases hdigit
    have hnumber : staysPlain (isSpacing '#') (Nat.toDigits 10 count ++ []) = true :=
      staysPlain_append_of_forall hdigits rfl
    rw [List.append_nil] at hnumber
    apply staysPlain_append_of_forall hname
    rw [hlast]
    exact hnumber

theorem getLast?_repeatName (count : Nat) : (repeatName name count).getLast? ≠ some ' ' := by
  obtain ⟨c, rest, hname, -⟩ := h.exists_cons
  have htrimmed := isTrimmed_repeatName h.isTrimmed (by rw [hname]; simp) count
  intro hlast
  cases htrimmed.last ' ' hlast

theorem length_repeatName {count : Nat} (hcount : count < 2 ^ 64) :
    (repeatName name count).length ≤ 149 := by
  have hshort := h.short
  have hdigits : (Nat.toDigits 10 count).length ≤ 20 :=
    Nat.toDigits_length 10 count 20 (by decide) (by omega)
  unfold repeatName
  split
  · omega
  · rw [List.length_append, List.length_cons]
    omega

/-- The name of a repeat is a key that needs no quotes. -/
theorem isKey_repeatName {count : Nat} (hcount : count < 2 ^ 64) :
    IsKey (repeatName name count) := by
  obtain ⟨c, rest, hcons, hletter⟩ := h.exists_cons_repeatName count
  have hprintable : ∀ d ∈ repeatName name count, IsPrintable d := fun d hd =>
    h.isPrintable_repeatName hd
  have hspacing : ∀ d ∈ repeatName name count, d ≠ ' ' → isSpacing d = false := by
    intro d hd hne
    rwa [Bool.eq_false_iff, ne_eq, (hprintable d hd).isSpacing_iff]
  refine ⟨⟨?_, h.staysPlain_repeatName count, ?_, ?_⟩, ?_, ?_⟩
  · have hspace := ne_of_isAlpha hletter (show ' '.isAlpha = false from rfl)
    have hmark := ne_of_isAlpha hletter (show byteOrderMark.isAlpha = false from rfl)
    have hc := hspacing c (by simp [hcons]) hspace
    simp [hcons, beginsPlain, hc, hmark, isIndicator_of_isAlpha hletter]
  · intro d hd
    apply hspacing d (List.mem_of_mem_getLast? hd)
    rintro rfl
    exact h.getLast?_repeatName count hd
  · exact fun d hd => (hprintable d hd).isAllowed_eq
  · intro d hd
    obtain rfl : c = d := by simpa [hcons] using hd
    exact .inl (by simp [Char.isAlphanum, hletter])
  · rw [sum_utf8Size hprintable]
    have hlength := h.length_repeatName hcount
    omega

theorem isKey : IsKey name := h.isKey_repeatName (show 0 < 2 ^ 64 by decide)

/-- The name of a repeat is the text that it is written as. -/
theorem keyValue?_repeatName (count : Nat) :
    keyValue? (repeatName name count) = some (.text (String.ofList (repeatName name count))) := by
  obtain ⟨c, rest, hcons, hletter⟩ := h.exists_cons_repeatName count
  have hword : isNullText (String.ofList (repeatName name count)) = false
      ∧ bool? (String.ofList (repeatName name count)) = none := by
    by_cases hzero : count = 0
    · rw [repeatName, if_pos hzero]
      exact ⟨h.notNull, h.notBool⟩
    · apply noWord_of_mem
      rw [String.toList_ofList, repeatName, if_neg hzero]
      exact List.mem_append_right name List.mem_cons_self
  rw [hcons] at hword ⊢
  exact keyValue?_of_isAlpha hletter hword.1 hword.2

/-- The instrument that the name of a repeat stands for. -/
theorem instrumentName_repeatName {count : Nat} (hcount : count < 2 ^ 64) :
    Section.instrumentName (String.ofList (repeatName name count))
      = Text.lowercase (String.ofList name) := by
  have hmark : repeatMark ∉ name := h.notMem rfl
  rw [Section.instrumentName, String.toList_ofList, readRepeat_repeatName hmark hcount,
    h.isTrimmed.trim_eq]

end IsName

end Stave.Song
