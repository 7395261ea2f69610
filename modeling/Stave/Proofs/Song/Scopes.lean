import Stave.Proofs.Song.BlockScalars
import Stave.Proofs.Song.Names

/-!
# One name for each key of a scope

A scope opens at a key that is indented more than what stands around it, and is open until a key is
indented less.  In between no two keys are written under one name, though they may be the same: the name
of a key tells what the key was and how often its scope had it before.  No line is lost or added, and
each keeps its indentation.
-/

namespace Stave.Song

open Yaml

/-! ## Open scopes -/

/-- The scopes that are kept behind some lines. -/
def scopesBehind (lines : List (List Char)) : List Scope :=
  lines.foldl (fun scopes line => (clarifyLine scopes line).2) []

deriving instance DecidableEq for KeyedLine

/-- The line with a key at a place. -/
def keyAt (lines : List (List Char)) (i : Nat) : Option KeyedLine := lines[i]?.bind KeyedLine.read?

/-- Whether a scope of an indentation is kept behind some lines. -/
def HasScope (lines : List (List Char)) (indent : Nat) : Prop :=
  ∃ s ∈ scopesBehind lines, s.indent = indent

instance (lines : List (List Char)) (indent : Nat) : Decidable (HasScope lines indent) :=
  inferInstanceAs (Decidable (∃ s ∈ scopesBehind lines, s.indent = indent))

/-- Whether the scope of an indentation is open from behind the line at `i` up to the line at `j`. -/
def StaysOpen (lines : List (List Char)) (indent i j : Nat) : Prop :=
  ∀ k ≤ j, i < k → HasScope (lines.take k) indent

instance (lines : List (List Char)) (indent i j : Nat) : Decidable (StaysOpen lines indent i j) :=
  inferInstanceAs (Decidable (∀ k ≤ j, i < k → HasScope (lines.take k) indent))

/-- How many of the lines before the line at `j` have the key in the scope of the indentation that is
open there. -/
def timesInScope (lines : List (List Char)) (indent : Nat) (key : List Char) (j : Nat) : Nat :=
  (List.range j).countP fun i =>
    (keyAt lines i).any fun l => decide (l.indent = indent ∧ l.key = key ∧ StaysOpen lines indent i j)

theorem recalls_scopesBehind (lines : List (List Char)) :
    Recalls (scopesBehind lines) lines.reverse := by
  induction lines using List.reverseRecOn with
  | nil => exact recalls_nil
  | append_singleton lines line ih =>
    rw [scopesBehind, List.foldl_append, List.reverse_append]
    exact ih.line line

/-- A key opens its scope, or is in it, and closes those that are indented more. -/
theorem hasScope_concat_of_read? {line : List Char} {l : KeyedLine} (hread : KeyedLine.read? line = some l)
    (lines : List (List Char)) (indent : Nat) :
    HasScope (lines ++ [line]) indent
      ↔ l.indent = indent ∨ indent < l.indent ∧ HasScope lines indent := by
  have hdescending := (recalls_scopesBehind lines).descending
  obtain ⟨seen, hscopes, -⟩ := snd_clarifyKey hdescending l
  have hbehind : scopesBehind (lines ++ [line])
      = ⟨l.indent, l.key :: seen, l.key⟩ :: outside (scopesBehind lines) l.indent := by
    rw [scopesBehind, List.foldl_append, ← scopesBehind, List.foldl_cons, List.foldl_nil,
      clarifyLine_of_read? hread, hscopes]
  rw [HasScope, hbehind, List.exists_mem_cons_iff]
  refine or_congr_right ?_
  simp only [outside, List.mem_filter, decide_eq_true_eq]
  constructor
  · rintro ⟨s, ⟨hs, hless⟩, rfl⟩
    exact ⟨hless, s, hs, rfl⟩
  · rintro ⟨hless, s, hs, rfl⟩
    exact ⟨s, ⟨hs, hless⟩, rfl⟩

theorem hasScope_take_succ (lines : List (List Char)) (j indent : Nat) :
    HasScope (lines.take (j + 1)) indent
      ↔ (keyAt lines j).elim (HasScope (lines.take j) indent) fun l =>
        l.indent = indent ∨ indent < l.indent ∧ HasScope (lines.take j) indent := by
  rw [List.take_add_one, keyAt]
  cases hline : lines[j]? with
  | none => simp
  | some line =>
    rw [Option.toList_some, Option.bind_some]
    cases hread : KeyedLine.read? line with
    | some l => exact hasScope_concat_of_read? hread _ indent
    | none =>
      rw [HasScope, scopesBehind, List.foldl_append, ← scopesBehind, List.foldl_cons, List.foldl_nil,
        snd_clarifyLine_of_read?_eq_none hread]
      rfl

/-- A scope stays open across a line unless the line has a key that is indented less. -/
theorem staysOpen_succ {i j : Nat} (h : i < j) (lines : List (List Char)) (indent : Nat) :
    StaysOpen lines indent i (j + 1)
      ↔ StaysOpen lines indent i j ∧ ∀ l ∈ keyAt lines j, indent ≤ l.indent := by
  have hsplit : StaysOpen lines indent i (j + 1)
      ↔ StaysOpen lines indent i j ∧ HasScope (lines.take (j + 1)) indent := by
    constructor
    · exact fun hopen => ⟨fun k hk => hopen k (Nat.le_succ_of_le hk), hopen (j + 1) le_rfl (by omega)⟩
    · rintro ⟨hopen, hlast⟩ k hk hik
      rcases Nat.le_succ_iff.mp hk with hk | rfl
      · exact hopen k hk hik
      · exact hlast
  rw [hsplit, hasScope_take_succ]
  refine and_congr_right fun hopen => ?_
  have hhere : HasScope (lines.take j) indent := hopen j le_rfl h
  cases keyAt lines j with
  | none => simpa using hhere
  | some l =>
    simp only [Option.elim_some, hhere, and_true, Option.mem_some_iff, forall_eq']
    omega

theorem staysOpen_self_succ (lines : List (List Char)) {indent j : Nat} {l : KeyedLine}
    (h : keyAt lines j = some l) (hindent : l.indent = indent) : StaysOpen lines indent j (j + 1) := by
  intro k hk hjk
  obtain rfl : k = j + 1 := by omega
  rw [hasScope_take_succ, h]
  exact .inl hindent

theorem StaysOpen.trans {lines : List (List Char)} {indent i j k : Nat}
    (h : StaysOpen lines indent i j) (h' : StaysOpen lines indent j k) :
    StaysOpen lines indent i k := by
  intro n hn hin
  rcases Nat.lt_or_ge j n with hjn | hnj
  · exact h' n hn hjn
  · exact h n hnj hin

/-! ## Counting -/

theorem timesMet_take_succ (lines : List (List Char)) (indent : Nat) (key : List Char) (j : Nat) :
    timesMet indent key (lines.take (j + 1)).reverse
      = (keyAt lines j).elim (timesMet indent key (lines.take j).reverse) fun l =>
        if l.indent < indent then 0
        else (if l.indent = indent ∧ l.key = key then 1 else 0)
          + timesMet indent key (lines.take j).reverse := by
  rw [List.take_add_one, keyAt]
  cases hline : lines[j]? with
  | none => simp
  | some line =>
    rw [Option.toList_some, Option.bind_some, List.reverse_append, List.reverse_singleton,
      List.singleton_append, timesMet]
    cases KeyedLine.read? line <;> rfl

/-- A scope that is not closed at a line has the keys that it had before. -/
theorem countP_staysOpen_succ {lines : List (List Char)} {indent j : Nat}
    (h : ∀ l ∈ keyAt lines j, indent ≤ l.indent) (key : List Char) :
    ((List.range j).countP fun i => (keyAt lines i).any fun l =>
        decide (l.indent = indent ∧ l.key = key ∧ StaysOpen lines indent i (j + 1)))
      = timesInScope lines indent key j := by
  refine List.countP_congr fun i hi => ?_
  have hopen : StaysOpen lines indent i (j + 1) ↔ StaysOpen lines indent i j :=
    (staysOpen_succ (List.mem_range.mp hi) lines indent).trans (and_iff_left h)
  simp only [hopen]

/-- A look back counts the lines that have the key in the scope that is open. -/
theorem timesInScope_eq (lines : List (List Char)) (indent : Nat) (key : List Char) (j : Nat) :
    timesInScope lines indent key j = timesMet indent key (lines.take j).reverse := by
  induction j with
  | zero => rfl
  | succ j ih =>
    rw [timesMet_take_succ, ← ih, timesInScope, List.range_succ, List.countP_append,
      List.countP_singleton]
    cases hkey : keyAt lines j with
    | none =>
      rw [countP_staysOpen_succ (by simp [hkey])]
      simp
    | some l =>
      simp only [Option.any_some, Option.elim_some, decide_eq_true_eq]
      by_cases hless : l.indent < indent
      · -- the scope is closed here, whatever was in it
        have hclosed : ∀ i ∈ List.range j, ¬StaysOpen lines indent i (j + 1) := by
          intro i hi hopen
          have hdeep := ((staysOpen_succ (List.mem_range.mp hi) lines indent).mp hopen).2 l hkey
          omega
        rw [if_pos hless, if_neg (by omega), List.countP_eq_zero.mpr]
        intro i hi
        simp [hclosed i hi]
      · rw [if_neg hless, countP_staysOpen_succ (by simpa [hkey] using hless), Nat.add_comm]
        congr 1
        refine if_congr ?_ rfl rfl
        constructor
        · exact fun h => ⟨h.1, h.2.1⟩
        · exact fun h => ⟨h.1, h.2, staysOpen_self_succ lines hkey h.1⟩

/-- A key that comes again in its scope comes later in the count. -/
theorem timesInScope_lt {lines : List (List Char)} {indent i j : Nat} {l : KeyedLine} (hij : i < j)
    (h : keyAt lines i = some l) (hindent : l.indent = indent) (hopen : StaysOpen lines indent i j) :
    timesInScope lines indent l.key i < timesInScope lines indent l.key j := by
  have hsublist : (List.range (i + 1)).Sublist (List.range j) := List.range_sublist.mpr hij
  refine Nat.lt_of_lt_of_le ?_ hsublist.countP_le
  rw [List.range_succ, List.countP_append, List.countP_singleton, h]
  simp only [Option.any_some, hindent, hopen, and_self, decide_true, if_true]
  refine Nat.lt_succ_of_le (List.countP_mono_left fun k _ hmet => ?_)
  -- what the scope had at the first line it still has at the second
  rw [Option.any_eq_true] at hmet ⊢
  obtain ⟨m, hm, hfound⟩ := hmet
  obtain ⟨hsame, hkey, hbefore⟩ := of_decide_eq_true hfound
  exact ⟨m, hm, decide_eq_true ⟨hsame, hkey, hbefore.trans hopen⟩⟩

/-! ## Names that are written -/

/-- The characters of a key that a content begins with, without the spaces at the end. -/
theorem isBare_key (content : List Char) :
    IsBare ((content.takeWhile KeyedLine.inKey).reverse.dropWhile (· == ' ')).reverse := by
  intro c hc
  have hword := (List.dropWhile_suffix _).subset (List.mem_reverse.mp hc)
  exact List.mem_takeWhile_imp (List.mem_reverse.mp hword)

theorem getLast?_key (content : List Char) :
    ((content.takeWhile KeyedLine.inKey).reverse.dropWhile (· == ' ')).reverse.getLast? ≠ some ' ' := by
  rw [List.getLast?_reverse]
  intro hlast
  have hother := List.head?_dropWhile_not (· == ' ') (content.takeWhile KeyedLine.inKey).reverse
  rw [hlast] at hother
  cases hother

/-- The key of a line is bare and has no blanks around it, and its colon stands behind blanks. -/
theorem exists_of_read? {line : List Char} {l : KeyedLine} (h : KeyedLine.read? line = some l) :
    IsBare l.key ∧ Text.IsTrimmed l.key ∧ l.key ≠ []
      ∧ ∃ gap value, l.rest = gap ++ ':' :: value ∧ ∀ c ∈ gap, Text.isBlank c = true := by
  obtain ⟨-, -, first, hfirst, hstarts⟩ := KeyedLine.read?_eq_some h
  have hne : l.key ≠ [] := by
    intro hnil
    rw [hnil] at hfirst
    cases hfirst
  have hstart : ∀ c ∈ l.key.head?, KeyedLine.startsKey c = true := fun c hc => by
    rwa [Option.mem_unique hc hfirst]
  rw [KeyedLine.read?] at h
  split at h
  · next c value hhead hvalue =>
    split at h
    · have hl := Option.some.inj h
      have hkey : IsBare l.key ∧ l.key.getLast? ≠ some ' ' := by
        rw [← hl]
        exact ⟨isBare_key _, getLast?_key _⟩
      have hcolon : l.rest.dropWhile Text.isBlank = ':' :: value := by
        rw [← hl]
        exact hvalue
      refine ⟨hkey.1, hkey.1.isTrimmed hstart hkey.2, hne, l.rest.takeWhile Text.isBlank, value, ?_,
        fun c hc => List.mem_takeWhile_imp hc⟩
      rw [← hcolon, List.takeWhile_append_dropWhile]
    · cases h
  · cases h

/-- The name that a line is written under: what stands before its first colon, without the blanks
around it. -/
def writtenName (line : List Char) : List Char := Text.trim (line.takeWhile (· != ':'))

theorem writtenName_append {name : List Char} (htrimmed : Text.IsTrimmed name) (hne : name ≠ [])
    (hcolon : ':' ∉ name) {before behind : List Char} (hbefore : ∀ c ∈ before, Text.isBlank c = true)
    (hbehind : ∀ c ∈ behind, Text.isBlank c = true) (value : List Char) :
    writtenName (before ++ (name ++ (behind ++ ':' :: value))) = name := by
  have hother : ':' ∉ before ++ (name ++ behind) := by
    rw [List.mem_append, List.mem_append]
    rintro (hc | hc | hc)
    · cases hbefore _ hc
    · exact hcolon hc
    · cases hbehind _ hc
  have hline : before ++ (name ++ (behind ++ ':' :: value))
      = (before ++ (name ++ behind)) ++ ':' :: value := by simp
  rw [writtenName, hline, List.takeWhile_append_of_pos (Text.bne_of_notMem hother),
    List.takeWhile_cons_of_neg (by decide), List.append_nil]
  exact htrimmed.trim_append hne hbefore hbehind

/-- A carriage return at the end of a line is not in its name. -/
theorem writtenName_concat (line : List Char) : writtenName (line ++ ['\r']) = writtenName line := by
  rw [writtenName, List.takeWhile_append, writtenName]
  split
  · next hall =>
    have hreturn : ['\r'].takeWhile (· != ':') = ['\r'] := rfl
    rw [hreturn, Text.trim_concat rfl, (List.takeWhile_prefix _).eq_of_length hall]
  · rfl

/-- A name tells the key and how often it came before. -/
theorem repeatName_inj {key other : List Char} (hkey : repeatMark ∉ key) (hother : repeatMark ∉ other)
    {count count' : Nat} (h : repeatName key count = repeatName other count') :
    key = other ∧ count = count' := by
  have hfront : ∀ {text : List Char}, repeatMark ∉ text → ∀ n,
      (repeatName text n).takeWhile (· != repeatMark) = text := by
    intro text htext n
    have hbefore := Text.bne_of_notMem htext
    rw [repeatName]
    split
    · exact List.takeWhile_eq_self_iff.mpr hbefore
    · rw [List.takeWhile_append_of_pos hbefore, List.takeWhile_cons_of_neg (by decide),
        List.append_nil]
  obtain rfl : key = other := by rw [← hfront hkey count, h, hfront hother]
  refine ⟨rfl, ?_⟩
  by_cases hzero : count' = 0
  · rw [hzero] at h ⊢
    exact (repeatName_eq_self_iff key count).mp h
  · rw [repeatName, repeatName, if_neg hzero] at h
    split at h
    · simp at h
    · have hdigits := (List.cons.inj (List.append_cancel_left h)).2
      rw [← @Nat.ofDigitChars_toDigits 10 count (by decide) (by decide), hdigits,
        Nat.ofDigitChars_toDigits (by decide) (by decide)]

theorem repeatMark_notMem {line : List Char} {l : KeyedLine} (h : KeyedLine.read? line = some l) :
    repeatMark ∉ l.key := by
  intro hmem
  cases (exists_of_read? h).1 _ hmem

/-- A line with a key is written under the name that its number gives. -/
theorem writtenName_clarifiedKey {line : List Char} {l : KeyedLine} (h : KeyedLine.read? line = some l)
    (before : List (List Char)) :
    writtenName (clarifiedKey before l) = repeatName l.key (timesMet l.indent l.key before) := by
  obtain ⟨hbare, htrimmed, hne, gap, value, hrest, hgap⟩ := exists_of_read? h
  have hindentation : ∀ c ∈ l.indentation, Text.isBlank c = true := by
    rw [(KeyedLine.read?_eq_some h).1]
    exact fun c hc => List.mem_takeWhile_imp hc
  have hcolon : ∀ n, ':' ∉ repeatName l.key n := by
    intro n hmem
    rcases mem_repeatName hmem with hkey | ⟨hmark | hdigit, -⟩
    · cases hbare _ hkey
    · cases hmark
    · cases hdigit
  have hname : ∀ n, repeatName l.key n ≠ [] := by
    intro n
    obtain ⟨more, hmore⟩ := exists_repeatName l.key n
    rw [hmore]
    simp [hne]
  have hwritten : ∀ {n gap value}, (∀ c ∈ gap, Text.isBlank c = true) →
      writtenName (l.indentation ++ repeatName l.key n ++ (gap ++ ':' :: value))
        = repeatName l.key n := by
    intro n gap value hgap
    rw [List.append_assoc]
    exact writtenName_append (isTrimmed_repeatName htrimmed hne n) (hname n) (hcolon n) hindentation
      hgap value
  rw [clarifiedKey]
  split
  · exact hwritten (List.forall_mem_nil _)
  · rw [hrest]
    exact hwritten hgap

/-! ## What lines keep -/

/-- A line keeps its indentation, and its content begins as it did. -/
theorem exists_clarifiedBehind (before : List (List Char)) (line : List Char) :
    ∃ content, clarifiedBehind before line = line.takeWhile Text.isBlank ++ content
      ∧ content.head? = (line.dropWhile Text.isBlank).head? := by
  rw [clarifiedBehind]
  cases hread : KeyedLine.read? line with
  | some l =>
    obtain ⟨hindentation, hcontent, -⟩ := KeyedLine.read?_eq_some hread
    obtain ⟨-, -, hne, -⟩ := exists_of_read? hread
    have hhead : ∀ n rest, (repeatName l.key n ++ rest).head? = (line.dropWhile Text.isBlank).head? := by
      intro n rest
      obtain ⟨more, hmore⟩ := exists_repeatName l.key n
      rw [hmore, List.append_assoc, hcontent, List.head?_append_of_ne_nil _ hne,
        List.head?_append_of_ne_nil _ hne]
    simp only [clarifiedKey, hindentation, List.append_assoc]
    split
    · exact ⟨_, rfl, hhead _ _⟩
    · exact ⟨_, rfl, hhead _ _⟩
  | none =>
    have hsame : line = line.takeWhile Text.isBlank ++ line.dropWhile Text.isBlank :=
      (indentation_append line).symm
    simp only
    split
    · next rest hcontent =>
      rw [hcontent]
      simp only [clarifiedItem]
      split
      · split
        · exact ⟨_, rfl, rfl⟩
        · exact ⟨_, rfl, rfl⟩
      · exact ⟨_, rfl, rfl⟩
    · exact ⟨_, hsame, rfl⟩

theorem takeWhile_clarifiedBehind (before : List (List Char)) (line : List Char) :
    (clarifiedBehind before line).takeWhile Text.isBlank = line.takeWhile Text.isBlank := by
  obtain ⟨content, hline, hhead⟩ := exists_clarifiedBehind before line
  have hfirst : ∀ c ∈ content.head?, Text.isBlank c = false := by
    rw [hhead]
    exact Text.head?_trimStart line
  rw [hline, List.takeWhile_append_of_pos fun c hc => List.mem_takeWhile_imp hc]
  cases content with
  | nil => simp
  | cons c rest => rw [List.takeWhile_cons_of_neg (by simp [hfirst c rfl]), List.append_nil]

theorem clarifiedBehind_ne_nil {line : List Char} (h : line ≠ []) (before : List (List Char)) :
    clarifiedBehind before line ≠ [] := by
  obtain ⟨content, hline, hhead⟩ := exists_clarifiedBehind before line
  rw [hline]
  intro hnil
  obtain ⟨hindentation, rfl⟩ := List.append_eq_nil_iff.mp hnil
  apply h
  rw [← indentation_append line, hindentation, List.head?_eq_none_iff.mp hhead.symm, List.nil_append]

theorem mem_of_mem_quoted {value quoted : List Char} (h : quoted? value = some quoted) {c : Char}
    (hc : c ∈ quoted) : c ∈ value ∨ IsPrintable c := by
  rw [quoted?_eq] at h
  obtain ⟨pattern, hpattern, rfl⟩ := Option.map_eq_some_iff.mp h
  have hquote : c = '\'' ∨ c ∈ pattern := by
    rw [quote, List.mem_append, List.mem_cons, List.mem_flatMap, List.mem_singleton] at hc
    rcases hc with (rfl | ⟨d, hd, hc⟩) | rfl
    · exact .inl rfl
    · split at hc
      · next hsingle => exact .inl (by simpa using hc)
      · exact .inr (List.mem_singleton.mp hc ▸ hd)
    · exact .inl rfl
  rcases hquote with rfl | hmem
  · exact .inr ⟨by decide, by decide⟩
  · exact .inl (mem_of_mem_pattern hpattern hmem)

/-- A line with a key is written with the characters that it had, and visible ones. -/
theorem mem_of_mem_clarifiedKey {line : List Char} {l : KeyedLine} (hread : KeyedLine.read? line = some l)
    {before : List (List Char)} {c : Char} (h : c ∈ clarifiedKey before l) : c ∈ line ∨ IsPrintable c := by
  obtain ⟨hindentation, hcontent, -⟩ := KeyedLine.read?_eq_some hread
  have hline : line = l.indentation ++ (l.key ++ l.rest) := by
    rw [hindentation, ← hcontent, indentation_append]
  have hname : ∀ n, c ∈ l.indentation ++ repeatName l.key n → c ∈ line ∨ IsPrintable c := by
    intro n hc
    rw [hline]
    rcases List.mem_append.mp hc with hc | hc
    · exact .inl (List.mem_append_left _ hc)
    · exact (mem_repeatName hc).imp (fun hkey => by simp [hkey]) fun hnumber => hnumber.2
  simp only [clarifiedKey] at h
  split at h
  · next quoted hquoted =>
    split at hquoted
    · rw [List.mem_append, List.mem_cons, List.mem_cons] at h
      rcases h with hc | rfl | rfl | hc
      · exact hname _ hc
      · exact .inr ⟨by decide, by decide⟩
      · exact .inr ⟨by decide, by decide⟩
      · refine (mem_of_mem_quoted hquoted hc).imp_left fun hvalue => ?_
        rw [KeyedLine.value] at hvalue
        have hrest := (List.dropWhile_suffix _).subset (List.mem_of_mem_drop hvalue)
        rw [hline]
        simp [hrest]
    · cases hquoted
  · rcases List.mem_append.mp h with hc | hc
    · exact hname _ hc
    · rw [hline]
      simp [hc]

theorem mem_of_mem_clarifiedItem {before : List (List Char)} {indentation rest : List Char} {c : Char}
    (h : c ∈ clarifiedItem before indentation rest) :
    c ∈ indentation ++ '-' :: rest ∨ IsPrintable c := by
  simp only [clarifiedItem] at h
  split at h
  · split at h
    · next quoted hquoted =>
      rw [List.mem_append, List.mem_cons, List.mem_cons] at h
      rcases h with hc | rfl | rfl | hc
      · exact .inl (List.mem_append_left _ hc)
      · exact .inr ⟨by decide, by decide⟩
      · exact .inr ⟨by decide, by decide⟩
      · exact (mem_of_mem_quoted hquoted hc).imp_left fun hrest => by simp [hrest]
    · exact .inl h
  · exact .inl h

/-- Every character of a line was there before, or is visible. -/
theorem mem_of_mem_clarifiedBehind {before : List (List Char)} {line : List Char} {c : Char}
    (h : c ∈ clarifiedBehind before line) : c ∈ line ∨ IsPrintable c := by
  rw [clarifiedBehind] at h
  cases hread : KeyedLine.read? line with
  | some l =>
    rw [hread] at h
    exact mem_of_mem_clarifiedKey hread h
  | none =>
    simp only [hread] at h
    split at h
    · next rest hcontent =>
      have hitem := mem_of_mem_clarifiedItem h
      rwa [← hcontent, indentation_append] at hitem
    · exact .inl h

/-! ## The text -/

theorem feed_notMem_clarifiedBehind {line : List Char} (h : '\n' ∉ line) (before : List (List Char)) :
    '\n' ∉ clarifiedBehind before line := fun hmem =>
  (mem_of_mem_clarifiedBehind hmem).elim h fun hvisible => absurd hvisible.1 (by decide)

theorem feed_notMem_clarifyLines {lines : List (List Char)} (h : ∀ line ∈ lines, '\n' ∉ line) :
    ∀ line ∈ clarifyLines lines, '\n' ∉ line := by
  rw [clarifyLines_eq]
  intro line hline
  obtain ⟨i, hi, rfl⟩ := List.mem_mapIdx.mp hline
  exact feed_notMem_clarifiedBehind (h _ (List.getElem_mem hi)) _

theorem length_clarifyLines (lines : List (List Char)) : (clarifyLines lines).length = lines.length := by
  rw [clarifyLines_eq, List.length_mapIdx]

/-- The lines of a text that is clarified are those that were clarified, but that a carriage return at
the end of one goes into its line ending.  The last line is ended as the last line of the text is. -/
theorem exists_lines_clarify (text : List Char) :
    ∃ front last, clarifyLines (Text.lines text) = front ++ last
      ∧ Text.lines (clarify text) = front.map Text.dropReturn ++ last
      ∧ ((clarify text).getLast? = some '\n' ↔ text.getLast? = some '\n') := by
  obtain ⟨lines, last, rfl, hlines, hlast⟩ := exists_unlines text
  have hfront : ∀ line ∈ clarifyLines (lines.map Text.dropReturn), '\n' ∉ line := by
    refine feed_notMem_clarifyLines fun line hline hmem => ?_
    obtain ⟨ended, hended, rfl⟩ := List.mem_map.mp hline
    exact hlines ended hended ((Text.dropReturn_prefix ended).subset hmem)
  have hsome : clarifyLines (lines.map Text.dropReturn) ≠ [] ↔ lines ≠ [] := by
    rw [← List.length_pos_iff, length_clarifyLines, List.length_map, List.length_pos_iff]
  refine ⟨clarifyLines (lines.map Text.dropReturn),
    clarifiedLines (lines.map Text.dropReturn).reverse (Text.lines last), ?_, ?_⟩
  · rw [lines_unlines_append hlines, clarifyLines_eq_clarifiedLines, clarifyLines_eq_clarifiedLines,
      clarifiedLines_append, List.append_nil]
  · rw [getLast?_unlines_append hlast]
    by_cases hnil : last = []
    · -- every line is ended
      have hwritten : clarify (unlines lines ++ last)
          = unlines (clarifyLines (lines.map Text.dropReturn)) ++ [] := by
        rw [hnil, List.append_nil, List.append_nil, clarify_ended hlines]
      rw [hwritten, lines_unlines_append hfront, getLast?_unlines_append List.not_mem_nil, hnil,
        Text.lines_nil, hsome]
      exact ⟨rfl, Iff.rfl⟩
    · have hopen := feed_notMem_clarifiedBehind hlast (lines.map Text.dropReturn).reverse
      have hkept := clarifiedBehind_ne_nil hnil (lines.map Text.dropReturn).reverse
      rw [clarify_open hlines hlast hnil, lines_unlines_append hfront, getLast?_unlines_append hopen,
        Text.lines_of_notMem hkept hopen, Text.lines_of_notMem hnil hlast]
      exact ⟨rfl, by simp [hkept, hnil]⟩

/-- The name that the line of a text at a place is written under. -/
def nameAt (text : List Char) (i : Nat) : Option (List Char) :=
  (Text.lines (clarify text))[i]?.map writtenName

/-- A line that was clarified stands in the text, perhaps without a carriage return. -/
theorem exists_line_clarify {text line : List Char} {i : Nat}
    (h : (Text.lines text)[i]? = some line) :
    ∃ written, (Text.lines (clarify text))[i]? = some written
      ∧ (clarifiedBehind ((Text.lines text).take i).reverse line = written
        ∨ clarifiedBehind ((Text.lines text).take i).reverse line = written ++ ['\r']) := by
  obtain ⟨front, last, hlines, hwritten, -⟩ := exists_lines_clarify text
  have hline : (front ++ last)[i]? = some (clarifiedBehind ((Text.lines text).take i).reverse line) := by
    rw [← hlines, clarifyLines_eq, List.getElem?_mapIdx, h]
    rfl
  rw [hwritten]
  rcases Nat.lt_or_ge i front.length with hi | hi
  · rw [List.getElem?_append_left hi] at hline
    rw [List.getElem?_append_left (by rwa [List.length_map]), List.getElem?_map, hline]
    exact ⟨_, rfl, Text.eq_dropReturn_or _⟩
  · rw [List.getElem?_append_right hi] at hline
    rw [List.getElem?_append_right (by rwa [List.length_map]), List.length_map, hline]
    exact ⟨_, rfl, .inl rfl⟩

/-- A key is written under a name that tells the key and how often its scope had it before. -/
theorem nameAt_eq {text : List Char} {i : Nat} {l : KeyedLine}
    (h : keyAt (Text.lines text) i = some l) :
    nameAt text i = some (repeatName l.key (timesInScope (Text.lines text) l.indent l.key i)) := by
  obtain ⟨line, hline, hread⟩ := Option.bind_eq_some_iff.mp h
  obtain ⟨written, hwritten, hsame⟩ := exists_line_clarify hline
  have hname : writtenName written
      = writtenName (clarifiedBehind ((Text.lines text).take i).reverse line) := by
    rcases hsame with hsame | hsame
    · rw [hsame]
    · rw [hsame, writtenName_concat]
  rw [nameAt, hwritten, Option.map_some, hname, clarifiedBehind, hread, timesInScope_eq]
  exact congrArg some (writtenName_clarifiedKey hread _)

theorem timesInScope_le (lines : List (List Char)) (indent : Nat) (key : List Char) (j : Nat) :
    timesInScope lines indent key j ≤ j := List.countP_le_length.trans_eq List.length_range

/-- The key and how often it came are read back from the name, if the text is not longer than numbers
go. -/
theorem readRepeat_nameAt {text : List Char} (hlong : text.length < 2 ^ 64) {i : Nat} {l : KeyedLine}
    (h : keyAt (Text.lines text) i = some l) :
    (nameAt text i).map readRepeat
      = some (l.key, timesInScope (Text.lines text) l.indent l.key i) := by
  obtain ⟨line, hline, hread⟩ := Option.bind_eq_some_iff.mp h
  have hcount : timesInScope (Text.lines text) l.indent l.key i < 2 ^ 64 := by
    have hi := (List.getElem?_eq_some_iff.mp hline).1
    have htimes := timesInScope_le (Text.lines text) l.indent l.key i
    have hlength := Text.length_lines_le text
    omega
  rw [nameAt_eq h, Option.map_some, readRepeat_repeatName (repeatMark_notMem hread) hcount]

/-- Two keys of a scope are written under two names. -/
theorem nameAt_ne {text : List Char} {i j : Nat} {l m : KeyedLine} (hij : i < j)
    (hl : keyAt (Text.lines text) i = some l) (hm : keyAt (Text.lines text) j = some m)
    (hindent : l.indent = m.indent) (hopen : StaysOpen (Text.lines text) m.indent i j) :
    nameAt text i ≠ nameAt text j := by
  obtain ⟨line, -, hread⟩ := Option.bind_eq_some_iff.mp hl
  obtain ⟨other, -, hother⟩ := Option.bind_eq_some_iff.mp hm
  rw [nameAt_eq hl, nameAt_eq hm]
  intro hsame
  obtain ⟨hkey, htimes⟩ := repeatName_inj (repeatMark_notMem hread) (repeatMark_notMem hother)
    (Option.some.inj hsame)
  -- the first of the two lines counts for the second
  have hless := timesInScope_lt hij hl hindent hopen
  rw [hindent, hkey] at htimes
  rw [hkey] at hless
  omega

/-- Clarifying a text keeps its lines, each with its indentation, and the end of the last.  A key is
written under a name from which the key is read back, and how often it came in its scope before; the
names of two keys are different for as long as the scope of the first is open. -/
theorem clarify_separates_keys (text : List Char) :
    (Text.lines (clarify text)).length = (Text.lines text).length
      ∧ ((clarify text).getLast? = some '\n' ↔ text.getLast? = some '\n')
      ∧ (∀ (i : Nat) (line : List Char), (Text.lines text)[i]? = some line →
        ∃ written ending, (Text.lines (clarify text))[i]? = some written
          ∧ (ending = [] ∨ ending = ['\r'])
          ∧ (written ++ ending).takeWhile Text.isBlank = line.takeWhile Text.isBlank)
      ∧ (∀ i l, keyAt (Text.lines text) i = some l →
        nameAt text i = some (repeatName l.key (timesInScope (Text.lines text) l.indent l.key i))
          ∧ (text.length < 2 ^ 64 → (nameAt text i).map readRepeat
            = some (l.key, timesInScope (Text.lines text) l.indent l.key i)))
      ∧ ∀ i j l m, i < j → keyAt (Text.lines text) i = some l → keyAt (Text.lines text) j = some m →
        l.indent = m.indent → StaysOpen (Text.lines text) m.indent i j →
        nameAt text i ≠ nameAt text j := by
  obtain ⟨front, last, hlines, hwritten, hfeed⟩ := exists_lines_clarify text
  refine ⟨?_, hfeed, ?_, fun i l hkey => ⟨nameAt_eq hkey, fun hlong => readRepeat_nameAt hlong hkey⟩,
    fun i j l m hij hl hm hindent hopen => nameAt_ne hij hl hm hindent hopen⟩
  · rw [hwritten, List.length_append, List.length_map, ← List.length_append, ← hlines,
      length_clarifyLines]
  · intro i line hline
    obtain ⟨written, hfound, hsame⟩ := exists_line_clarify hline
    have hindentation := takeWhile_clarifiedBehind ((Text.lines text).take i).reverse line
    rcases hsame with hsame | hsame
    · exact ⟨written, [], hfound, .inl rfl, by rw [List.append_nil, ← hsame, hindentation]⟩
    · exact ⟨written, ['\r'], hfound, .inr rfl, by rw [← hsame, hindentation]⟩

/-- The piano that comes twice in the verse is told from itself, and the piano of the chorus has its
own scope. -/
theorem clarify_separates_keys_of_two_sections :
    let lines := ["sections:", "  verse:", "    piano: C4", "    piano: E4", "  chorus:", "    piano: G4"]
    let text := unlines (lines.map String.toList)
    let piano (pattern : String) : KeyedLine := ⟨"    ".toList, "piano".toList, pattern.toList⟩
    keyAt (Text.lines text) 2 = some (piano ": C4") ∧ keyAt (Text.lines text) 3 = some (piano ": E4")
      ∧ StaysOpen (Text.lines text) (piano ": E4").indent 2 3 ∧ nameAt text 2 ≠ nameAt text 3
      ∧ (nameAt text 3).map readRepeat = some ("piano".toList, 1)
      ∧ (nameAt text 5).map readRepeat = some ("piano".toList, 0) := by
  intro lines text piano
  have hplain : (lines.map String.toList).all (fun line => line.all fun c => !isBreak c) = true := by
    decide +kernel
  have hlines : Text.lines text = lines.map String.toList := lines_unlines (by simpa using hplain)
  have hfirst : keyAt (Text.lines text) 2 = some (piano ": C4") := by
    rw [hlines]
    decide +kernel
  have hsecond : keyAt (Text.lines text) 3 = some (piano ": E4") := by
    rw [hlines]
    decide +kernel
  have hother : keyAt (Text.lines text) 5 = some (piano ": G4") := by
    rw [hlines]
    decide +kernel
  have hopen : StaysOpen (Text.lines text) (piano ": E4").indent 2 3 := by
    rw [hlines]
    decide +kernel
  have hagain : timesInScope (Text.lines text) (piano ": E4").indent "piano".toList 3 = 1 := by
    rw [hlines]
    decide +kernel
  have hnew : timesInScope (Text.lines text) (piano ": G4").indent "piano".toList 5 = 0 := by
    rw [hlines]
    decide +kernel
  have hlong : text.length < 2 ^ 64 := by decide +kernel
  have hindent : (piano ": C4").indent = (piano ": E4").indent := by decide +kernel
  obtain ⟨-, -, -, hnames, hapart⟩ := clarify_separates_keys text
  refine ⟨hfirst, hsecond, hopen, hapart 2 3 _ _ (by decide) hfirst hsecond hindent hopen, ?_, ?_⟩
  · rw [← hagain]
    exact (hnames 3 _ hsecond).2 hlong
  · rw [← hnew]
    exact (hnames 5 _ hother).2 hlong

end Stave.Song
