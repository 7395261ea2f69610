import Stave.Proofs.Song.Names

/-!
# Sections as they are written

Sections are written below one key: two spaces before the name of a section, four before an instrument,
whose pattern follows on its line or whose patterns stand below, each behind a dash.  Clarifying such a
text renames the repeats of an instrument and puts every pattern in quotes, and does nothing else.
-/

namespace Stave.Song

open Yaml

/-! ## The text -/

/-- How the patterns of an instrument are written. -/
inductive Sheet
  /-- A pattern on the line of the instrument. -/
  | inline (pattern : List Char)
  /-- A list of patterns below it, one at least. -/
  | list (first : List Char) (rest : List (List Char))
deriving DecidableEq, Repr

namespace Sheet

def patterns : Sheet → List (List Char)
  | inline pattern => [pattern]
  | list first rest => first :: rest

/-- The sheet with every pattern written otherwise. -/
def map (write : List Char → List Char) : Sheet → Sheet
  | inline pattern => inline (write pattern)
  | list first rest => list (write first) (rest.map write)

end Sheet

/-- What an instrument plays in a section, as it is written. -/
structure WrittenPart where
  instrument : List Char
  sheet : Sheet
deriving DecidableEq, Repr

/-- A section as it is written, with one part at least. -/
structure WrittenSection where
  name : List Char
  first : WrittenPart
  rest : List WrittenPart
deriving DecidableEq, Repr

/-- The line of an item. -/
def itemLine (pattern : List Char) : List Char := List.replicate 6 ' ' ++ '-' :: ' ' :: pattern

def WrittenPart.lines : WrittenPart → List (List Char)
  | ⟨instrument, .inline pattern⟩ =>
    [List.replicate 4 ' ' ++ (instrument ++ ':' :: ' ' :: pattern)]
  | ⟨instrument, .list first rest⟩ =>
    (List.replicate 4 ' ' ++ (instrument ++ [':'])) :: (first :: rest).map itemLine

namespace WrittenSection

def parts (s : WrittenSection) : List WrittenPart := s.first :: s.rest

def lines (s : WrittenSection) : List (List Char) :=
  (List.replicate 2 ' ' ++ (s.name ++ [':'])) :: s.parts.flatMap WrittenPart.lines

end WrittenSection

/-- The lines of a document that holds nothing but sections. -/
def writtenLines (sections : List WrittenSection) : List (List Char) :=
  (sectionsKey ++ [':']) :: sections.flatMap WrittenSection.lines

/-- A document that holds nothing but sections. -/
def writtenText (sections : List WrittenSection) : List Char := unlines (writtenLines sections)

/-! ## What may be written -/

/-- A pattern that can be written without quotes: on one line and with characters that a document may
contain, it neither begins nor ends with a blank, begins neither with a quote nor with the mark of a
block, and has no hash sign at its start or behind a blank. -/
structure IsPattern (pattern : List Char) : Prop where
  ne_nil : pattern ≠ []
  trimmed : Text.IsTrimmed pattern
  allowed : ∀ c ∈ pattern, isAllowed c = true
  oneLine : ∀ c ∈ pattern, isBreak c = false
  uncommented : (' ' :: pattern).IsChain fun before c => c = '#' → Text.isBlank before = false
  unmarked : ∀ c ∈ pattern.head?, c ∉ "\"'|>".toList

structure WrittenPart.IsValid (p : WrittenPart) : Prop where
  instrument : IsName p.instrument
  patterns : ∀ pattern ∈ p.sheet.patterns, IsPattern pattern

structure WrittenSection.IsValid (s : WrittenSection) : Prop where
  name : IsName s.name
  parts : ∀ p ∈ s.parts, p.IsValid

instance (pattern : List Char) : Decidable (IsPattern pattern) :=
  decidable_of_iff (pattern ≠ [] ∧ Text.IsTrimmed pattern ∧ pattern.all isAllowed = true
      ∧ pattern.all (fun c => !isBreak c) = true
      ∧ (' ' :: pattern).IsChain (fun before c => c = '#' → Text.isBlank before = false)
      ∧ pattern.head?.all (fun c => !"\"'|>".toList.contains c) = true) <| by
    simp only [Option.all_eq_true, List.all_eq_true, Bool.not_eq_true', List.contains_eq_mem,
      decide_eq_false_iff_not]
    exact ⟨fun ⟨ne_nil, trimmed, allowed, oneLine, uncommented, unmarked⟩ =>
        ⟨ne_nil, trimmed, allowed, oneLine, uncommented, unmarked⟩,
      fun h => ⟨h.ne_nil, h.trimmed, h.allowed, h.oneLine, h.uncommented, h.unmarked⟩⟩

instance (p : WrittenPart) : Decidable p.IsValid :=
  decidable_of_iff (IsName p.instrument ∧ ∀ pattern ∈ p.sheet.patterns, IsPattern pattern)
    ⟨fun ⟨instrument, patterns⟩ => ⟨instrument, patterns⟩, fun h => ⟨h.instrument, h.patterns⟩⟩

instance (s : WrittenSection) : Decidable s.IsValid :=
  decidable_of_iff (IsName s.name ∧ ∀ p ∈ s.parts, p.IsValid)
    ⟨fun ⟨name, parts⟩ => ⟨name, parts⟩, fun h => ⟨h.name, h.parts⟩⟩

/-! ## Patterns -/

theorem go_of_isChain {before : Char} {text : List Char}
    (h : (before :: text).IsChain fun before c => c = '#' → Text.isBlank before = false)
    (done : List Char) :
    beforeComment.go (Text.isBlank before) done text = done.reverse ++ text := by
  induction text generalizing before done with
  | nil => rw [beforeComment.go, List.append_nil]
  | cons c rest ih =>
    rw [List.isChain_cons_cons] at h
    have hgoes : ¬(c == '#' && Text.isBlank before) = true := by
      rw [Bool.and_eq_true, beq_iff_eq]
      rintro ⟨hhash, hblank⟩
      rw [h.1 hhash] at hblank
      cases hblank
    rw [beforeComment.go, if_neg hgoes, ih h.2]
    simp

/-- A pattern is found as it was written. -/
theorem IsPattern.pattern?_eq {pattern : List Char} (h : IsPattern pattern) :
    pattern? (' ' :: pattern) = some pattern := by
  have hbefore : beforeComment (' ' :: pattern) = ' ' :: pattern := by
    have hgo := go_of_isChain h.uncommented [' ']
    exact hgo
  obtain ⟨c, rest, rfl⟩ := List.exists_cons_of_ne_nil h.ne_nil
  have htrim : Text.trim (' ' :: c :: rest) = c :: rest := by
    have hspace : Text.isBlank ' ' = true := rfl
    have hstart : Text.trimStart (' ' :: c :: rest) = Text.trimStart (c :: rest) :=
      List.dropWhile_cons_of_pos hspace
    rw [Text.trim, hstart]
    exact h.trimmed.trim_eq
  have hmark := h.unmarked c rfl
  rw [pattern?, hbefore, htrim]
  exact if_neg (by rwa [List.contains_iff_mem])

theorem IsPattern.isQuotable {pattern : List Char} (h : IsPattern pattern) :
    IsQuotable false pattern := ⟨h.oneLine, h.allowed, fun hdouble => by cases hdouble⟩

/-! ## Items -/

/-- An item without a comment. -/
def itemOf (value : Inline) : Item := ⟨value, .bare⟩

theorem flatMap_itemOf (values : List Inline) :
    (values.map itemOf).flatMap (Item.lines 6) = values.map fun v => itemLine v.written := by
  rw [List.flatMap_map, ← List.flatMap_singleton' (values.map _), List.flatMap_map]
  congr 1
  funext v
  simp [itemOf, Item.lines, Item.line, itemLine, Gap.bare, Gap.below, Remark.text]

theorem IsPattern.clarifiedItemOf_plain {pattern : List Char} (h : IsPattern pattern) :
    clarifiedItemOf true (itemOf (.plain pattern)) = itemOf (.quoted false pattern) := by
  have hpattern : pattern? (' ' :: ((Inline.plain pattern).written ++ Gap.bare.ending.text))
      = some pattern := by
    simpa [Inline.written, Gap.bare, Remark.text] using h.pattern?_eq
  simp only [clarifiedItemOf, itemOf, requoted, if_true, hpattern]
  rfl

theorem read?_itemLine (pattern : List Char) : KeyedLine.read? (itemLine pattern) = none := by
  have hitem := read?_item 6 (itemOf (.plain pattern))
  rwa [Item.line, show (itemOf (.plain pattern)).value.written ++ (itemOf
    (.plain pattern)).gap.ending.text = pattern from List.append_nil pattern] at hitem

/-- The items of an instrument, clarified. -/
theorem clarifiedLines_itemLines {before : List (List Char)} (hbefore : inPatterns 6 before = true)
    {patterns : List (List Char)} (h : ∀ pattern ∈ patterns, IsPattern pattern) :
    clarifiedLines before (patterns.map itemLine) = (patterns.map quote).map itemLine := by
  have hplain : patterns.map itemLine
      = ((patterns.map Inline.plain).map itemOf).flatMap (Item.lines 6) := by
    rw [flatMap_itemOf, List.map_map]
    rfl
  have hquoted : ((patterns.map Inline.plain).map itemOf).map (clarifiedItemOf true)
      = (patterns.map (Inline.quoted false)).map itemOf := by
    rw [List.map_map, List.map_map, List.map_map]
    exact List.map_congr_left fun pattern hpattern => (h pattern hpattern).clarifiedItemOf_plain
  rw [hplain, clarifiedLines_items hbefore, hquoted, flatMap_itemOf, List.map_map, List.map_map]
  exact List.map_congr_left fun pattern _ => congrArg itemLine (quote_eq_written pattern).symm

/-! ## Clarified sections -/

/-- The part with its instrument renamed by how often it was seen. -/
def WrittenPart.renamed (seen : List (List Char)) (p : WrittenPart) : WrittenPart :=
  { p with instrument := repeatName p.instrument (seen.count p.instrument) }

/-- The part with its patterns in quotes. -/
def WrittenPart.quoted (p : WrittenPart) : WrittenPart := { p with sheet := p.sheet.map quote }

/-- Parts, each renamed by how often its instrument was seen before. -/
def renamedParts (seen : List (List Char)) : List WrittenPart → List WrittenPart
  | [] => []
  | p :: rest => p.renamed seen :: renamedParts (p.instrument :: seen) rest

namespace WrittenSection

def renamed (s : WrittenSection) : WrittenSection :=
  ⟨s.name, s.first.renamed [], renamedParts [s.first.instrument] s.rest⟩

def quoted (s : WrittenSection) : WrittenSection :=
  ⟨s.name, s.first.quoted, s.rest.map WrittenPart.quoted⟩

theorem parts_renamed (s : WrittenSection) : s.renamed.parts = renamedParts [] s.parts := rfl

theorem parts_quoted (s : WrittenSection) : s.quoted.parts = s.parts.map WrittenPart.quoted := rfl

end WrittenSection

/-! ## Line by line -/

section Names

variable {name value : List Char} (hname : IsName name)
  (hvalue : value.head?.all Text.isBlank = true)

include hname hvalue

theorem IsName.read?_line (indent : Nat) :
    KeyedLine.read? (List.replicate indent ' ' ++ (name ++ ':' :: value))
      = some ⟨List.replicate indent ' ', name, ':' :: value⟩ :=
  read?_keyLine hname.isKey hname.bare indent hvalue

/-- The line of a name is renamed by how often the name was seen. -/
theorem IsName.clarifiedBehind_line {indent : Nat} {path seen before : List (List Char)}
    (h : Stands indent path seen before) :
    clarifiedBehind before (List.replicate indent ' ' ++ (name ++ ':' :: value))
      = List.replicate indent ' ' ++ (repeatName name (seen.count name)
        ++ ':' :: clarifiedValue (isSection path) value) := by
  simp only [clarifiedBehind, hname.read?_line hvalue]
  rw [clarifiedKey_eq, h.timesMet_eq, h.around_eq]

theorem IsName.stands_line {indent : Nat} {path seen before : List (List Char)}
    (h : Stands indent path seen before) :
    Stands indent path (name :: seen)
      ((List.replicate indent ' ' ++ (name ++ ':' :: value)) :: before) :=
  h.key (hname.read?_line hvalue indent) (width_replicate indent)

end Names

theorem indent_replicate (indent : Nat) (key rest : List Char) :
    KeyedLine.indent ⟨List.replicate indent ' ', key, rest⟩ = indent := width_replicate indent

theorem clarifiedValue_nil (inSection : Bool) : clarifiedValue inSection [] = [] :=
  clarifiedValue_remark inSection ⟨0, none⟩

/-- The lines of a part are indented by four columns at least. -/
theorem le_indent_part (p : WrittenPart) :
    ∀ line ∈ p.lines, ∀ l ∈ KeyedLine.read? line, 4 ≤ l.indent := by
  intro line hline l hl
  obtain ⟨instrument, _ | ⟨first, rest⟩⟩ := p
  · rw [List.mem_singleton.mp hline] at hl
    exact le_indent hl
  · rcases List.mem_cons.mp hline with rfl | hitem
    · exact le_indent hl
    · obtain ⟨pattern, -, rfl⟩ := List.mem_map.mp hitem
      rw [read?_itemLine] at hl
      cases hl

section Parts

variable {path seen before : List (List Char)} (hpath : isSection path = true)

include hpath

/-- A part is renamed by how often its instrument was seen, and its patterns are put in quotes. -/
theorem clarifiedLines_part {p : WrittenPart} (hp : p.IsValid) (h : Stands 4 path seen before) :
    clarifiedLines before p.lines = (p.renamed seen).quoted.lines
      ∧ Stands 4 path (p.instrument :: seen) (p.lines.reverse ++ before) := by
  obtain ⟨instrument, pattern | ⟨first, rest⟩⟩ := p
  · have hpattern : IsPattern pattern := hp.patterns pattern List.mem_cons_self
    have hvalue : (' ' :: pattern).head?.all Text.isBlank = true := rfl
    have hquoted : clarifiedValue (isSection path) (' ' :: pattern) = ' ' :: quote pattern := by
      simp [clarifiedValue, hpath, hpattern.pattern?_eq]
    refine ⟨?_, hp.instrument.stands_line hvalue h⟩
    rw [WrittenPart.lines, clarifiedLines, hp.instrument.clarifiedBehind_line hvalue h, hquoted]
    rfl
  · have hinstrument : IsName instrument := hp.instrument
    have hpatterns : ∀ pattern ∈ first :: rest, IsPattern pattern := hp.patterns
    have hvalue : ([] : List Char).head?.all Text.isBlank = true := rfl
    have hline := hinstrument.clarifiedBehind_line hvalue h
    have hitems : inPatterns 6 ((List.replicate 4 ' ' ++ (instrument ++ [':'])) :: before) = true := by
      have hindent := indent_replicate 4 instrument [':']
      rw [inPatterns_key (hinstrument.read?_line hvalue 4) (by omega), hindent, h.around_eq, hpath]
    rw [clarifiedValue_nil] at hline
    constructor
    · rw [WrittenPart.lines, clarifiedLines, hline, clarifiedLines_itemLines hitems hpatterns]
      rfl
    · rw [WrittenPart.lines, List.reverse_cons, List.append_assoc, List.singleton_append]
      apply (hinstrument.stands_line hvalue h).skips
      intro line hmem l hl
      obtain ⟨pattern, -, rfl⟩ := List.mem_map.mp (List.mem_reverse.mp hmem)
      rw [read?_itemLine] at hl
      cases hl

theorem clarifiedLines_parts {parts : List WrittenPart} (hparts : ∀ p ∈ parts, p.IsValid)
    (h : Stands 4 path seen before) :
    clarifiedLines before (parts.flatMap WrittenPart.lines)
      = ((renamedParts seen parts).map WrittenPart.quoted).flatMap WrittenPart.lines := by
  induction parts generalizing seen before with
  | nil => rfl
  | cons p rest ih =>
    obtain ⟨hlines, hnext⟩ := clarifiedLines_part hpath (hparts p List.mem_cons_self) h
    rw [List.flatMap_cons, clarifiedLines_append, hlines,
      ih (fun other hother => hparts other (List.mem_cons_of_mem p hother)) hnext, renamedParts,
      List.map_cons, List.flatMap_cons]

end Parts

/-- A section of a new name keeps it, and its parts are clarified. -/
theorem clarifiedLines_section {s : WrittenSection} (hs : s.IsValid) {seen before : List (List Char)}
    (h : Stands 2 [sectionsKey] seen before) (hnew : s.name ∉ seen) :
    clarifiedLines before s.lines = s.renamed.quoted.lines
      ∧ Stands 2 [sectionsKey] (s.name :: seen) (s.lines.reverse ++ before) := by
  have hvalue : ([] : List Char).head?.all Text.isBlank = true := rfl
  have hread := hs.name.read?_line hvalue 2
  have hline := hs.name.clarifiedBehind_line hvalue h
  have hname : repeatName s.name (seen.count s.name) = s.name := by
    rw [List.count_eq_zero_of_not_mem hnew]
    rfl
  have hwithin : Stands 4 [s.name, sectionsKey] []
      ((List.replicate 2 ' ' ++ (s.name ++ [':'])) :: before) := by
    have hindent := indent_replicate 2 s.name [':']
    have hbelow := @stands_within 4 _ _ hread (by omega) before
    rwa [hindent, h.around_eq] at hbelow
  have hsection : isSection [s.name, sectionsKey] = true := by simp [isSection]
  constructor
  · rw [hname, clarifiedValue_nil] at hline
    rw [WrittenSection.lines, clarifiedLines, hline, clarifiedLines_parts hsection hs.parts hwithin,
      WrittenSection.lines, WrittenSection.parts_quoted, WrittenSection.parts_renamed]
    rfl
  · rw [WrittenSection.lines, List.reverse_cons, List.append_assoc, List.singleton_append]
    apply (hs.name.stands_line hvalue h).skips
    intro line hmem l hl
    obtain ⟨p, -, hpart⟩ := List.mem_flatMap.mp (List.mem_reverse.mp hmem)
    have hindent := le_indent_part p line hpart l hl
    omega

theorem clarifiedLines_sections {sections : List WrittenSection}
    (hsections : ∀ s ∈ sections, s.IsValid) {seen before : List (List Char)}
    (h : Stands 2 [sectionsKey] seen before)
    (hdistinct : (sections.map WrittenSection.name).Nodup)
    (hnew : ∀ s ∈ sections, s.name ∉ seen) :
    clarifiedLines before (sections.flatMap WrittenSection.lines)
      = (sections.map fun s => s.renamed.quoted).flatMap WrittenSection.lines := by
  induction sections generalizing seen before with
  | nil => rfl
  | cons s rest ih =>
    obtain ⟨hother, hrest⟩ := List.nodup_cons.mp hdistinct
    obtain ⟨hlines, hnext⟩ := clarifiedLines_section (hsections s List.mem_cons_self) h
      (hnew s List.mem_cons_self)
    have hfresh : ∀ t ∈ rest, t.name ∉ s.name :: seen := by
      intro t ht hmem
      rcases List.mem_cons.mp hmem with hsame | hseen
      · exact hother (hsame ▸ List.mem_map_of_mem ht)
      · exact hnew t (List.mem_cons_of_mem s ht) hseen
    rw [List.flatMap_cons, clarifiedLines_append, hlines,
      ih (fun t ht => hsections t (List.mem_cons_of_mem s ht)) hnext hrest hfresh, List.map_cons,
      List.flatMap_cons]

/-! ## The whole document -/

theorem isName_sectionsKey : IsName sectionsKey := by decide +kernel

theorem IsName.isBreak_line {name value : List Char} (h : IsName name)
    (hvalue : ∀ c ∈ value, isBreak c = false) (indent : Nat) :
    ∀ c ∈ List.replicate indent ' ' ++ (name ++ ':' :: value), isBreak c = false := by
  have hname : ∀ c ∈ name, isBreak c = false := fun c hc =>
    (isPrintable_of_inKey (h.bare c hc)).isBreak_eq
  exact isBreak_append (isBreak_replicate indent)
    (isBreak_append hname (List.forall_mem_cons.mpr ⟨rfl, hvalue⟩))

theorem WrittenPart.IsValid.isBreak_lines {p : WrittenPart} (h : p.IsValid) :
    ∀ line ∈ p.lines, ∀ c ∈ line, isBreak c = false := by
  intro line hline
  obtain ⟨instrument, pattern | ⟨first, rest⟩⟩ := p
  · have hpattern : IsPattern pattern := h.patterns pattern List.mem_cons_self
    rw [List.mem_singleton.mp hline]
    exact h.instrument.isBreak_line (List.forall_mem_cons.mpr ⟨rfl, hpattern.oneLine⟩) 4
  · rcases List.mem_cons.mp hline with rfl | hitem
    · exact h.instrument.isBreak_line (by simp) 4
    · obtain ⟨pattern, hmem, rfl⟩ := List.mem_map.mp hitem
      exact isBreak_append (isBreak_replicate 6) (List.forall_mem_cons.mpr
        ⟨rfl, List.forall_mem_cons.mpr ⟨rfl, (h.patterns pattern hmem).oneLine⟩⟩)

/-- No line has a break in it. -/
theorem isBreak_writtenLines {sections : List WrittenSection}
    (hsections : ∀ s ∈ sections, s.IsValid) :
    ∀ line ∈ writtenLines sections, ∀ c ∈ line, isBreak c = false := by
  intro line hline
  rcases List.mem_cons.mp hline with rfl | hsection
  · exact isName_sectionsKey.isBreak_line (by simp) 0
  · obtain ⟨s, hs, hline⟩ := List.mem_flatMap.mp hsection
    rcases List.mem_cons.mp hline with rfl | hpart
    · exact (hsections s hs).name.isBreak_line (by simp) 2
    · obtain ⟨p, hp, hline⟩ := List.mem_flatMap.mp hpart
      exact ((hsections s hs).parts p hp).isBreak_lines line hline

/-- A document that holds nothing but sections is clarified section by section. -/
theorem clarify_writtenText {sections : List WrittenSection} (hsections : ∀ s ∈ sections, s.IsValid)
    (hdistinct : (sections.map WrittenSection.name).Nodup) :
    clarify (writtenText sections) = writtenText (sections.map fun s => s.renamed.quoted) := by
  have hvalue : ([] : List Char).head?.all Text.isBlank = true := rfl
  have hfirst := isName_sectionsKey.clarifiedBehind_line hvalue (stands_nil 0)
  have hwithin : Stands 2 [sectionsKey] [] [sectionsKey ++ [':']] :=
    stands_within (isName_sectionsKey.read?_line hvalue 0) (by decide) []
  have hlines : clarifyLines (writtenLines sections)
      = writtenLines (sections.map fun s => s.renamed.quoted) := by
    rw [clarifyLines_eq_clarifiedLines, writtenLines, clarifiedLines,
      clarifiedLines_sections hsections hwithin hdistinct fun s _ => List.not_mem_nil, writtenLines]
    exact congrArg (· :: _) hfirst
  rw [writtenText, clarify_unlines (isBreak_writtenLines hsections), hlines, writtenText]

end Stave.Song
