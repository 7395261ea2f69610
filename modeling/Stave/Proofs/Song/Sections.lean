import Stave.Proofs.Song.Gathered
import Stave.Song.Arrangement

/-!
# Sections are read as they were written

The clarified text of sections is a document in block style whose keys are all different, and from its
value every section is read with the patterns that were written, character by character.
-/

namespace Stave.Song

open Yaml

/-! ## The clarified document -/

namespace Sheet

/-- What an instrument has in the clarified document. -/
def body : Sheet → Body
  | inline pattern => .scalar (some (.quoted false pattern))
  | list first rest =>
    .items 2 (itemOf (.quoted false first)) (rest.map fun pattern => itemOf (.quoted false pattern))

/-- What an instrument has in the value of the document. -/
def value : Sheet → Value
  | inline pattern => .text (String.ofList pattern)
  | list first rest => .sequence ((first :: rest).map fun pattern => .text (String.ofList pattern))

end Sheet

namespace WrittenPart

def body (p : WrittenPart) : Body := p.sheet.body

def value (p : WrittenPart) : Value := p.sheet.value

end WrittenPart

namespace WrittenSection

def body (s : WrittenSection) : Body :=
  .mapping 1 (entriesOf WrittenPart.instrument WrittenPart.body s.first s.rest)

def value (s : WrittenSection) : Value :=
  .mapping (s.parts.map (textEntry WrittenPart.instrument WrittenPart.value))

end WrittenSection

/-- What the key of the sections has in the clarified document. -/
def bodyOfSections : List WrittenSection → Body
  | [] => .scalar none
  | first :: rest => .mapping 1 (entriesOf WrittenSection.name WrittenSection.body first rest)

/-- What the key of the sections has in the value of the document. -/
def valueOfSections : List WrittenSection → Value
  | [] => .null
  | first :: rest =>
    .mapping ((first :: rest).map (textEntry WrittenSection.name WrittenSection.value))

/-- The clarified document. -/
def documentOf (sections : List WrittenSection) : BlockDocument :=
  ⟨[], .last sectionsKey .bare (bodyOfSections sections)⟩

/-! ## Its lines -/

theorem WrittenPart.entryLines_eq (p : WrittenPart) :
    entryLines WrittenPart.instrument WrittenPart.body 4 p = p.quoted.lines := by
  obtain ⟨instrument, pattern | ⟨first, rest⟩⟩ := p
  · simp [entryLines, keyLine, body, Sheet.body, Body.inline, Body.lines, quoted, Sheet.map, lines,
      Gap.bare, Remark.text, quote_eq_written]
  · have hitems := flatMap_itemOf ((first :: rest).map (Inline.quoted false))
    rw [List.map_map, List.map_map] at hitems
    have hquoted : ((first :: rest).map quote).map itemLine
        = (first :: rest).map ((fun v : Inline => itemLine v.written) ∘ Inline.quoted false) := by
      rw [List.map_map]
      exact List.map_congr_left fun pattern _ => congrArg itemLine (quote_eq_written pattern)
    have hkey : keyLine 4 instrument .bare (Sheet.list first rest).body
        = List.replicate 4 ' ' ++ (instrument ++ [':']) := rfl
    rw [entryLines, quoted, Sheet.map, lines, ← List.map_cons, hquoted, ← hitems, ← hkey]
    rfl

theorem WrittenSection.entryLines_eq (s : WrittenSection) :
    entryLines WrittenSection.name WrittenSection.body 2 s = s.quoted.lines := by
  have hparts : s.body.lines 2 = s.quoted.parts.flatMap WrittenPart.lines := by
    rw [body, Body.lines, lines_entriesOf, parts_quoted, List.flatMap_map]
    exact congrArg (List.flatMap · s.parts) (funext WrittenPart.entryLines_eq)
  rw [entryLines, hparts, lines]
  rfl

theorem lines_documentOf (sections : List WrittenSection) :
    (documentOf sections).lines = writtenLines (sections.map WrittenSection.quoted) := by
  have hbody : (bodyOfSections sections).lines 0
      = (sections.map WrittenSection.quoted).flatMap WrittenSection.lines := by
    cases sections with
    | nil => rfl
    | cons first rest =>
      rw [bodyOfSections, Body.lines, lines_entriesOf, List.flatMap_map]
      exact congrArg (List.flatMap · (first :: rest)) (funext WrittenSection.entryLines_eq)
  rw [BlockDocument.lines, documentOf, Entries.lines, hbody, writtenLines]
  cases sections <;> rfl

/-! ## Its validity -/

/-- What renaming ensures of a section. -/
structure WrittenSection.IsRenamed (s : WrittenSection) : Prop where
  key : IsKey s.name
  keyText : keyValue? s.name = some (.text (String.ofList s.name))
  keys : ∀ p ∈ s.parts, IsKey p.instrument
  keyTexts : ∀ p ∈ s.parts, keyValue? p.instrument = some (.text (String.ofList p.instrument))
  distinct : (s.parts.map WrittenPart.instrument).Nodup
  patterns : ∀ p ∈ s.parts, ∀ pattern ∈ p.sheet.patterns, IsPattern pattern

theorem isValid_itemOf {pattern : List Char} (h : IsPattern pattern) :
    (itemOf (.quoted false pattern)).IsValid := ⟨h.isQuotable, Gap.isValid_bare⟩

theorem Sheet.isValid_body {sheet : Sheet} (h : ∀ pattern ∈ sheet.patterns, IsPattern pattern) :
    sheet.body.IsValid := by
  cases sheet with
  | inline pattern =>
    intro v hv
    obtain rfl : Inline.quoted false pattern = v := by simpa using hv
    exact (h pattern List.mem_cons_self).isQuotable
  | list first rest =>
    intro i hi
    rcases List.mem_cons.mp hi with rfl | hi
    · exact isValid_itemOf (h first List.mem_cons_self)
    · obtain ⟨pattern, hpattern, rfl⟩ := List.mem_map.mp hi
      exact isValid_itemOf (h pattern (List.mem_cons_of_mem first hpattern))

theorem isValid_documentOf {sections : List WrittenSection}
    (h : ∀ s ∈ sections, s.IsRenamed) : (documentOf sections).IsValid where
  lead := by simp [documentOf]
  root := by
    have hkey : IsKey sectionsKey := by decide +kernel
    refine ⟨hkey, Gap.isValid_bare, ?_⟩
    cases sections with
    | nil => simp [bodyOfSections, Body.IsValid]
    | cons first rest =>
      refine isValid_entriesOf fun s hs => ⟨(h s hs).key, ?_⟩
      exact isValid_entriesOf fun p hp =>
        ⟨(h s hs).keys p hp, Sheet.isValid_body ((h s hs).patterns p hp)⟩

/-! ## Its value -/

theorem mapM_itemOf (patterns : List (List Char)) :
    (patterns.map fun pattern => itemOf (.quoted false pattern)).mapM
        (fun i : Item => i.value.value?)
      = some (patterns.map fun pattern => Value.text (String.ofList pattern)) := by
  induction patterns with
  | nil => rfl
  | cons pattern rest ih =>
    rw [List.map_cons, List.mapM_cons, ih]
    rfl

theorem Sheet.value?_body (sheet : Sheet) (depth : Nat) :
    sheet.body.value? (depth + 1) = some sheet.value := by
  cases sheet with
  | inline pattern => rfl
  | list first rest =>
    rw [body, Body.value?, ← List.map_cons (f := fun pattern => itemOf (.quoted false pattern)),
      mapM_itemOf]
    rfl

theorem WrittenSection.IsRenamed.value?_body {s : WrittenSection} (h : s.IsRenamed) (depth : Nat) :
    s.body.value? (depth + 2) = some s.value := by
  have hvalue : ∀ p ∈ s.parts, p.body.value? (depth + 1) = some p.value := fun p _ =>
    p.sheet.value?_body depth
  rw [WrittenSection.body, Body.value?, values?_entriesOf h.keyTexts hvalue h.distinct]
  rfl

theorem value?_bodyOfSections {sections : List WrittenSection} (h : ∀ s ∈ sections, s.IsRenamed)
    (hdistinct : (sections.map WrittenSection.name).Nodup) (depth : Nat) :
    (bodyOfSections sections).value? (depth + 3) = some (valueOfSections sections) := by
  cases sections with
  | nil => rfl
  | cons first rest =>
    have hvalue : ∀ s ∈ first :: rest, s.body.value? (depth + 2) = some s.value := fun s hs =>
      (h s hs).value?_body depth
    rw [bodyOfSections, Body.value?,
      values?_entriesOf (fun s hs => (h s hs).keyText) hvalue hdistinct]
    rfl

theorem ofText?_documentOf {sections : List WrittenSection} (h : ∀ s ∈ sections, s.IsRenamed)
    (hdistinct : (sections.map WrittenSection.name).Nodup) :
    Value.ofText? (documentOf sections).text
      = some (.mapping [(.text "sections", valueOfSections sections)]) := by
  have hbody := value?_bodyOfSections h hdistinct 124
  rw [BlockDocument.value_text (isValid_documentOf h), documentOf, Entries.values?,
    keyValue?_sectionsKey, hbody]
  rfl

/-! ## What renaming leaves -/

/-- A renamed part is one of the parts, named by a repeat that comes behind those seen. -/
theorem exists_of_mem_renamedParts {parts : List WrittenPart} {seen : List (List Char)}
    {q : WrittenPart} (h : q ∈ renamedParts seen parts) :
    ∃ p ∈ parts, ∃ count, seen.count p.instrument ≤ count ∧ count < seen.length + parts.length
      ∧ q = { p with instrument := repeatName p.instrument count } := by
  induction parts generalizing seen with
  | nil => cases h
  | cons p rest ih =>
    rcases List.mem_cons.mp h with rfl | hrest
    · have hcount : seen.count p.instrument ≤ seen.length := List.count_le_length
      exact ⟨p, List.mem_cons_self, _, le_rfl, by rw [List.length_cons]; omega, rfl⟩
    · obtain ⟨r, hr, count, hmore, hless, rfl⟩ := ih hrest
      refine ⟨r, List.mem_cons_of_mem p hr, count, ?_, ?_, rfl⟩
      · exact List.count_le_count_cons.trans hmore
      · rw [List.length_cons] at hless ⊢
        omega

/-- Renamed parts have different names. -/
theorem nodup_renamedParts {parts : List WrittenPart} (hparts : ∀ p ∈ parts, p.IsValid)
    {seen : List (List Char)} (hfits : seen.length + parts.length ≤ 2 ^ 64) :
    ((renamedParts seen parts).map WrittenPart.instrument).Nodup := by
  induction parts generalizing seen with
  | nil => exact List.nodup_nil
  | cons p rest ih =>
    rw [List.length_cons] at hfits
    have hrest : ∀ q ∈ rest, q.IsValid := fun q hq => hparts q (List.mem_cons_of_mem p hq)
    refine List.nodup_cons.mpr ⟨fun hmem => ?_, ih hrest (by rw [List.length_cons]; omega)⟩
    obtain ⟨q, hq, hsame⟩ := List.mem_map.mp hmem
    obtain ⟨r, hr, count, hmore, hless, rfl⟩ := exists_of_mem_renamedParts hq
    -- both names are read back, to the same instrument and the same number
    have hseen : seen.count p.instrument ≤ seen.length := List.count_le_length
    have hmark : repeatMark ∉ p.instrument := (hparts p List.mem_cons_self).instrument.notMem rfl
    have hother : repeatMark ∉ r.instrument := (hrest r hr).instrument.notMem rfl
    have hread := congrArg readRepeat hsame
    rw [WrittenPart.renamed, readRepeat_repeatName hother (by rw [List.length_cons] at hless; omega),
      readRepeat_repeatName hmark (by omega), Prod.mk.injEq] at hread
    rw [hread.1, hread.2, List.count_cons_self] at hmore
    omega

theorem WrittenSection.IsValid.isRenamed {s : WrittenSection} (h : s.IsValid)
    (hfits : s.parts.length ≤ 2 ^ 64) : s.renamed.IsRenamed := by
  have hparts : ∀ q ∈ s.renamed.parts, ∃ p ∈ s.parts, ∃ count, count < 2 ^ 64
      ∧ q = { p with instrument := repeatName p.instrument count } := by
    intro q hq
    rw [parts_renamed] at hq
    obtain ⟨p, hp, count, -, hless, hname⟩ := exists_of_mem_renamedParts hq
    exact ⟨p, hp, count, by rw [List.length_nil] at hless; omega, hname⟩
  constructor
  case key => exact h.name.isKey
  case keyText => exact h.name.keyValue?_repeatName 0
  case distinct =>
    exact nodup_renamedParts h.parts (by rwa [List.length_nil, Nat.zero_add])
  case keys =>
    intro q hq
    obtain ⟨p, hp, count, hcount, rfl⟩ := hparts q hq
    exact (h.parts p hp).instrument.isKey_repeatName hcount
  case keyTexts =>
    intro q hq
    obtain ⟨p, hp, count, -, rfl⟩ := hparts q hq
    exact (h.parts p hp).instrument.keyValue?_repeatName count
  case patterns =>
    intro q hq
    obtain ⟨p, hp, count, -, rfl⟩ := hparts q hq
    exact (h.parts p hp).patterns

/-! ## Reading sections -/

/-- What the value of a part says is what was written. -/
theorem Sheet.patternsOf_value (sheet : Sheet) :
    Section.patternsOf sheet.value = sheet.patterns.map String.ofList := by
  cases sheet with
  | inline pattern => rfl
  | list first rest =>
    rw [value, Section.patternsOf, patterns, List.filterMap_map]
    exact congrFun (List.filterMap_eq_map (f := String.ofList)) (first :: rest)

/-- A section is read with its parts gathered. -/
theorem partsOf_renamedParts {parts : List WrittenPart} (hparts : ∀ p ∈ parts, p.IsValid)
    (hfits : parts.length ≤ 2 ^ 64) :
    Section.partsOf ((renamedParts [] parts).map (textEntry WrittenPart.instrument WrittenPart.value))
      = gathered parts := by
  rw [← foldl_addPart, Section.partsOf]
  have hseen : ([] : List (List Char)).length + parts.length ≤ 2 ^ 64 := by
    rwa [List.length_nil, Nat.zero_add]
  -- every entry adds to the parts found so far what its part adds
  generalize ([] : List (List Char)) = seen at hseen ⊢
  generalize ([] : List Part) = found
  induction parts generalizing seen found with
  | nil => rfl
  | cons p rest ih =>
    rw [List.length_cons] at hseen
    have hcount : seen.count p.instrument ≤ seen.length := List.count_le_length
    have hname : Section.instrumentName (String.ofList (p.renamed seen).instrument)
        = p.instrumentName :=
      (hparts p List.mem_cons_self).instrument.instrumentName_repeatName (by omega)
    have htexts : Section.patternsOf (p.renamed seen).value = p.texts := p.sheet.patternsOf_value
    have hsome : p.texts ≠ [] := by
      obtain ⟨instrument, _ | _⟩ := p <;> simp [WrittenPart.texts, Sheet.patterns]
    rw [renamedParts, List.map_cons, List.foldl_cons, List.foldl_cons,
      ← ih (fun q hq => hparts q (List.mem_cons_of_mem p hq)) (by omega) (p.instrument :: seen)
        (by rw [List.length_cons]; omega)]
    congr 1
    obtain ⟨first, more, hcons⟩ := List.exists_cons_of_ne_nil hsome
    simp only [textEntry, Value.scalarText?, htexts, hcons, hname]

/-- What a section says: its name, and its parts gathered. -/
def WrittenSection.read (s : WrittenSection) : Section := ⟨String.ofList s.name, gathered s.parts⟩

/-- The sections of the value. -/
theorem all_valueOfSections {sections : List WrittenSection} (hsections : ∀ s ∈ sections, s.IsValid)
    (hfits : ∀ s ∈ sections, s.parts.length ≤ 2 ^ 64) :
    Section.all (some (valueOfSections (sections.map WrittenSection.renamed)))
      = sections.map WrittenSection.read := by
  have hentries : ((some (valueOfSections (sections.map WrittenSection.renamed))).bind
      Value.entries?).getD [] = sections.map fun s =>
        textEntry WrittenSection.name WrittenSection.value s.renamed := by
    cases sections with
    | nil => rfl
    | cons first rest =>
      rw [← Function.comp_def, ← List.map_map]
      rfl
  rw [Section.all, hentries, List.filterMap_map, ← congrFun List.filterMap_eq_map sections]
  apply List.filterMap_congr
  intro s hs
  have hparts := partsOf_renamedParts (hsections s hs).parts (hfits s hs)
  rw [← WrittenSection.parts_renamed] at hparts
  exact congrArg (fun parts => some (⟨String.ofList s.name, parts⟩ : Section)) hparts

/-! ## The whole way -/

/-- The key of the sections makes the text a song document. -/
theorem isDocument_writtenText {sections : List WrittenSection}
    (hsections : ∀ s ∈ sections, s.IsValid) : isDocument (writtenText sections) = true := by
  have hkey : hasDocumentKey (sectionsKey ++ [':']) = true := by decide +kernel
  rw [isDocument, writtenText, lines_unlines (isBreak_writtenLines hsections), writtenLines,
    List.any_cons, hkey, Bool.true_or]

/-- Sections that are written one below the other, each with its name and, indented below it, its
instruments with a pattern or a list of patterns, are read as they were written: the same sections in
the same order, and in each of them every instrument by its name in lower case, where it comes first,
with all its patterns in the order of the document, character by character.  A repeat is counted in a
machine word, so no section may have more parts than that. -/
theorem sections_read_as_written (sections : List WrittenSection)
    (hsections : ∀ s ∈ sections, s.IsValid) (hdistinct : (sections.map WrittenSection.name).Nodup)
    (hfits : ∀ s ∈ sections, s.parts.length ≤ 2 ^ 64) :
    ∃ root, rootOf? (writtenText sections) = some root
      ∧ Section.all (Value.lookup "sections" root) = sections.map WrittenSection.read := by
  have hrenamed : ∀ s ∈ sections.map WrittenSection.renamed, s.IsRenamed := by
    intro s hs
    obtain ⟨t, ht, rfl⟩ := List.mem_map.mp hs
    exact (hsections t ht).isRenamed (hfits t ht)
  have hnames : ((sections.map WrittenSection.renamed).map WrittenSection.name).Nodup := by
    rwa [List.map_map]
  have hclarified : clarify (writtenText sections)
      = (documentOf (sections.map WrittenSection.renamed)).text := by
    rw [clarify_writtenText hsections hdistinct, ← BlockDocument.unlines_lines, lines_documentOf,
      List.map_map]
    rfl
  refine ⟨[(.text "sections", valueOfSections (sections.map WrittenSection.renamed))], ?_,
    all_valueOfSections hsections hfits⟩
  rw [rootOf?, if_pos (isDocument_writtenText hsections), hclarified,
    ofText?_documentOf hrenamed hnames]

/-- A section that names the piano three times, with notation that means something else in YAML. -/
def verseAndChorus : List WrittenSection :=
  let text := String.toList
  [{ name := text "verse"
     first := ⟨text "piano", .inline (text "[C4 E4] - -")⟩
     rest := [⟨text "Piano", .list (text "- - C2") [text "it's x", text "C#4 a: b"]⟩,
       ⟨text "bass", .inline (text "*1")⟩, ⟨text "piano", .inline (text "\x7bx")⟩] },
   { name := text "chorus 2"
     first := ⟨text "my_lead v-1.0", .list (text "&a !b") []⟩
     rest := [] }]

/-- The patterns of the piano come together in their order, and nothing in them is lost. -/
theorem sections_read_as_written_verse_and_chorus :
    writtenText verseAndChorus = ("sections:\n  verse:\n    piano: [C4 E4] - -\n    Piano:\n"
        ++ "      - - - C2\n      - it's x\n      - C#4 a: b\n    bass: *1\n    piano: \x7bx\n"
        ++ "  chorus 2:\n    my_lead v-1.0:\n      - &a !b\n").toList
      ∧ (∀ s ∈ verseAndChorus, s.IsValid)
      ∧ (verseAndChorus.map WrittenSection.name).Nodup
      ∧ (∀ s ∈ verseAndChorus, s.parts.length ≤ 2 ^ 64)
      ∧ ∃ root, rootOf? (writtenText verseAndChorus) = some root
        ∧ Section.all (Value.lookup "sections" root)
          = [⟨"verse", [⟨"piano", ["[C4 E4] - -", "- - C2", "it's x", "C#4 a: b", "\x7bx"]⟩,
                ⟨"bass", ["*1"]⟩]⟩,
              ⟨"chorus 2", [⟨"my_lead v-1.0", ["&a !b"]⟩]⟩] := by
  have hvalid : ∀ s ∈ verseAndChorus, s.IsValid := by decide +kernel
  have hdistinct : (verseAndChorus.map WrittenSection.name).Nodup := by decide +kernel
  have hfits : ∀ s ∈ verseAndChorus, s.parts.length ≤ 2 ^ 64 := by
    simp [verseAndChorus, WrittenSection.parts]
  have hread : verseAndChorus.map WrittenSection.read
      = [⟨"verse", [⟨"piano", ["[C4 E4] - -", "- - C2", "it's x", "C#4 a: b", "\x7bx"]⟩,
            ⟨"bass", ["*1"]⟩]⟩,
          ⟨"chorus 2", [⟨"my_lead v-1.0", ["&a !b"]⟩]⟩] := rfl
  exact ⟨by decide +kernel, hvalid, hdistinct, hfits,
    hread ▸ sections_read_as_written verseAndChorus hvalid hdistinct hfits⟩

end Stave.Song
