import Stave.Proofs.Song.Named
import Stave.Proofs.Song.Samples

/-!
# The layout of the flat text

A document whose names and patterns each stay on one line is arranged as a line for each of its samples
and then one for each line that an instrument plays in its widest section, the instruments in the order
of their first parts.  A name or a pattern with a line feed in it breaks off there: the rest becomes a
line of its own, and the flat text has more lines than its samples and instruments account for.
-/

namespace Stave

/-! ## Broken lines -/

namespace Text

theorem length_lines_pos {text : List Char} (h : text ≠ []) : 0 < (lines text).length := by
  rw [lines, if_neg (by simpa using h)]
  split <;> simp

/-- A line feed within a text makes a second line. -/
theorem EndsInLine.one_lt_length_lines {text : List Char} (h : EndsInLine text) (hfeed : '\n' ∈ text) :
    1 < (lines text).length := by
  obtain ⟨line, behind, rfl, hline⟩ := List.eq_append_cons_of_mem hfeed
  have hpos := length_lines_pos h.of_append_cons.ne_nil
  rw [lines_append_cons hline, List.length_cons]
  omega

theorem length_le_length_flatMap_lines {texts : List (List Char)} (h : ∀ text ∈ texts, text ≠ []) :
    texts.length ≤ (texts.flatMap lines).length := by
  induction texts with
  | nil => exact Nat.le_refl 0
  | cons text rest ih =>
    have hrest := ih fun t ht => h t (List.mem_cons_of_mem _ ht)
    have hpos := length_lines_pos (h text List.mem_cons_self)
    rw [List.flatMap_cons, List.length_append, List.length_cons]
    omega

/-- Joined texts have a line each, and more if there is a line feed in one of them. -/
theorem length_lt_length_lines {texts : List (List Char)} (h : ∀ text ∈ texts, EndsInLine text)
    {broken : List Char} (hmem : broken ∈ texts) (hfeed : '\n' ∈ broken) :
    texts.length < (lines (['\n'].intercalate texts)).length := by
  obtain ⟨before, after, rfl⟩ := List.append_of_mem hmem
  have htwo := (h broken hmem).one_lt_length_lines hfeed
  have hbefore : before.length ≤ (before.flatMap lines).length :=
    length_le_length_flatMap_lines fun text htext => (h text (by simp [htext])).ne_nil
  have hafter : after.length ≤ (after.flatMap lines).length :=
    length_le_length_flatMap_lines fun text htext => (h text (by simp [htext])).ne_nil
  rw [lines_intercalate h]
  simp only [List.flatMap_append, List.flatMap_cons, List.length_append, List.length_cons]
  omega

end Text

namespace Song

open Yaml

/-! ## The instruments of a song -/

/-- The instruments of some sections in the order of their first parts. -/
def instrumentsOf (played : List Section) : List String :=
  ((played.flatMap Section.parts).map Part.instrument).eraseDups

/-- How many lines an instrument plays at once in a section. -/
def Section.lineCount (s : Section) (instrument : String) : Nat :=
  ((s.parts.find? fun p => p.instrument == instrument).map fun p => p.patterns.length).getD 0

/-- How many lines an instrument plays in its widest section. -/
def widest (played : List Section) (instrument : String) : Nat :=
  (played.map fun s => s.lineCount instrument).foldr max 0

theorem fst_channels (played : List Section) :
    (channels played).map Prod.fst = instrumentsOf played := by
  rw [channels, instrumentsOf]
  generalize played.flatMap Section.parts = parts
  induction parts using List.reverseRecOn with
  | nil => rfl
  | append_singleton parts part ih =>
    rw [List.foldl_append, List.foldl_cons, List.foldl_nil, fst_widen, ih, List.map_append,
      List.map_singleton, eraseDups_concat]
    simp only [List.mem_eraseDups]

theorem lt_widest {played : List Section} {instrument : String} {line : Nat} :
    line < widest played instrument ↔ ∃ s ∈ played, line < s.lineCount instrument := by
  induction played with
  | nil => simp [widest]
  | cons s rest ih =>
    rw [List.exists_mem_cons_iff, ← ih, widest, List.map_cons, List.foldr_cons, lt_max_iff, ← widest]

theorem Section.lt_lineCount {s : Section} (h : IsRead s.parts) {instrument : String} {line : Nat} :
    line < s.lineCount instrument
      ↔ ∃ part ∈ s.parts, instrument = part.instrument ∧ line < part.patterns.length := by
  constructor
  · intro hlt
    rw [lineCount] at hlt
    cases hfound : s.parts.find? fun p => p.instrument == instrument with
    | none => simp [hfound] at hlt
    | some part =>
      have hname : part.instrument = instrument := by simpa using List.find?_some hfound
      exact ⟨part, List.mem_of_find?_eq_some hfound, hname.symm, by simpa [hfound] using hlt⟩
  · rintro ⟨part, hpart, rfl, hlt⟩
    rwa [lineCount, find?_instrument h hpart]

/-- Every instrument has as many lines as it plays in its widest section. -/
theorem count_of_mem_channels {root : List (Value × Value)} {instrument : String} {count : Nat}
    (h : (instrument, count) ∈ channels (playedIn root)) :
    count = widest (playedIn root) instrument := by
  refine eq_of_forall_lt_iff fun line => ?_
  have hcount : Reaches (channels (playedIn root)) (instrument, line) ↔ line < count := by
    constructor
    · rintro ⟨other, hmem, hlt⟩
      -- no instrument is counted twice
      have hsame := List.inj_on_of_nodup_map (nodup_channels (playedIn root)) hmem h rfl
      rwa [Prod.mk.inj hsame |>.2] at hlt
    · exact fun hlt => ⟨count, h, hlt⟩
  rw [← hcount, reaches_channels, lt_widest]
  exact exists_congr fun s => and_congr_right fun hs =>
    (Section.lt_lineCount (isRead_of_mem_playedIn hs)).symm

theorem staves_eq (root : List (Value × Value)) :
    staves (playedIn root) = (instrumentsOf (playedIn root)).flatMap fun instrument =>
      (List.range (widest (playedIn root) instrument)).map fun line => (instrument, line) := by
  rw [staves, ← fst_channels, List.flatMap_map]
  refine List.flatMap_congr fun channel hchannel => ?_
  obtain ⟨instrument, count⟩ := channel
  rw [count_of_mem_channels hchannel]

/-! ## Patterns that are read -/

theorem Section.patterns_ne_nil_addPart {instrument : String} {patterns : List String}
    (hne : patterns ≠ []) {parts : List Part} (h : ∀ p ∈ parts, p.patterns ≠ []) :
    ∀ p ∈ addPart instrument patterns parts, p.patterns ≠ [] := by
  induction parts with
  | nil => simpa [addPart] using hne
  | cons first rest ih =>
    have hfirst := h first List.mem_cons_self
    have hrest : ∀ p ∈ rest, p.patterns ≠ [] := fun p hp => h p (List.mem_cons_of_mem _ hp)
    rw [addPart]
    split
    · exact List.forall_mem_cons.mpr ⟨List.append_ne_nil_of_left_ne_nil hfirst patterns, hrest⟩
    · exact List.forall_mem_cons.mpr ⟨hfirst, ih hrest⟩

/-- An instrument has a part only where it has a pattern. -/
theorem Section.patterns_ne_nil_partsOf (entries : List (Value × Value)) :
    ∀ p ∈ partsOf entries, p.patterns ≠ [] := by
  rw [partsOf]
  generalize hstart : ([] : List Part) = parts
  have h : ∀ p ∈ parts, p.patterns ≠ [] := by simp [← hstart]
  clear hstart
  induction entries generalizing parts with
  | nil => exact h
  | cons entry rest ih =>
    obtain ⟨key, value⟩ := entry
    rw [List.foldl_cons]
    apply ih
    dsimp only
    split
    · exact h
    · exact h
    · next hne => exact patterns_ne_nil_addPart hne h

theorem patterns_ne_nil {root : List (Value × Value)} {s : Section} (hs : s ∈ playedIn root)
    {part : Part} (hpart : part ∈ s.parts) : part.patterns ≠ [] := by
  obtain ⟨⟨key, body⟩, -, hsection⟩ := List.mem_filterMap.mp (mem_of_mem_order hs)
  obtain ⟨name, -, rfl⟩ := Option.map_eq_some_iff.mp hsection
  exact Section.patterns_ne_nil_partsOf _ part hpart

/-! ## Line feeds -/

theorem feed_mem_intercalate {texts : List (List Char)} :
    '\n' ∈ [' '].intercalate texts ↔ ∃ text ∈ texts, '\n' ∈ text := by
  induction texts with
  | nil => simp
  | cons text rest ih =>
    by_cases hlast : rest = []
    · simp [hlast]
    · rw [List.intercalate_cons_of_ne_nil hlast, List.exists_mem_cons_iff, ← ih]
      simp

theorem feed_notMem_restsFor (count : Nat) : '\n' ∉ restsFor count := by
  rw [restsFor, feed_mem_intercalate]
  rintro ⟨text, htext, hfeed⟩
  rw [List.eq_of_mem_replicate htext] at hfeed
  exact absurd hfeed (by decide)

theorem feed_mem_fill {pattern : List Char} {length : Ticks} :
    '\n' ∈ fill pattern length ↔ '\n' ∈ Text.trim pattern := by
  simp only [fill]
  split
  · rfl
  · split
    · next hempty =>
      rw [List.isEmpty_iff.mp hempty]
      simp [feed_notMem_restsFor]
    · simp [feed_notMem_restsFor]

/-- The notation of a line has a line feed in it when a pattern in it has one that trimming leaves. -/
theorem feed_mem_flatNotation {played : List Section} {instrument : String} {line : Nat} :
    '\n' ∈ flatNotation played instrument line
      ↔ ∃ s ∈ played, Ticks.zero < s.length
        ∧ ∃ pattern, s.pattern? instrument line = some pattern ∧ '\n' ∈ Text.trim pattern.toList := by
  have hpiece (s : Section) : '\n' ∈ piece instrument line s
      ↔ ∃ pattern, s.pattern? instrument line = some pattern ∧ '\n' ∈ Text.trim pattern.toList := by
    rw [piece]
    cases s.pattern? instrument line with
    | none => simp [feed_notMem_restsFor]
    | some pattern => simp [feed_mem_fill]
  rw [flatNotation, feed_mem_intercalate]
  constructor
  · rintro ⟨text, htext, hfeed⟩
    obtain ⟨s, hs, rfl⟩ := List.mem_map.mp (List.mem_filter.mp htext).1
    obtain ⟨hplayed, hlength⟩ := mem_sounding.mp hs
    exact ⟨s, hplayed, hlength, (hpiece s).mp hfeed⟩
  · rintro ⟨s, hplayed, hlength, hpattern⟩
    have hfeed := (hpiece s).mpr hpattern
    have hne : piece instrument line s ≠ [] := List.ne_nil_of_mem hfeed
    refine ⟨_, List.mem_filter.mpr ⟨List.mem_map_of_mem ?_, by simpa using hne⟩, hfeed⟩
    exact mem_sounding.mpr ⟨hplayed, hlength⟩

/-- A document in which every name and every pattern that is played stays on one line, but for blanks
around it.  A section without length leaves nothing of its patterns. -/
structure IsUnbroken (root : List (Value × Value)) : Prop where
  names : ∀ d ∈ samplesIn root, '\n' ∉ d.name.toList
  instruments : ∀ s ∈ playedIn root, ∀ part ∈ s.parts, '\n' ∉ part.instrument.toList
  patterns : ∀ s ∈ playedIn root, Ticks.zero < s.length →
    ∀ part ∈ s.parts, ∀ pattern ∈ part.patterns, '\n' ∉ Text.trim pattern.toList

instance (root : List (Value × Value)) : Decidable (IsUnbroken root) :=
  decidable_of_iff
    ((∀ d ∈ samplesIn root, '\n' ∉ d.name.toList)
      ∧ (∀ s ∈ playedIn root, ∀ part ∈ s.parts, '\n' ∉ part.instrument.toList)
      ∧ ∀ s ∈ playedIn root, Ticks.zero < s.length →
        ∀ part ∈ s.parts, ∀ pattern ∈ part.patterns, '\n' ∉ Text.trim pattern.toList)
    ⟨fun ⟨h₁, h₂, h₃⟩ => ⟨h₁, h₂, h₃⟩, fun h => ⟨h.names, h.instruments, h.patterns⟩⟩

theorem KeepsLines.isUnbroken {root : List (Value × Value)} (h : KeepsLines root) :
    IsUnbroken root where
  names := h.names
  instruments s hs part hpart hfeed := by
    have hpos := List.length_pos_iff.mpr (patterns_ne_nil hs hpart)
    have hstave : (part.instrument, 0) ∈ staves (playedIn root) := by
      rw [mem_staves, reaches_channels]
      exact ⟨s, hs, part, hpart, rfl, hpos⟩
    exact h.lines _ hstave (by simp [flatLine, hfeed])
  patterns s hs hlength part hpart pattern hpattern hfeed := by
    obtain ⟨line, hline⟩ := List.mem_iff_getElem?.mp hpattern
    have hfound := Section.find?_instrument (isRead_of_mem_playedIn hs) hpart
    have hplayed : s.pattern? part.instrument line = some pattern := by
      rw [Section.pattern?, hfound]
      exact hline
    have hstave : (part.instrument, line) ∈ staves (playedIn root) :=
      mem_staves_iff.mpr ⟨s, hs, by rw [hplayed]; rfl⟩
    have hnotation : '\n' ∈ flatNotation (playedIn root) part.instrument line :=
      feed_mem_flatNotation.mpr ⟨s, hs, hlength, pattern, hplayed, hfeed⟩
    exact h.lines _ hstave (by simp [flatLine, hnotation])

theorem IsUnbroken.keepsLines {root : List (Value × Value)} (h : IsUnbroken root) :
    KeepsLines root where
  names := h.names
  lines stave hstave hfeed := by
    obtain ⟨s, hs, part, hpart, hname, -⟩ :=
      (reaches_channels _ _).mp ((mem_staves _ _).mp hstave)
    have hinstrument := h.instruments s hs part hpart
    have hnotation : '\n' ∈ flatNotation (playedIn root) stave.1 stave.2 := by
      rw [flatLine, hname] at hfeed
      rw [hname]
      simpa [hinstrument] using hfeed
    obtain ⟨t, ht, hlength, pattern, hpattern, hbroken⟩ := feed_mem_flatNotation.mp hnotation
    obtain ⟨found, hfound, hline⟩ := Option.bind_eq_some_iff.mp hpattern
    exact h.patterns t ht hlength found (List.mem_of_find?_eq_some hfound) pattern
      (List.mem_of_getElem? hline) hbroken

/-! ## Documents -/

/-- The lines that the flat text should have: one for each sample, and then for each instrument one for
each line of its widest section. -/
def linesMeant (root : List (Value × Value)) : List (List Char) :=
  (samplesIn root).map sampleLine ++ (instrumentsOf (playedIn root)).flatMap fun instrument =>
    (List.range (widest (playedIn root) instrument)).map fun line =>
      instrument.toList ++ ':' :: ' ' :: flatNotation (playedIn root) instrument line

theorem linesMeant_eq (root : List (Value × Value)) :
    linesMeant root = (samplesIn root).map sampleLine
      ++ (staves (playedIn root)).map fun stave => flatLine (playedIn root) stave.1 stave.2 := by
  rw [linesMeant, staves_eq, List.map_flatMap]
  simp only [List.map_map]
  rfl

/-- The flat text of a document has a line for each sample and then, in the order of their first parts,
as many lines for each instrument as it plays in its widest section, each of which begins with the name
of the instrument and a colon.  This holds exactly of documents without line feeds in what is put on
these lines; of any other the flat text has more lines. -/
theorem lines_of_document {text : List Char} {root : List (Value × Value)}
    (hroot : rootOf? text = some root) :
    ∃ arrangement, Arrangement.ofText? text = some arrangement
      ∧ arrangement.samples = samplesIn root
      ∧ (IsUnbroken root → Text.lines arrangement.text = linesMeant root)
      ∧ (¬IsUnbroken root → (linesMeant root).length < (Text.lines arrangement.text).length) := by
  refine ⟨Arrangement.ofRoot root, ?_, rfl, fun h => ?_, fun h => ?_⟩
  · rw [Arrangement.ofText?, hroot]
    rfl
  · rw [h.keepsLines.lines_text, linesMeant_eq]
  · obtain ⟨broken, hbroken, hfeed⟩ : ∃ broken ∈ linesMeant root, '\n' ∈ broken := by
      by_contra hnone
      rw [linesMeant_eq] at hnone
      refine h (KeepsLines.isUnbroken ⟨fun d hd hfeed => hnone ?_, fun stave hstave hfeed => hnone ?_⟩)
      · exact ⟨sampleLine d, List.mem_append_left _ (List.mem_map_of_mem hd), by simp [sampleLine, hfeed]⟩
      · exact ⟨_, List.mem_append_right _ (List.mem_map_of_mem hstave), hfeed⟩
    rw [linesMeant_eq] at hbroken ⊢
    exact Text.length_lt_length_lines (fun text => endsInLine_of_mem_entries) hbroken hfeed

/-- A sample, and a piano that has one line in the first section and two in the second. -/
theorem lines_of_document_of_two_sections :
    let text := ['\n'].intercalate <| List.map String.toList
      ["samples:", "  vox: file:///v.wav", "sections:", "  a:", "    piano: C4 D4", "    vox: x", "  b:",
        "    piano: E4", "    piano: G4", "song: [a, b]"]
    ∃ arrangement, Arrangement.ofText? text = some arrangement
      ∧ Text.lines arrangement.text = List.map String.toList
        ["vox: file:///v.wav", "piano: C4 D4 E4", "piano: - - G4", "vox: x - -"] := by
  intro text
  obtain ⟨root, hroot, hunbroken, hmeant⟩ : ∃ root, rootOf? text = some root ∧ IsUnbroken root
      ∧ linesMeant root = List.map String.toList
        ["vox: file:///v.wav", "piano: C4 D4 E4", "piano: - - G4", "vox: x - -"] :=
    exists_root (by decide +kernel)
  obtain ⟨arrangement, harrangement, -, hlines, -⟩ := lines_of_document hroot
  exact ⟨arrangement, harrangement, (hlines hunbroken).trans hmeant⟩

/-- A pattern that is written over two lines: the second becomes a line without an instrument. -/
theorem pattern_over_two_lines_breaks :
    let text := ['\n'].intercalate <| List.map String.toList
      ["sections:", "  a:", "    piano: |", "      C4", "      D4"]
    ((rootOf? text).map fun root => (linesMeant root).length) = some 1
      ∧ ((Arrangement.ofText? text).map fun a => Text.lines a.text)
        = some (List.map String.toList ["piano: C4", "D4"]) := by
  decide +kernel

end Song

end Stave
