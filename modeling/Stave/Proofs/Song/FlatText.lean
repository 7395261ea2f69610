import Stave.Proofs.Song.Pieces
import Stave.Proofs.Song.Staves

/-!
# Compiling the flat text of a document

A document is *plain* when every pattern that is played is plain and every instrument that is played
is built in or declared as a sample under a name that can begin a line.  The lines of the flat text of
a plain document are those of its samples and then one for each stave; each of these is compiled on
the channel of its instrument, with what the sections leave for it as its notation.
-/

namespace Stave.Song

open Yaml

/-- A document as it should be written: plain patterns, and instruments that there are. -/
structure IsPlainDocument (root : List (Value × Value)) : Prop where
  sections : ∀ s ∈ playedIn root, s.IsPlain
  channels : ∀ s ∈ playedIn root, ∀ part ∈ s.parts,
    Registry.isBuiltin part.instrument = true
      ∨ IsChannelName part.instrument.toList ∧ ∃ d ∈ samplesIn root, d.name = part.instrument

instance (root : List (Value × Value)) : Decidable (IsPlainDocument root) :=
  decidable_of_iff
    ((∀ s ∈ playedIn root, s.IsPlain) ∧ ∀ s ∈ playedIn root, ∀ part ∈ s.parts,
      Registry.isBuiltin part.instrument = true
        ∨ IsChannelName part.instrument.toList ∧ ∃ d ∈ samplesIn root, d.name = part.instrument)
    ⟨fun ⟨h₁, h₂⟩ => ⟨h₁, h₂⟩, fun h => ⟨h.sections, h.channels⟩⟩

/-- What is decided of the root of a given text holds of it, with the text read only once. -/
theorem exists_root {text : List Char} {P : List (Value × Value) → Prop} [DecidablePred P]
    (h : ((rootOf? text).any fun root => decide (P root)) = true) :
    ∃ root, rootOf? text = some root ∧ P root := by
  cases hroot : rootOf? text with
  | none => simp [hroot] at h
  | some root => exact ⟨root, rfl, by simpa [hroot] using h⟩

theorem exists_roots {text text' : List Char} {P : List (Value × Value) → List (Value × Value) → Prop}
    [∀ root root', Decidable (P root root')]
    (h : ((rootOf? text).any fun root =>
      (rootOf? text').any fun root' => decide (P root root')) = true) :
    ∃ root root', rootOf? text = some root ∧ rootOf? text' = some root' ∧ P root root' := by
  obtain ⟨root, hroot, h⟩ := (Option.any_eq_true _ _).mp h
  obtain ⟨root', hroot', h⟩ := (Option.any_eq_true _ _).mp h
  exact ⟨root, root', hroot, hroot', of_decide_eq_true h⟩

/-! ## Flat lines -/

/-- The sections that a flat line has something for. -/
def sounding (played : List Section) : List Section :=
  played.filter fun s => decide (Ticks.zero < s.length)

theorem mem_sounding {played : List Section} {s : Section} :
    s ∈ sounding played ↔ s ∈ played ∧ Ticks.zero < s.length := by
  simp [sounding]

section Played

variable {played : List Section} (hplain : ∀ s ∈ played, s.IsPlain) (instrument : String)
  (line : Nat)
include hplain

/-- In a plain document every section with a length leaves something on every line. -/
theorem pieces_eq : pieces played instrument line = (sounding played).map (piece instrument line) := by
  apply List.filter_eq_self.mpr
  intro text htext
  obtain ⟨s, hs, rfl⟩ := List.mem_map.mp htext
  obtain ⟨hmem, hlength⟩ := mem_sounding.mp hs
  simpa using (isPhrase_piece (hplain s hmem) hlength instrument line).ne_nil

theorem isPhrase_of_mem_pieces {text : List Char} (h : text ∈ pieces played instrument line) :
    IsPhrase text := by
  rw [pieces_eq hplain] at h
  obtain ⟨s, hs, rfl⟩ := List.mem_map.mp h
  obtain ⟨hmem, hlength⟩ := mem_sounding.mp hs
  exact isPhrase_piece (hplain s hmem) hlength instrument line

theorem flatNotation_eq_nil_or_isPhrase :
    flatNotation played instrument line = [] ∨ IsPhrase (flatNotation played instrument line) := by
  by_cases hnone : pieces played instrument line = []
  · exact Or.inl (by rw [flatNotation, hnone, List.intercalate_nil])
  · exact Or.inr (isPhrase_intercalate hnone fun _ => isPhrase_of_mem_pieces hplain instrument line)

/-- The notation of a flat line says what each of its pieces says. -/
theorem kindsOf_flatNotation :
    kindsOf (flatNotation played instrument line)
      = (sounding played).flatMap fun s => kindsOf (piece instrument line s) := by
  rw [flatNotation, kindsOf_intercalate fun text h =>
    (isPhrase_of_mem_pieces hplain instrument line h).closed, pieces_eq hplain, List.flatMap_map]

theorem isContent_flatNotation : IsContent (flatNotation played instrument line) := by
  rcases flatNotation_eq_nil_or_isPhrase hplain instrument line with hnil | hphrase
  · rw [hnil]
    exact isContent_nil
  · exact hphrase.toIsContent

end Played

/-! ## Lines of the flat text -/

theorem isUrl_of_mem_samplesIn {root : List (Value × Value)} {d : Declaration}
    (h : d ∈ samplesIn root) : isUrl d.url.toList = true := by
  obtain ⟨⟨key, value⟩, -, hd⟩ := List.mem_filterMap.mp h
  obtain ⟨name, -, hname⟩ := Option.bind_eq_some_iff.mp hd
  obtain ⟨url, -, hurl⟩ := Option.bind_eq_some_iff.mp hname
  dsimp only at hurl
  split at hurl
  · next hgood =>
    cases hurl
    simpa using hgood
  · cases hurl

theorem lines_sampleLine {d : Declaration} (hname : '\n' ∉ d.name.toList)
    (hurl : isUrl d.url.toList = true) : Text.lines (sampleLine d) = [sampleLine d] :=
  lines_written hname fun hmem => absurd (isBlank_of_isUrl hurl _ hmem) (by decide)

/-- The lines that stand before those of the staves. -/
def sampleLines (root : List (Value × Value)) : List (List Char) :=
  (samplesIn root).flatMap fun d => Text.lines (sampleLine d)

/-- Nothing that is put into the flat text takes up the line feed behind it. -/
theorem endsInLine_of_mem_entries {root : List (Value × Value)} {text : List Char}
    (h : text ∈ (samplesIn root).map sampleLine
      ++ (staves (playedIn root)).map fun stave => flatLine (playedIn root) stave.1 stave.2) :
    Text.EndsInLine text := by
  rcases List.mem_append.mp h with hsample | hstave
  · obtain ⟨d, hd, rfl⟩ := List.mem_map.mp hsample
    exact endsInLine_written _ (isTrimmed_of_isUrl (isUrl_of_mem_samplesIn hd)).last
  · obtain ⟨stave, -, rfl⟩ := List.mem_map.mp hstave
    exact endsInLine_written _ (isTrimmed_flatNotation _ _ _).last

/-- The lines of the flat text are those of the samples and then those of every stave. -/
theorem lines_text_ofRoot (root : List (Value × Value)) :
    Text.lines (Arrangement.ofRoot root).text
      = sampleLines root ++ (staves (playedIn root)).flatMap fun stave =>
          Text.lines (flatLine (playedIn root) stave.1 stave.2) := by
  have htext : (Arrangement.ofRoot root).text = ['\n'].intercalate ((samplesIn root).map sampleLine
      ++ (staves (playedIn root)).map fun stave => flatLine (playedIn root) stave.1 stave.2) := rfl
  rw [htext, Text.lines_intercalate fun text => endsInLine_of_mem_entries, List.flatMap_append,
    List.flatMap_map, List.flatMap_map, sampleLines]

/-- The registry that the flat text of a document is compiled by. -/
def registryIn (root : List (Value × Value)) (r : Registry) : Registry :=
  (r.adopt ((Text.lines (Arrangement.ofRoot root).text).filterMap Heading.declaration?)).2

theorem isChannelName_of_isBuiltin {name : String} (hlower : Text.lowercase name = name)
    (h : Registry.isBuiltin name = true) : IsChannelName name.toList := by
  rw [Registry.isBuiltin, hlower] at h
  obtain ⟨builtin, hmem, heq⟩ := List.lookup_isSome_iff.mp h
  have hall : ∀ p ∈ Registry.builtins, IsChannelName p.1.toList := by
    simp [Registry.builtins, IsChannelName, Heading.inName]
  rw [eq_of_beq heq]
  exact hall builtin hmem

namespace IsPlainDocument

variable {root : List (Value × Value)} (h : IsPlainDocument root)
include h

/-- The instrument of a stave can begin a line, and its name is in lower case. -/
theorem instrument_of_mem_staves {instrument : String} {line : Nat}
    (hstave : (instrument, line) ∈ staves (playedIn root)) :
    Text.lowercase instrument = instrument ∧ IsChannelName instrument.toList
      ∧ (Registry.isBuiltin instrument = true ∨ ∃ d ∈ samplesIn root, d.name = instrument) := by
  obtain ⟨s, hs, part, hpart, rfl, -⟩ :=
    (reaches_channels _ _).mp ((mem_staves _ _).mp hstave)
  have hlower := (isRead_of_mem_playedIn hs).lowercase _ (List.mem_map_of_mem hpart)
  rcases h.channels s hs part hpart with hbuiltin | ⟨hname, hdeclared⟩
  · exact ⟨hlower, isChannelName_of_isBuiltin hlower hbuiltin, Or.inl hbuiltin⟩
  · exact ⟨hlower, hname, Or.inr hdeclared⟩

theorem lines_flatLine {instrument : String} {line : Nat}
    (hstave : (instrument, line) ∈ staves (playedIn root)) :
    Text.lines (flatLine (playedIn root) instrument line)
      = [flatLine (playedIn root) instrument line] := by
  obtain ⟨-, hname, -⟩ := h.instrument_of_mem_staves hstave
  exact lines_written hname.oneLine (isContent_flatNotation h.sections instrument line).oneLine

/-- The lines of the flat text are those of the samples and one for each stave. -/
theorem lines_text :
    Text.lines (Arrangement.ofRoot root).text
      = sampleLines root
        ++ (staves (playedIn root)).map fun stave => flatLine (playedIn root) stave.1 stave.2 := by
  rw [lines_text_ofRoot, List.map_eq_flatMap]
  exact congrArg (sampleLines root ++ ·) (List.flatMap_congr fun _ => h.lines_flatLine)

/-- The registry of the flat text has the instrument of every stave. -/
theorem contains_of_mem_staves (r : Registry) {instrument : String} {line : Nat}
    (hstave : (instrument, line) ∈ staves (playedIn root)) :
    (registryIn root r).contains instrument = true := by
  obtain ⟨hlower, hname, hbuiltin | ⟨d, hd, rfl⟩⟩ := h.instrument_of_mem_staves hstave
  · exact Registry.contains_of_isBuiltin _ hbuiltin
  · have hurl := isUrl_of_mem_samplesIn hd
    have hdeclares := Heading.declaration?_written hname hurl
    rw [String.ofList_toList] at hdeclares
    refine Registry.contains_of_declared r (List.mem_filterMap.mpr ⟨_, ?_, hdeclares⟩)
      (Text.lowercase_lowercase _).symm
    rw [h.lines_text]
    apply List.mem_append_left
    apply List.mem_flatMap.mpr
    refine ⟨d, hd, ?_⟩
    rw [lines_sampleLine hname.oneLine hurl]
    exact List.mem_singleton_self _

end IsPlainDocument

/-! ## Compiled staves -/

/-- What the compiled line of a stave is, the `lineIndex`-th of its text. -/
structure IsStave (played : List Section) (stave : String × Nat) (lineIndex : Nat) (l : Line) :
    Prop where
  instrument_eq : l.instrument = stave.1
  declaration_eq : l.declaration = none
  events_eq : l.events = ((Cursor.start lineIndex stave.1).walk
    (kindsOf (flatNotation played stave.1 stave.2))).events.toList
  length_eq : l.length
    = Ticks.ofNat (TokenKind.span (kindsOf (flatNotation played stave.1 stave.2)))

/-- The compiled flat text of a document. -/
def compiled (root : List (Value × Value)) (r : Registry) : Composition :=
  (Composition.ofText (Arrangement.ofRoot root).text r).1

/-- Every line of the flat text is compiled by the same registry. -/
theorem getElem?_lines_compiled (root : List (Value × Value)) (r : Registry) (i : Nat) :
    (compiled root r).lines[i]?
      = (Text.lines (Arrangement.ofRoot root).text)[i]?.map ((registryIn root r).lineOf i) :=
  List.getElem?_mapIdx

namespace IsPlainDocument

variable {root : List (Value × Value)} (h : IsPlainDocument root) (r : Registry)
include h

theorem length_compiled :
    (compiled root r).lines.length = (sampleLines root).length + (staves (playedIn root)).length := by
  simp [compiled, Composition.ofText, h.lines_text]

/-- A sample whose name can be declared is declared by its line. -/
theorem declaration_of_mem_take
    (hnames : ∀ d ∈ samplesIn root,
      IsChannelName d.name.toList ∧ Registry.isBuiltin d.name = false)
    {l : Line} (hl : l ∈ (compiled root r).lines.take (sampleLines root).length) :
    l.declaration ≠ none := by
  have htake : (compiled root r).lines.take (sampleLines root).length
      = (sampleLines root).mapIdx (registryIn root r).lineOf := by
    show ((Text.lines (Arrangement.ofRoot root).text).mapIdx (registryIn root r).lineOf).take _ = _
    rw [h.lines_text, List.mapIdx_append, List.take_left' (by simp)]
  rw [htake, List.mem_mapIdx] at hl
  obtain ⟨i, hi, rfl⟩ := hl
  obtain ⟨d, hd, hline⟩ := List.mem_flatMap.mp (List.getElem_mem hi)
  obtain ⟨hname, hbuiltin⟩ := hnames d hd
  have hurl := isUrl_of_mem_samplesIn hd
  rw [lines_sampleLine hname.oneLine hurl, List.mem_singleton] at hline
  have hdeclares := Heading.declaration?_written hname hurl
  rw [String.ofList_toList] at hdeclares
  rw [hline, show sampleLine d = written d.name.toList d.url.toList from rfl, Registry.lineOf,
    hdeclares]
  -- the name that is declared is the one in lower case
  have hlower : Registry.isBuiltin (Text.lowercase d.name) = false := by
    rw [Registry.isBuiltin, Text.lowercase_lowercase]
    exact hbuiltin
  simp [hlower]

/-- Behind the lines of the samples stands the line of every stave. -/
theorem exists_stave {k : Nat} {stave : String × Nat}
    (hstave : (staves (playedIn root))[k]? = some stave) :
    ∃ l, (compiled root r).lines[(sampleLines root).length + k]? = some l
      ∧ IsStave (playedIn root) stave ((sampleLines root).length + k) l := by
  obtain ⟨instrument, line⟩ := stave
  have hmem := List.mem_of_getElem? hstave
  obtain ⟨hlower, hname, -⟩ := h.instrument_of_mem_staves hmem
  have hchannel := h.contains_of_mem_staves r hmem
  -- the line of the text, and what compiling makes of it
  have htext : (Text.lines (Arrangement.ofRoot root).text)[(sampleLines root).length + k]?
      = some (flatLine (playedIn root) instrument line) := by
    rw [h.lines_text, List.getElem?_append_right (Nat.le_add_right _ _), Nat.add_sub_cancel_left,
      List.getElem?_map, hstave]
    rfl
  have hline := (registryIn root r).lineOf_written ((sampleLines root).length + k) hname
    (isContent_flatNotation h.sections instrument line) (by rw [String.ofList_toList]; exact hchannel)
  rw [String.ofList_toList, hlower] at hline
  have hcompiled := getElem?_lines_compiled root r ((sampleLines root).length + k)
  rw [htext] at hcompiled
  exact ⟨_, hcompiled.trans (congrArg some hline), rfl, rfl, rfl, length_eventsOf _ _ _⟩

end IsPlainDocument

end Stave.Song
