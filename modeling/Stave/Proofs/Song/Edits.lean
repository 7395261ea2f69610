import Stave.Proofs.Song.Stretches

/-!
# Changing one pattern of a song

Where every pattern closes its brackets, a change of one pattern that keeps its length is heard in the
instances of its section only.  All sections keep their places and their lengths, and so do the lines;
what a line plays in the stretch of another section is as before, though more or fewer tokens may stand
before it.  An open bracket is not held back in this way: it takes the sections behind it along.
-/

namespace Stave.Song

open Yaml TokenKind

/-! ## The places of the sections that are played -/

/-- The places of the sections that are played, among sections with given names. -/
def places (entries : Option (List String)) (names : List String) : List Nat :=
  match entries with
  | none => List.range names.length
  | some entries =>
    entries.flatMap fun entry =>
      match songItem? entry.toList with
      | none => []
      | some (name, count) =>
        match names.findIdx? fun n => n == String.ofList name with
        | none => []
        | some place => List.replicate count place

/-- What is played are the sections at those places. -/
theorem map_some_order (value : Option Value) (sections : List Section) :
    (order value sections).map some
      = (places (entriesOf? value) (sections.map Section.name)).map fun place => sections[place]? := by
  rw [order]
  cases entriesOf? value with
  | none =>
    refine List.ext_getElem? fun n => ?_
    by_cases h : n < sections.length
    · simp [places, h]
    · simp [places, h]
  | some entries =>
    simp only [places, List.map_flatMap]
    refine List.flatMap_congr fun entry _ => ?_
    cases songItem? entry.toList with
    | none => rfl
    | some item =>
      obtain ⟨name, count⟩ := item
      simp only [List.findIdx?_map, Function.comp_def, List.find?_eq_getElem?_findIdx]
      cases hfound : sections.findIdx? fun s => s.name == String.ofList name with
      | none =>
        -- the index of what is not there is behind the list
        have hall := List.findIdx?_eq_none_iff.mp hfound
        have hend : sections.findIdx (fun s => s.name == String.ofList name) = sections.length :=
          List.findIdx_eq_length.mpr hall
        simp [hend]
      | some place =>
        obtain ⟨hlt, rfl⟩ := List.findIdx?_eq_some_iff_findIdx_eq.mp hfound
        simp [hlt]

/-- The sections of a document, in the order in which they are written. -/
def sectionsIn (root : List (Value × Value)) : List Section :=
  Section.all (Value.lookup "sections" root)

/-- The places, among the sections of a document, of those that are played. -/
def placesIn (root : List (Value × Value)) : List Nat :=
  places (entriesOf? (Value.lookup "song" root)) ((sectionsIn root).map Section.name)

theorem map_some_playedIn (root : List (Value × Value)) :
    (playedIn root).map some = (placesIn root).map fun place => (sectionsIn root)[place]? :=
  map_some_order _ _

/-! ## Changing a section -/

/-- The instrument of a part, and how many lines it plays. -/
def Part.shape (part : Part) : String × Nat := (part.instrument, part.patterns.length)

namespace Section

/-- The section with another pattern on one line of an instrument. -/
def withPattern (s : Section) (instrument : String) (line : Nat) (pattern : String) : Section :=
  { s with
    parts := s.parts.map fun part =>
      if part.instrument = instrument then { part with patterns := part.patterns.set line pattern }
      else part }

variable {s : Section} {instrument : String} {line : Nat} {pattern replacement : String}

theorem shape_withPattern :
    (s.withPattern instrument line replacement).parts.map Part.shape = s.parts.map Part.shape := by
  rw [withPattern, List.map_map]
  refine List.map_congr_left fun part _ => ?_
  rw [Function.comp_apply]
  split
  · simp [Part.shape]
  · rfl

/-- What holds of all patterns and of the new one holds of all patterns afterwards. -/
theorem forall_withPattern {P : String → Prop}
    (h : ∀ part ∈ s.parts, ∀ pattern ∈ part.patterns, P pattern) (hnew : P replacement) :
    ∀ part ∈ (s.withPattern instrument line replacement).parts, ∀ pattern ∈ part.patterns,
      P pattern := by
  intro part hpart pattern hpattern
  obtain ⟨old, hold, rfl⟩ := List.mem_map.mp hpart
  split at hpattern
  · rcases List.mem_or_eq_of_mem_set hpattern with hmem | rfl
    · exact h old hold pattern hmem
    · exact hnew
  · exact h old hold pattern hpattern

/-- A pattern of the same length leaves the length of the section. -/
theorem length_withPattern (hread : IsRead s.parts)
    (hpattern : s.pattern? instrument line = some pattern)
    (hlength : lengthOf replacement.toList = lengthOf pattern.toList) :
    (s.withPattern instrument line replacement).length = s.length := by
  rw [length, length, withPattern, List.map_flatMap, List.map_flatMap, List.flatMap_map]
  refine congrArg Ticks.maximum (List.flatMap_congr fun part hpart => ?_)
  split
  · next hname =>
    -- the part of the instrument is the one in which the pattern was found
    obtain ⟨found, hfound, hline⟩ := Option.bind_eq_some_iff.mp hpattern
    rw [← hname, find?_instrument hread hpart, Option.some_inj] at hfound
    obtain ⟨hlt, hget⟩ := List.getElem?_eq_some_iff.mp (hfound ▸ hline)
    simp only [List.map_set, hlength, ← hget]
    rw [← List.getElem_map fun p : String => lengthOf p.toList, List.set_getElem_self]
    simpa using hlt
  · rfl

end Section

/-! ## Changing a document -/

/-- A change of one pattern. -/
structure Edit where
  /-- The place of its section in the document. -/
  place : Nat
  instrument : String
  line : Nat
  pattern : String
  replacement : String

namespace Edit

/-- The section with the pattern changed. -/
def change (e : Edit) (s : Section) : Section := s.withPattern e.instrument e.line e.replacement

/-- Two documents play the same sections, with the same samples, but for a changed pattern. -/
structure Relates (e : Edit) (root root' : List (Value × Value)) : Prop where
  song_eq : entriesOf? (Value.lookup "song" root') = entriesOf? (Value.lookup "song" root)
  samples_eq : samplesIn root' = samplesIn root
  pattern_eq : ((sectionsIn root)[e.place]?.bind fun s => s.pattern? e.instrument e.line)
    = some e.pattern
  sections_eq : sectionsIn root' = (sectionsIn root).modify e.place e.change

instance (e : Edit) (root root' : List (Value × Value)) : Decidable (e.Relates root root') :=
  decidable_of_iff (_ ∧ _ ∧ _ ∧ _)
    ⟨fun ⟨h₁, h₂, h₃, h₄⟩ => Relates.mk h₁ h₂ h₃ h₄,
      fun h => ⟨h.song_eq, h.samples_eq, h.pattern_eq, h.sections_eq⟩⟩

namespace Relates

variable {e : Edit} {root root' : List (Value × Value)} (h : e.Relates root root')
include h

/-- The same places are played. -/
theorem placesIn_eq : placesIn root' = placesIn root := by
  have hnames : ((sectionsIn root).modify e.place e.change).map Section.name
      = (sectionsIn root).map Section.name := by
    refine List.ext_getElem? fun n => ?_
    rw [List.getElem?_map, List.getElem?_map, List.getElem?_modify]
    cases (sectionsIn root)[n]? with
    | none => rfl
    | some s =>
      by_cases hplace : e.place = n
      · simp [hplace, change, Section.withPattern]
      · simp [hplace]
  rw [placesIn, placesIn, h.song_eq, h.sections_eq, hnames]

theorem length_playedIn : (playedIn root').length = (playedIn root).length := by
  have hlength (root : List (Value × Value)) : (playedIn root).length = (placesIn root).length := by
    rw [← List.length_map some, map_some_playedIn, List.length_map]
  rw [hlength, hlength, h.placesIn_eq]

/-- What is played is the same, but for the instances of the changed section. -/
theorem getElem?_playedIn {n : Nat} {s : Section} (hn : (playedIn root)[n]? = some s) :
    ∃ place, (placesIn root)[n]? = some place ∧ (sectionsIn root)[place]? = some s
      ∧ (playedIn root')[n]? = some (if place = e.place then e.change s else s) := by
  have hplayed := congrArg (·[n]?) (map_some_playedIn root)
  have hplayed' := congrArg (·[n]?) (map_some_playedIn root')
  simp only [List.getElem?_map, hn, Option.map_some] at hplayed
  simp only [List.getElem?_map, h.placesIn_eq, h.sections_eq] at hplayed'
  obtain ⟨place, hplace, hsection⟩ := Option.map_eq_some_iff.mp hplayed.symm
  refine ⟨place, hplace, hsection, ?_⟩
  rw [hplace, Option.map_some, List.getElem?_modify, hsection] at hplayed'
  obtain ⟨found, hfound, hchanged⟩ := Option.map_eq_some_iff.mp hplayed'
  rw [hfound, hchanged]
  by_cases hedited : place = e.place
  · simp [hedited]
  · simp [hedited, Ne.symm hedited]

/-- What the change leaves of a section is the same in all that is played. -/
theorem map_playedIn {α : Type} {f : Section → α}
    (hf : ∀ s, (sectionsIn root)[e.place]? = some s → f (e.change s) = f s) :
    (playedIn root').map f = (playedIn root).map f := by
  refine List.ext_getElem? fun n => ?_
  rw [List.getElem?_map, List.getElem?_map]
  cases hn : (playedIn root)[n]? with
  | none =>
    rw [List.getElem?_eq_none_iff, ← h.length_playedIn, ← List.getElem?_eq_none_iff] at hn
    rw [hn]
  | some s =>
    obtain ⟨place, -, hsection, hn'⟩ := h.getElem?_playedIn hn
    rw [hn', Option.map_some, Option.map_some, Option.some_inj]
    split
    · next hedited => exact hf s (hedited ▸ hsection)
    · rfl

/-- What the change keeps of its section holds of all that is played. -/
theorem forall_playedIn {P : Section → Prop} (hP : ∀ s ∈ playedIn root, P s)
    (hchange : ∀ s, (sectionsIn root)[e.place]? = some s → P s → P (e.change s)) :
    ∀ s ∈ playedIn root', P s := by
  intro s' hs'
  obtain ⟨n, hn'⟩ := List.getElem?_of_mem hs'
  obtain ⟨s, hn⟩ : ∃ s, (playedIn root)[n]? = some s := by
    have hlt := (List.getElem?_eq_some_iff.mp hn').1
    rw [h.length_playedIn] at hlt
    exact ⟨_, List.getElem?_eq_getElem hlt⟩
  obtain ⟨place, -, hsection, hchanged⟩ := h.getElem?_playedIn hn
  have hs := hP s (List.mem_of_getElem? hn)
  rw [hn', Option.some_inj] at hchanged
  rw [hchanged]
  split
  · next hedited => exact hchange s (hedited ▸ hsection) hs
  · exact hs

/-- The section has the pattern that is changed. -/
theorem pattern?_eq {s : Section} (hs : (sectionsIn root)[e.place]? = some s) :
    s.pattern? e.instrument e.line = some e.pattern := by
  have hpattern := h.pattern_eq
  rwa [hs, Option.bind_some] at hpattern

/-- A replacement whose ticks can be counted leaves no pattern whose ticks cannot. -/
theorem fits (hfits : ∀ s ∈ playedIn root, s.Fits)
    (hlength : span (kindsOf e.replacement.toList) = span (kindsOf e.pattern.toList)) :
    ∀ s ∈ playedIn root', s.Fits := by
  refine h.forall_playedIn hfits fun s hsection hs => Section.forall_withPattern hs ?_
  -- the replacement is as long as a pattern of the section
  obtain ⟨part, hpart, hline⟩ := Option.bind_eq_some_iff.mp (h.pattern?_eq hsection)
  rw [hlength]
  exact hs part (List.mem_of_find?_eq_some hpart) e.pattern (List.mem_of_getElem? hline)

/-- All sections keep their lengths, as long as the pattern does. -/
theorem map_length (hlength : lengthOf e.replacement.toList = lengthOf e.pattern.toList) :
    (playedIn root').map Section.length = (playedIn root).map Section.length := by
  refine h.map_playedIn fun s hs => ?_
  exact Section.length_withPattern (Section.isRead_of_mem_all (List.mem_of_getElem? hs))
    (h.pattern?_eq hs) hlength

omit h in
theorem channels_eq (played : List Section) :
    channels played = ((played.map fun s => s.parts.map Part.shape).flatten).foldl
      (fun found shape => widen shape.1 shape.2 found) [] := by
  rw [channels, ← List.flatMap_def, ← List.map_flatMap, List.foldl_map]
  rfl

/-- There are the same lines. -/
theorem staves_eq : staves (playedIn root') = staves (playedIn root) := by
  rw [staves, staves, channels_eq, channels_eq,
    h.map_playedIn fun s _ => Section.shape_withPattern]

theorem sampleLines_eq : sampleLines root' = sampleLines root := by
  rw [sampleLines, sampleLines, h.samples_eq]

/-- A plain document stays plain with a plain pattern. -/
theorem isPlainDocument (hplain : IsPlainDocument root) (hreplacement : IsPlain e.replacement.toList) :
    IsPlainDocument root' where
  sections := h.forall_playedIn hplain.sections fun _ _ hs =>
    Section.forall_withPattern hs hreplacement
  channels := by
    rw [h.samples_eq]
    refine h.forall_playedIn hplain.channels fun s _ hs part' hpart' => ?_
    -- the change leaves the instruments
    have hshape : part'.shape ∈ s.parts.map Part.shape := by
      rw [← Section.shape_withPattern]
      exact List.mem_map_of_mem hpart'
    obtain ⟨part, hpart, hsame⟩ := List.mem_map.mp hshape
    have hname : part.instrument = part'.instrument := congrArg Prod.fst hsame
    rw [← hname]
    exact hs part hpart

end Relates

end Edit

/-! ## The lines of the samples -/

/-- The registry that the samples of a document leave. -/
def sampleRegistry (root : List (Value × Value)) (r : Registry) : Registry :=
  (r.adopt ((sampleLines root).filterMap Heading.declaration?)).2

namespace IsPlainDocument

variable {root : List (Value × Value)} (h : IsPlainDocument root) (r : Registry)
include h

/-- No stave declares anything. -/
theorem registryIn_eq : registryIn root r = sampleRegistry root r := by
  have hnone : ((staves (playedIn root)).map fun stave =>
      flatLine (playedIn root) stave.1 stave.2).filterMap Heading.declaration? = [] := by
    rw [List.filterMap_eq_nil_iff]
    intro text htext
    obtain ⟨⟨instrument, line⟩, hstave, rfl⟩ := List.mem_map.mp htext
    exact Heading.declaration?_written_eq_none (h.instrument_of_mem_staves hstave).2.1
      (isContent_flatNotation h.sections instrument line)
  rw [registryIn, h.lines_text, List.filterMap_append, hnone, List.append_nil]
  rfl

/-- A line behind those of the samples is that of a stave. -/
theorem exists_stave_of_line {j : Nat} {l : Line}
    (hl : (compiled root r).lines[(sampleLines root).length + j]? = some l) :
    ∃ stave, (staves (playedIn root))[j]? = some stave := by
  have hlt := (List.getElem?_eq_some_iff.mp hl).1
  rw [h.length_compiled] at hlt
  exact ⟨_, List.getElem?_eq_getElem (Nat.add_lt_add_iff_left.mp hlt)⟩

/-- What is compiled of the lines of the samples depends on the samples alone. -/
theorem getElem?_compiled_of_lt {i : Nat} (hi : i < (sampleLines root).length) :
    (compiled root r).lines[i]? = (sampleLines root)[i]?.map ((sampleRegistry root r).lineOf i) := by
  rw [getElem?_lines_compiled, h.registryIn_eq, h.lines_text, List.getElem?_append_left hi]

end IsPlainDocument

/-! ## What is heard of a change -/

/-- What a line plays in a stretch of ticks, apart from how many tokens stand before it. -/
def musicWithin (l : Line) (first last : Nat) : List NoteEvent :=
  (l.events.filter fun e => e.startsWithin first last).map fun e => { e with tokenIndex := 0 }

/-- A change of one pattern of a plain document to a plain pattern of the same length keeps the lines
and the stretches of all sections.  On every line, what is played in the stretch of an instance of
another section is as before. -/
theorem music_of_edited_document {text text' : List Char} {root root' : List (Value × Value)}
    (hroot : rootOf? text = some root) (hroot' : rootOf? text' = some root')
    (hplain : IsPlainDocument root) (hanew : ∀ s ∈ playedIn root, s.StartsAnew)
    (hfits : ∀ s ∈ playedIn root, s.Fits) (htotal : totalTicks (playedIn root) < 2 ^ 64)
    {e : Edit} (hedit : e.Relates root root') (hreplacement : IsPlain e.replacement.toList)
    (hreplacementAnew : TokenKind.StartsAnew (kindsOf e.replacement.toList))
    (hlength : span (kindsOf e.replacement.toList) = span (kindsOf e.pattern.toList))
    (r : Registry) :
    let lines := (Composition.ofText (Arrangement.ofRoot root).text r).1.lines
    let lines' := (Composition.ofText (Arrangement.ofRoot root').text r).1.lines
    Arrangement.ofText? text = some (Arrangement.ofRoot root)
      ∧ Arrangement.ofText? text' = some (Arrangement.ofRoot root')
      ∧ lines'.length = lines.length
      ∧ (playedIn root').map Section.length = (playedIn root).map Section.length
      ∧ ∀ (n place : Nat) (s : Section), (placesIn root)[n]? = some place → place ≠ e.place →
        (playedIn root)[n]? = some s → ∀ (k : Nat) (l l' : Line), lines[k]? = some l →
          lines'[k]? = some l' →
            musicWithin l' (ticksBefore (playedIn root) n)
                (ticksBefore (playedIn root) n + s.length.toNat)
              = musicWithin l (ticksBefore (playedIn root) n)
                (ticksBefore (playedIn root) n + s.length.toNat) := by
  intro lines lines'
  have hplain' := hedit.isPlainDocument hplain hreplacement
  have hanew' : ∀ s ∈ playedIn root', s.StartsAnew :=
    hedit.forall_playedIn hanew fun _ _ hs => Section.forall_withPattern hs hreplacementAnew
  have hfits' := hedit.fits hfits hlength
  have hlengths : (playedIn root').map Section.length = (playedIn root).map Section.length :=
    hedit.map_length (by rw [lengthOf_eq, lengthOf_eq, hlength])
  have htotal' : totalTicks (playedIn root') < 2 ^ 64 := totalTicks_congr hlengths ▸ htotal
  refine ⟨by rw [Arrangement.ofText?, hroot]; rfl, by rw [Arrangement.ofText?, hroot']; rfl, ?_,
    hlengths, fun n place s hplace hother hn k l l' hl hl' => ?_⟩
  · have hcount := hplain.length_compiled r
    have hcount' := hplain'.length_compiled r
    rw [hedit.staves_eq, hedit.sampleLines_eq] at hcount'
    exact hcount'.trans hcount.symm
  -- the instance is one of the same section
  obtain ⟨found, hfound, -, hn'⟩ := hedit.getElem?_playedIn hn
  obtain rfl : place = found := Option.some_inj.mp (hplace.symm.trans hfound)
  rw [if_neg hother] at hn'
  by_cases hk : k < (sampleLines root).length
  · -- the lines of the samples are compiled as before
    have hline : lines'[k]? = lines[k]? := by
      have hk' : k < (sampleLines root').length := hedit.sampleLines_eq.symm ▸ hk
      have hcompiled := hplain.getElem?_compiled_of_lt r hk
      have hcompiled' := hplain'.getElem?_compiled_of_lt r hk'
      rw [sampleRegistry, hedit.sampleLines_eq] at hcompiled'
      exact hcompiled'.trans hcompiled.symm
    obtain rfl : l' = l := Option.some_inj.mp (hl'.symm.trans (hline.trans hl))
    rfl
  · obtain ⟨j, rfl⟩ := Nat.exists_eq_add_of_le (Nat.not_lt.mp hk)
    obtain ⟨⟨instrument, line⟩, hstave⟩ := hplain.exists_stave_of_line r hl
    obtain ⟨own, hown, hwithin⟩ := hplain.exists_stave_within hanew hfits htotal r hstave
    obtain ⟨own', hown', hwithin'⟩ := hplain'.exists_stave_within hanew' hfits' htotal' r
      (hedit.staves_eq.symm ▸ hstave)
    rw [hedit.sampleLines_eq] at hown' hwithin'
    obtain rfl : l = own := Option.some_inj.mp (hl.symm.trans hown)
    obtain rfl : l' = own' := Option.some_inj.mp (hl'.symm.trans hown')
    obtain ⟨behind, hmusic⟩ := hwithin n s hn
    obtain ⟨behind', hmusic'⟩ := hwithin' n s hn'
    rw [ticksBefore_congr hlengths] at hmusic'
    -- both are what the pattern plays by itself, moved by as many ticks
    rw [musicWithin, musicWithin, hmusic, hmusic', List.map_map, List.map_map]
    rfl

/-- Three notes of the piano become two dotted ones.  The section behind them starts a token earlier and
sounds as before. -/
theorem music_of_edited_document_of_dotted_notes :
    let textOf (pattern : String) := ['\n'].intercalate <| List.map String.toList
      ["samples:", "  vox: file:///v.wav", "sections:", "  a:", "    piano: " ++ pattern,
        "    bass: C2", "  b:", "    piano: G4", "song: [a, b x2]"]
    ∃ root root', rootOf? (textOf "C4 D4 E4") = some root ∧ rootOf? (textOf "C4. D4.") = some root'
      ∧ placesIn root = [0, 1, 1]
      ∧ ∃ l l', (compiled root Registry.empty).lines[1]? = some l
        ∧ (compiled root' Registry.empty).lines[1]? = some l'
        ∧ l.tokens.length = 5 ∧ (musicWithin l 3840 4800).map NoteEvent.notes = [["G4"]]
        ∧ l'.tokens.length = 4 ∧ musicWithin l' 3840 4800 = musicWithin l 3840 4800 := by
  intro textOf
  let e : Edit := ⟨0, "piano", 0, "C4 D4 E4", "C4. D4."⟩
  obtain ⟨root, root', hroot, hroot', ⟨hplain, hanew, hfits, htotal, hedit⟩, hplaces, hbefore, hlast,
      hline, hline'⟩ :
      ∃ root root', rootOf? (textOf "C4 D4 E4") = some root ∧ rootOf? (textOf "C4. D4.") = some root'
        ∧ (IsPlainDocument root ∧ (∀ s ∈ playedIn root, s.StartsAnew) ∧ (∀ s ∈ playedIn root, s.Fits)
          ∧ totalTicks (playedIn root) < 2 ^ 64 ∧ e.Relates root root')
        ∧ placesIn root = [0, 1, 1] ∧ ticksBefore (playedIn root) 2 = 3840
        ∧ ((playedIn root)[2]?.map fun s => s.length.toNat) = some 960
        ∧ ((compiled root Registry.empty).lines[1]?.map fun l =>
          (l.tokens.length, (musicWithin l 3840 4800).map NoteEvent.notes)) = some (5, [["G4"]])
        ∧ ((compiled root' Registry.empty).lines[1]?.map fun l => l.tokens.length) = some 4 :=
    exists_roots (by decide +kernel)
  obtain ⟨l, hl, hfound⟩ := Option.map_eq_some_iff.mp hline
  obtain ⟨l', hl', hcount'⟩ := Option.map_eq_some_iff.mp hline'
  obtain ⟨hcount, hnotes⟩ := Prod.mk.inj hfound
  obtain ⟨s, hs, hlength⟩ := Option.map_eq_some_iff.mp hlast
  obtain ⟨-, -, -, -, hmusic⟩ := music_of_edited_document hroot hroot' hplain hanew hfits htotal hedit
    (by decide +kernel) (by decide +kernel) (by decide +kernel) Registry.empty
  have hsame := hmusic 2 1 s (by rw [hplaces]; rfl) (by decide) hs 1 l l' hl hl'
  rw [hbefore, hlength] at hsame
  exact ⟨root, root', hroot, hroot', hplaces, l, l', hl, hl', hcount, hnotes, hcount', hsame⟩

/-- A bracket that is opened and not closed, instead of a note: by itself it takes the one beat that the
note takes, but on the line it goes on over the note of the section behind it. -/
theorem open_bracket_takes_next_section :
    let textOf (pattern : String) := ['\n'].intercalate <| List.map String.toList
      ["sections:", "  a:", "    piano: " ++ pattern, "  b:", "    piano: D4"]
    let e : Edit := ⟨0, "piano", 0, "C4", "[C4"⟩
    ∃ root root', rootOf? (textOf "C4") = some root ∧ rootOf? (textOf "\"[C4\"") = some root'
      ∧ e.Relates root root' ∧ lengthOf "C4".toList = Ticks.beat ∧ lengthOf "[C4".toList = Ticks.beat
      ∧ IsPlainDocument root ∧ (∀ s ∈ playedIn root, s.StartsAnew)
      ∧ (∀ s ∈ playedIn root', s.StartsAnew)
      ∧ placesIn root = [0, 1] ∧ (playedIn root').map Section.length = [Ticks.beat, Ticks.beat]
      ∧ ((compiled root Registry.empty).lines.map fun l =>
        (musicWithin l 960 1920).map NoteEvent.notes) = [[["D4"]]]
      ∧ ((compiled root' Registry.empty).lines.map fun l =>
        (musicWithin l 960 1920).map NoteEvent.notes) = [[]] := by
  intro textOf e
  exact exists_roots (by decide +kernel)

end Stave.Song
