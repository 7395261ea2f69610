import Stave.Proofs.Song.FlatText

/-!
# The samples of a document

A sample comes out of the flat text as a channel when its name can begin a line, that is, when it is a
run of letters, digits and underscores.  The channel has the address that is given last, and the staves
of the name play on it.  A sample of any other name is lost: its line declares nothing.
-/

namespace Stave.Song

open Yaml

/-- Nothing that a document puts on one line of its flat text has a line feed in it. -/
structure KeepsLines (root : List (Value × Value)) : Prop where
  names : ∀ d ∈ samplesIn root, '\n' ∉ d.name.toList
  lines : ∀ stave ∈ staves (playedIn root), '\n' ∉ flatLine (playedIn root) stave.1 stave.2

instance (root : List (Value × Value)) : Decidable (KeepsLines root) :=
  decidable_of_iff
    ((∀ d ∈ samplesIn root, '\n' ∉ d.name.toList)
      ∧ ∀ stave ∈ staves (playedIn root), '\n' ∉ flatLine (playedIn root) stave.1 stave.2)
    ⟨fun ⟨h₁, h₂⟩ => ⟨h₁, h₂⟩, fun h => ⟨h.names, h.lines⟩⟩

/-! ## Lines of samples -/

/-- The names of samples are in lower case. -/
theorem lowercase_of_mem_samplesIn {root : List (Value × Value)} {d : Declaration}
    (h : d ∈ samplesIn root) : Text.lowercase d.name = d.name := by
  obtain ⟨⟨key, value⟩, -, hd⟩ := List.mem_filterMap.mp h
  obtain ⟨name, hname, hrest⟩ := Option.bind_eq_some_iff.mp hd
  obtain ⟨url, -, hurl⟩ := Option.bind_eq_some_iff.mp hrest
  rw [Overrides.channelName?] at hname
  obtain ⟨text, -, hlower⟩ := Option.map_eq_some_iff.mp hname
  dsimp only at hurl
  split at hurl
  · cases hurl
    rw [← hlower]
    exact Text.lowercase_lowercase _
  · cases hurl

/-- The line of a sample declares it, if its name can begin a line, and else nothing. -/
theorem declaration?_sampleLine {root : List (Value × Value)} {d : Declaration}
    (h : d ∈ samplesIn root) :
    Heading.declaration? (sampleLine d) = if IsChannelName d.name.toList then some d else none := by
  have hurl := isUrl_of_mem_samplesIn h
  split
  · next hname =>
    have hdeclares := Heading.declaration?_written hname hurl
    rw [String.ofList_toList, String.ofList_toList, lowercase_of_mem_samplesIn h] at hdeclares
    exact hdeclares
  · next hname =>
    refine Heading.declaration?_written_of_not hname (fun hnil => ?_) (isTrimmed_of_isUrl hurl)
    rw [hnil] at hurl
    cases hurl

namespace KeepsLines

variable {root : List (Value × Value)} (h : KeepsLines root)
include h

theorem sampleLines_eq : sampleLines root = (samplesIn root).map sampleLine := by
  rw [sampleLines, List.map_eq_flatMap]
  exact List.flatMap_congr fun d hd => lines_sampleLine (h.names d hd) (isUrl_of_mem_samplesIn hd)

/-- The flat text has a line for each sample and then one for each stave. -/
theorem lines_text :
    Text.lines (Arrangement.ofRoot root).text = (samplesIn root).map sampleLine
      ++ (staves (playedIn root)).map fun stave => flatLine (playedIn root) stave.1 stave.2 := by
  rw [lines_text_ofRoot, h.sampleLines_eq, List.map_eq_flatMap (l := staves _)]
  refine congrArg _ (List.flatMap_congr fun stave hstave => ?_)
  exact Text.lines_of_notMem (by simp [flatLine]) (h.lines stave hstave)

/-- What the flat text declares under a name that no stave declares: all samples of the name, if it can
begin a line, and else nothing. -/
theorem filter_declared {name : String}
    (hstaves : ∀ stave ∈ staves (playedIn root),
      ∀ e ∈ Heading.declaration? (flatLine (playedIn root) stave.1 stave.2), e.name ≠ name) :
    ((Text.lines (Arrangement.ofRoot root).text).filterMap Heading.declaration?).filter
        (fun e => e.name == name)
      = if IsChannelName name.toList then (samplesIn root).filter fun s => s.name == name else [] := by
  have hsamples : ((samplesIn root).map sampleLine).filterMap Heading.declaration?
      = (samplesIn root).filter fun s => decide (IsChannelName s.name.toList) := by
    rw [List.filterMap_map, ← List.filterMap_eq_filter]
    refine List.filterMap_congr fun s hs => ?_
    simp [declaration?_sampleLine hs, Option.guard]
  have hnone : (((staves (playedIn root)).map fun stave =>
      flatLine (playedIn root) stave.1 stave.2).filterMap Heading.declaration?).filter
        (fun e => e.name == name) = [] := by
    rw [List.filter_eq_nil_iff]
    intro e he
    obtain ⟨text, htext, hdeclares⟩ := List.mem_filterMap.mp he
    obtain ⟨stave, hstave, rfl⟩ := List.mem_map.mp htext
    simpa using hstaves stave hstave e hdeclares
  rw [h.lines_text, List.filterMap_append, List.filter_append, hnone, List.append_nil, hsamples,
    List.filter_filter]
  split
  · next hname =>
    refine List.filter_congr fun s _ => ?_
    by_cases hs : s.name = name
    · simp [hs, hname]
    · simp [hs]
  · next hname =>
    rw [List.filter_eq_nil_iff]
    intro s _ hs
    obtain ⟨hsame, hown⟩ := Bool.and_eq_true_iff.mp hs
    rw [eq_of_beq hsame] at hown
    exact hname (of_decide_eq_true hown)

/-- The channel of a sample after the flat text is compiled. -/
theorem get?_registryIn {name : String} (hlower : Text.lowercase name = name)
    (hforeign : Registry.isBuiltin name = false)
    (hstaves : ∀ stave ∈ staves (playedIn root),
      ∀ e ∈ Heading.declaration? (flatLine (playedIn root) stave.1 stave.2), e.name ≠ name)
    (r : Registry) :
    (registryIn root r).get? name
      = if IsChannelName name.toList then
          ((samplesIn root).filter fun s => s.name == name).getLast?.map Declaration.channel
        else none := by
  -- what is declared has its name in lower case already
  have hdeclared : ∀ e ∈ (Text.lines (Arrangement.ofRoot root).text).filterMap Heading.declaration?,
      Text.lowercase e.name = e.name := by
    intro e he
    obtain ⟨line, -, hdeclares⟩ := List.mem_filterMap.mp he
    exact (Heading.name_of_declaration? hdeclares).2
  have hfilter := h.filter_declared hstaves
  rw [registryIn, Registry.adopt_snd, Registry.get?_wanted _ hforeign, hlower]
  rw [List.filter_congr fun e he => by rw [hdeclared e he], hfilter]
  split
  · refine Option.map_congr fun e he => ?_
    have hmem := List.mem_of_mem_filter (List.mem_of_mem_getLast? he)
    rw [Declaration.keyed, lowercase_of_mem_samplesIn hmem]
  · rfl

/-- The line of a stave whose instrument has a channel. -/
theorem getElem?_compiled {k line : Nat} {name : String}
    (hstave : (staves (playedIn root))[k]? = some (name, line)) (hlower : Text.lowercase name = name)
    (hname : IsChannelName name.toList)
    (hnotUrl : isUrl (flatNotation (playedIn root) name line) = false) (r : Registry)
    (hchannel : (registryIn root r).contains name = true) :
    let tokens := tokensOf (flatNotation (playedIn root) name line)
    let lineIndex := (samplesIn root).length + k
    (compiled root r).lines[lineIndex]?
      = some
        { tokens
          events := (eventsOf tokens lineIndex name).1
          instrument := name
          contentStart := Text.width name.toList + 2
          length := (eventsOf tokens lineIndex name).2
          declaration := none } := by
  intro tokens lineIndex
  have htext : (Text.lines (Arrangement.ofRoot root).text)[lineIndex]?
      = some (flatLine (playedIn root) name line) := by
    rw [h.lines_text, List.getElem?_append_right (by simp [lineIndex]), List.length_map,
      Nat.add_sub_cancel_left, List.getElem?_map, hstave]
    rfl
  have hcontent : IsContent (flatNotation (playedIn root) name line) := by
    refine ⟨isTrimmed_flatNotation _ _ _, fun hfeed => ?_, hnotUrl⟩
    exact h.lines _ (List.mem_of_getElem? hstave) (by simp [flatLine, hfeed])
  have hline := (registryIn root r).lineOf_written lineIndex hname hcontent
    (by rw [String.ofList_toList]; exact hchannel)
  rw [String.ofList_toList, hlower] at hline
  rw [getElem?_lines_compiled, htext]
  exact congrArg some hline

end KeepsLines

/-- A sample whose name can begin a line has a channel after the document is compiled, with the address
that is given last for the name, and the lines of the staves of that name are the notation that the
sections leave for them, on that channel.  A sample of another name has no channel and no line. -/
theorem samples_of_document {text : List Char} {root : List (Value × Value)}
    (hroot : rootOf? text = some root) (hkeeps : KeepsLines root) {d : Declaration}
    (hd : d ∈ samplesIn root) (hforeign : Registry.isBuiltin d.name = false)
    (hstaves : ∀ stave ∈ staves (playedIn root),
      ∀ e ∈ Heading.declaration? (flatLine (playedIn root) stave.1 stave.2), e.name ≠ d.name)
    (r : Registry) :
    let result := Compiled.ofText text r
    (Arrangement.ofText? text).map Arrangement.samples = some (samplesIn root)
      ∧ (IsChannelName d.name.toList →
        (∃ last, ((samplesIn root).filter fun s => s.name == d.name).getLast? = some last
          ∧ result.2.get? d.name = some last.channel)
        ∧ ∀ k line : Nat, (staves (playedIn root))[k]? = some (d.name, line) →
          let tokens := tokensOf (flatNotation (playedIn root) d.name line)
          let lineIndex := (samplesIn root).length + k
          result.1.composition.lines[lineIndex]?
            = some
              { tokens
                events := (eventsOf tokens lineIndex d.name).1
                instrument := d.name
                contentStart := Text.width d.name.toList + 2
                length := (eventsOf tokens lineIndex d.name).2
                declaration := none })
      ∧ (¬IsChannelName d.name.toList →
        result.2.get? d.name = none
          ∧ ∀ l ∈ result.1.composition.lines, l.instrument ≠ d.name) := by
  intro result
  have harrangement : Arrangement.ofText? text = some (Arrangement.ofRoot root) := by
    rw [Arrangement.ofText?, hroot]
    rfl
  have hresult : result = (⟨compiled root r, Overrides.ofRoot root,
      some (Arrangement.ofRoot root).text⟩, registryIn root r) := by
    show Compiled.ofText text r = _
    rw [Compiled.ofText, harrangement]
    rfl
  have hlower := lowercase_of_mem_samplesIn hd
  have hget := hkeeps.get?_registryIn hlower hforeign hstaves r
  rw [hresult]
  refine ⟨by rw [harrangement]; rfl, fun hname => ?_, fun hname => ⟨?_, ?_⟩⟩
  · rw [if_pos hname] at hget
    have hnamed : d ∈ (samplesIn root).filter fun s => s.name == d.name :=
      List.mem_filter.mpr ⟨hd, beq_self_eq_true _⟩
    obtain ⟨last, hlast⟩ : ∃ last,
        ((samplesIn root).filter fun s => s.name == d.name).getLast? = some last :=
      ⟨_, List.getLast?_eq_some_getLast (List.ne_nil_of_mem hnamed)⟩
    rw [hlast] at hget
    refine ⟨⟨last, hlast, hget⟩, fun k line hstave => ?_⟩
    have hnotUrl : isUrl (flatNotation (playedIn root) d.name line) = false := by
      -- an address would be declared
      rw [Bool.eq_false_iff]
      intro hurl
      have hdeclares := Heading.declaration?_written hname hurl
      rw [String.ofList_toList, hlower] at hdeclares
      exact hstaves _ (List.mem_of_getElem? hstave) _ hdeclares rfl
    exact hkeeps.getElem?_compiled hstave hlower hname hnotUrl r (by rw [Registry.contains, hget]; rfl)
  · rw [hget, if_neg hname]
  · intro l hl heq
    obtain ⟨i, hi, rfl⟩ := List.mem_mapIdx.mp hl
    exact hname (heq ▸ (registryIn root r).isChannelName_lineOf i _)

/-- Of two addresses for one name, written in different cases, the second counts; the line of the sample
plays what its section has for it. -/
theorem samples_of_document_of_two_addresses :
    let text := ['\n'].intercalate <| List.map String.toList
      ["samples:", "  Vox: file:///a.wav", "  vox: file:///b.wav", "sections:", "  a:",
        "    piano: C4 D4", "    vox: x"]
    let result := Compiled.ofText text Registry.empty
    (Arrangement.ofText? text).map Arrangement.samples
        = some [⟨"vox", "file:///a.wav"⟩, ⟨"vox", "file:///b.wav"⟩]
      ∧ result.2.get? "vox" = some (Declaration.channel ⟨"vox", "file:///b.wav"⟩)
      ∧ ∃ l, result.1.composition.lines[3]? = some l ∧ l.instrument = "vox" ∧ l.contentStart = 5
        ∧ l.tokens = tokensOf "x -".toList := by
  intro text result
  obtain ⟨root, hroot, hkeeps, hsamples, hstaves, hplayed⟩ :
      ∃ root, rootOf? text = some root ∧ KeepsLines root
        ∧ samplesIn root = [⟨"vox", "file:///a.wav"⟩, ⟨"vox", "file:///b.wav"⟩]
        ∧ (∀ stave ∈ staves (playedIn root),
          ∀ e ∈ Heading.declaration? (flatLine (playedIn root) stave.1 stave.2), e.name ≠ "vox")
        ∧ (staves (playedIn root))[1]? = some ("vox", 0)
          ∧ flatNotation (playedIn root) "vox" 0 = "x -".toList :=
    exists_root (by decide +kernel)
  have hd : (⟨"vox", "file:///a.wav"⟩ : Declaration) ∈ samplesIn root := by
    rw [hsamples]
    exact List.mem_cons_self
  obtain ⟨hdeclared, hchannel, -⟩ :=
    samples_of_document hroot hkeeps hd (by decide) hstaves Registry.empty
  obtain ⟨⟨last, hlast, hget⟩, hlines⟩ := hchannel (by decide)
  rw [hsamples] at hdeclared hlast
  obtain rfl : ⟨"vox", "file:///b.wav"⟩ = last := by simpa using hlast
  have hline := hlines 1 0 hplayed.1
  rw [hsamples] at hline
  have hwidth : Text.width "vox".toList + 2 = 5 := by decide
  exact ⟨hdeclared, hget, _, hline, rfl, hwidth, congrArg tokensOf hplayed.2⟩

/-- A name with a blank in it, which no line can begin with: the document declares the sample, and the
registry does not have it.  The line that should play it is notation for the piano. -/
theorem sample_with_blank_is_lost :
    let text := ['\n'].intercalate <| List.map String.toList
      ["samples:", "  my vox: https://example.com/vox.wav", "sections:", "  a:", "    my vox: x - x"]
    let d : Declaration := ⟨"my vox", "https://example.com/vox.wav"⟩
    let result := Compiled.ofText text Registry.empty
    (Arrangement.ofText? text).map Arrangement.samples = some [d]
      ∧ Registry.isBuiltin d.name = false ∧ result.2.get? d.name = none
      ∧ result.1.expanded
        = some "my vox: https://example.com/vox.wav\nmy vox: x - x".toList
      ∧ (result.1.composition.lines.map fun l => (l.instrument, l.contentStart, l.countInvalid))
        = [("piano", 0, 3), ("piano", 0, 2)] := by
  decide +kernel

end Stave.Song
