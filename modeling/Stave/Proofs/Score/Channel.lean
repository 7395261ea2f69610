import Stave.Proofs.Score.Registry
import Stave.Proofs.Text.Lines
import Stave.Score.Composition

/-!
# Finding the channel of a line

A line that is written as the name of a channel, a colon, a space and notation is read back as that:
its notation is played on the channel as soon as the registry has it, and the registry has what is
built in and what any line of the text declares.
-/

namespace Stave

/-! ## Written lines -/

/-- Whether a text can be the name of a channel at the start of a line. -/
def IsChannelName (name : List Char) : Prop := name ≠ [] ∧ ∀ c ∈ name, Heading.inName c = true

instance (name : List Char) : Decidable (IsChannelName name) :=
  decidable_of_iff (name ≠ [] ∧ name.all Heading.inName = true)
    (and_congr_right fun _ => List.all_eq_true)

/-- A line as it is written for a channel. -/
def written (name content : List Char) : List Char := name ++ ':' :: ' ' :: content

/-- Notation that can stand behind the name on a written line. -/
structure IsContent (text : List Char) : Prop where
  trimmed : Text.IsTrimmed text
  oneLine : '\n' ∉ text
  notUrl : isUrl text = false

theorem isContent_nil : IsContent [] := ⟨Text.isTrimmed_nil, List.not_mem_nil, rfl⟩

/-- A written line is one line. -/
theorem lines_written {name content : List Char} (hname : '\n' ∉ name) (hcontent : '\n' ∉ content) :
    Text.lines (written name content) = [written name content] := by
  apply Text.lines_of_notMem
  · simp [written]
  · simp [written, hname, hcontent]

theorem IsChannelName.oneLine {name : List Char} (h : IsChannelName name) : '\n' ∉ name :=
  fun hmem => absurd (h.2 _ hmem) (by decide)

/-- A written line ends within the line, also where nothing stands behind the name. -/
theorem endsInLine_written (name : List Char) {content : List Char}
    (h : ∀ c ∈ content.getLast?, Text.isBlank c = false) :
    Text.EndsInLine (written name content) := by
  cases hlast : content.getLast? with
  | none =>
    have hnil : content = [] := List.getLast?_eq_none_iff.mp hlast
    exact ⟨' ', by simp [written, hnil], by decide, by decide⟩
  | some c =>
    -- blanks include the characters of a line ending
    have hblank : Text.isBlank c = false := h c hlast
    refine ⟨c, by simp [written, List.getLast?_cons, hlast], ?_, ?_⟩
    · rintro rfl
      cases hblank
    · rintro rfl
      cases hblank

/-! ## Headings -/

theorem Heading.inName_toLower {c : Char} (h : inName c = true) : inName c.toLower = true := by
  obtain hsame | hlower := Text.toLower_eq_or_isLower c
  · rwa [hsame]
  · have halpha : c.toLower.isAlpha = true := Bool.or_eq_true_iff.mpr (.inr hlower)
    simp [inName, Char.isAlphanum, halpha]

theorem IsChannelName.lowercase {name : List Char} (h : IsChannelName name) :
    IsChannelName (Text.lowercase (String.ofList name)).toList := by
  rw [Text.lowercase, String.toList_ofList, String.toList_ofList]
  refine ⟨by simpa using h.1, fun c hc => ?_⟩
  obtain ⟨upper, hupper, rfl⟩ := List.mem_map.mp hc
  exact Heading.inName_toLower (h.2 upper hupper)

theorem Heading.isChannelName_of_read? {line : List Char} {h : Heading} (hread : read? line = some h) :
    IsChannelName h.name := by
  rw [read?] at hread
  split at hread
  · split at hread
    · cases hread
    · next hne =>
      cases hread
      exact ⟨by simpa using hne, fun c hc => List.mem_takeWhile_imp hc⟩
  · cases hread

/-- What a line declares has a name that could begin a line, in lower case. -/
theorem Heading.name_of_declaration? {line : List Char} {d : Declaration}
    (h : declaration? line = some d) :
    IsChannelName d.name.toList ∧ Text.lowercase d.name = d.name := by
  obtain ⟨heading, hread, hd⟩ := Option.bind_eq_some_iff.mp h
  dsimp only at hd
  split at hd
  · cases hd
    exact ⟨(isChannelName_of_read? hread).lowercase, Text.lowercase_lowercase _⟩
  · cases hd

/-- A line is read as a name as soon as a colon stands behind one. -/
theorem Heading.read?_append {name : List Char} (hname : IsChannelName name) (rest : List Char) :
    read? (name ++ ':' :: rest)
      = some ⟨name, rest.takeWhile Text.isBlank, rest.dropWhile Text.isBlank⟩ := by
  -- the name ends at the colon
  have htake : (name ++ ':' :: rest).takeWhile inName = name := by
    rw [List.takeWhile_append_of_pos hname.2]
    simp [inName]
  rw [read?, htake]
  simp only [List.drop_left, List.isEmpty_eq_false_iff.mpr hname.1]
  rfl

/-- The parts of a line that is read are the line. -/
theorem Heading.eq_of_read? {line : List Char} {h : Heading} (hread : read? line = some h) :
    line = h.name ++ ':' :: (h.gap ++ h.content) := by
  rw [read?] at hread
  split at hread
  · next rest hrest =>
    split at hread
    · cases hread
    · cases hread
      dsimp only
      have hname := List.prefix_iff_eq_take.mp (List.takeWhile_prefix (l := line) inName)
      rw [List.takeWhile_append_dropWhile, ← hrest]
      conv_rhs => lhs; rw [hname]
      exact (List.take_append_drop _ line).symm
  · cases hread

theorem Heading.read?_written {name content : List Char} (hname : IsChannelName name)
    (hcontent : ∀ c ∈ content.head?, Text.isBlank c = false) :
    read? (written name content) = some ⟨name, [' '], content⟩ := by
  have hspace : Text.isBlank ' ' = true := rfl
  rw [written, read?_append hname]
  cases content with
  | nil => rfl
  | cons c rest => simp [hcontent c rfl, hspace]

theorem isBlank_of_isUrl {text : List Char} (h : isUrl text = true) :
    ∀ c ∈ text, Text.isBlank c = false := by
  rw [isUrl] at h
  split at h
  · have hany := (Bool.and_eq_true_iff.mp h).2
    simpa using hany
  · cases h

theorem isTrimmed_of_isUrl {text : List Char} (h : isUrl text = true) : Text.IsTrimmed text where
  head c hc := isBlank_of_isUrl h c (List.mem_of_mem_head? hc)
  last c hc := isBlank_of_isUrl h c (List.mem_of_mem_getLast? hc)

theorem isUrl_of_space {text : List Char} (h : ' ' ∈ text) : isUrl text = false := by
  rw [Bool.eq_false_iff]
  intro hurl
  have hblank : Text.isBlank ' ' = false := isBlank_of_isUrl hurl ' ' h
  cases hblank

/-- A written line whose content is an address declares it. -/
theorem Heading.declaration?_written {name url : List Char} (hname : IsChannelName name)
    (hurl : isUrl url = true) :
    declaration? (written name url)
      = some ⟨Text.lowercase (String.ofList name), String.ofList url⟩ := by
  have htrimmed := isTrimmed_of_isUrl hurl
  have hread := read?_written hname htrimmed.head
  simp [declaration?, hread, Text.trimEnd_eq_self htrimmed.last, hurl, channelName]

/-- A written line of notation declares nothing. -/
theorem Heading.declaration?_written_eq_none {name content : List Char}
    (hname : IsChannelName name) (h : IsContent content) :
    declaration? (written name content) = none := by
  have hread := read?_written hname h.trimmed.head
  simp [declaration?, hread, Text.trimEnd_eq_self h.trimmed.last, h.notUrl]

/-- A heading that is read off a line whose text before the colon is no name of a channel ends within
that text. -/
theorem Heading.content_of_read?_written {name content : List Char} (hname : ¬IsChannelName name)
    {h : Heading} (hread : read? (written name content) = some h) :
    ∃ front, h.content = front ++ ':' :: ' ' :: content := by
  obtain ⟨front, behind, rfl, hfront, hbehind⟩ : ∃ front behind, name = front ++ behind
      ∧ (∀ c ∈ front, inName c = true) ∧ ∀ c ∈ behind.head?, inName c = false :=
    ⟨name.takeWhile inName, name.dropWhile inName, List.takeWhile_append_dropWhile.symm,
      fun c hc => List.mem_takeWhile_imp hc, fun c hc => by
        have hend := List.head?_dropWhile_not inName name
        rwa [Option.mem_def.mp hc] at hend⟩
  cases behind with
  | nil =>
    -- there is nothing in front of the colon
    obtain rfl : front = [] := by
      by_contra hne
      exact hname ⟨by simpa using hne, by simpa using hfront⟩
    cases hread
  | cons c rest =>
    have htake : (written (front ++ c :: rest) content).takeWhile inName = front := by
      rw [written, List.append_assoc, List.takeWhile_append_of_pos hfront]
      simp [hbehind c rfl]
    have hdrop : (written (front ++ c :: rest) content).drop front.length
        = c :: (rest ++ ':' :: ' ' :: content) := by
      simp [written]
    rw [read?] at hread
    simp only [htake, hdrop] at hread
    split at hread
    · next behind heq =>
      obtain ⟨-, rfl⟩ := List.cons.inj heq
      split at hread
      · cases hread
      · cases hread
        exact Text.trimStart_append_cons rest rfl _
    · cases hread

/-- A line whose text before the colon is no name of a channel declares nothing: what could be declared
has the space behind that colon in it. -/
theorem Heading.declaration?_written_of_not {name content : List Char} (hname : ¬IsChannelName name)
    (hne : content ≠ []) (hcontent : Text.IsTrimmed content) :
    declaration? (written name content) = none := by
  rw [declaration?, Option.bind_eq_none_iff]
  intro h hread
  obtain ⟨front, hfront⟩ := content_of_read?_written hname hread
  have hlast : ∀ c ∈ h.content.getLast?, Text.isBlank c = false := by
    intro c hc
    apply hcontent.last
    rw [hfront] at hc
    simpa [List.getLast?_append, List.getLast?_cons_of_ne_nil hne, hne] using hc
  have hblank : ' ' ∈ Text.trimEnd h.content := by
    rw [Text.trimEnd_eq_self hlast, hfront]
    simp
  simp [isUrl_of_space hblank]

/-! ## Compiled lines -/

/-- A compiled line of notation that is played on a channel. -/
def Line.playing (lineIndex : Nat) (instrument : String) (contentStart : Nat)
    (content : List Char) : Line :=
  { tokens := tokensOf content
    events := (eventsOf (tokensOf content) lineIndex instrument).1
    instrument
    contentStart
    length := (eventsOf (tokensOf content) lineIndex instrument).2
    declaration := none }

namespace Registry

/-- The channel of a line has a name that could begin the line. -/
theorem isChannelName_lineOf (r : Registry) (lineIndex : Nat) (line : List Char) :
    IsChannelName (r.lineOf lineIndex line).instrument.toList := by
  rw [lineOf]
  split
  · next d hd => exact (Heading.name_of_declaration? hd).1
  · show IsChannelName (r.channelOf line).instrument.toList
    rw [channelOf]
    split
    · next h hfound =>
      exact (Heading.isChannelName_of_read? (Option.filter_eq_some_iff.mp hfound).1).lowercase
    · have hdefault : IsChannelName defaultInstrument.toList := by decide
      exact hdefault

/-- A line that begins with the name of a channel of the registry plays its content on that channel. -/
theorem lineOf_of_read? (r : Registry) (lineIndex : Nat) {line : List Char} {h : Heading}
    (hread : Heading.read? line = some h) (hdeclares : Heading.declaration? line = none)
    (hchannel : r.contains (String.ofList h.name) = true) :
    r.lineOf lineIndex line = Line.playing lineIndex h.channelName h.contentStart h.content := by
  have hchannelOf : r.channelOf line = ⟨h.channelName, h.content, h.contentStart⟩ := by
    simp [channelOf, hread, Option.filter, hchannel]
  rw [lineOf, hdeclares, hchannelOf]
  rfl

/-- A written line of notation on a channel that the registry has. -/
theorem lineOf_written (r : Registry) (lineIndex : Nat) {name content : List Char}
    (hname : IsChannelName name) (h : IsContent content)
    (hchannel : r.contains (String.ofList name) = true) :
    r.lineOf lineIndex (written name content)
      = { tokens := tokensOf content
          events := (eventsOf (tokensOf content) lineIndex (Text.lowercase (String.ofList name))).1
          instrument := Text.lowercase (String.ofList name)
          contentStart := Text.width name + 2
          length := (eventsOf (tokensOf content) lineIndex (Text.lowercase (String.ofList name))).2
          declaration := none } :=
  r.lineOf_of_read? lineIndex (Heading.read?_written hname h.trimmed.head)
    (Heading.declaration?_written_eq_none hname h) hchannel

end Registry

end Stave
