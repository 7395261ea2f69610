import Mathlib.Logic.Equiv.Basic
import Stave.Proofs.Score.Channel
import Stave.Proofs.Time.Ticks

/-!
# What a compiled line depends on

A line is compiled from its own text and from which channels there are, and which channels there are
is said by the declarations of the text alone, wherever they stand.  So neither what the registry
held before nor the other lines of notation can be seen in a compiled line, and lines that change
places are compiled as before but for the place that their events name.
-/

namespace Stave

/-! ## Lines in another place -/

/-- The event as an event of line `lineIndex`. -/
def NoteEvent.onLine (lineIndex : Nat) (e : NoteEvent) : NoteEvent := { e with lineIndex }

/-- The compiled line as line `lineIndex` of a text. -/
def Line.onLine (lineIndex : Nat) (l : Line) : Line :=
  { l with events := l.events.map (NoteEvent.onLine lineIndex) }

theorem Line.sounds_onLine (lineIndex : Nat) (l : Line) : (l.onLine lineIndex).sounds = l.sounds := by
  simp [sounds, onLine]

namespace Cursor

/-- The cursor on another line. -/
def onLine (lineIndex : Nat) (c : Cursor) : Cursor :=
  { c with lineIndex, events := c.events.map (NoteEvent.onLine lineIndex) }

theorem onLine_skip (lineIndex : Nat) (c : Cursor) (duration : Ticks) :
    (c.onLine lineIndex).skip duration = (c.skip duration).onLine lineIndex := rfl

theorem onLine_emit (lineIndex : Nat) (c : Cursor) (notes : List String) (duration : Ticks)
    (soft : Bool) (tokens : Nat) :
    (c.onLine lineIndex).emit notes duration soft tokens
      = (c.emit notes duration soft tokens).onLine lineIndex := by
  simp [onLine, emit, NoteEvent.onLine]

/-- A walk does not look at the line it is on. -/
theorem onLine_walk (lineIndex : Nat) (c : Cursor) (kinds : List TokenKind) :
    (c.onLine lineIndex).walk kinds = (c.walk kinds).onLine lineIndex := by
  fun_induction walk c kinds with
  | case1 c => rw [walk]
  | case2 c later ih | case3 c later ih | case4 c later ih => rw [walk, onLine_skip, ih]
  | case5 c later ih | case6 c notes later ih | case7 c n later ih => rw [walk, onLine_emit, ih]

end Cursor

theorem eventsOf_onLine (tokens : List Token) (i j : Nat) (instrument : String) :
    eventsOf tokens j instrument
      = ((eventsOf tokens i instrument).1.map (NoteEvent.onLine j),
          (eventsOf tokens i instrument).2) := by
  have hstart : Cursor.start j instrument = (Cursor.start i instrument).onLine j := by
    simp [Cursor.start, Cursor.onLine]
  rw [eventsOf, hstart, Cursor.onLine_walk]
  simp [eventsOf, Cursor.onLine]

namespace Registry

/-- Wherever a line stands it is compiled in the same way. -/
theorem lineOf_onLine (r : Registry) (i j : Nat) (line : List Char) :
    r.lineOf j line = (r.lineOf i line).onLine j := by
  rw [lineOf, lineOf]
  cases Heading.declaration? line with
  | some declaration => rfl
  | none =>
    simp only [eventsOf_onLine _ i j]
    rfl

/-- Of a registry a compiled line shows no more than which channels there are. -/
theorem lineOf_congr {r s : Registry} (h : ∀ name, r.contains name = s.contains name)
    (lineIndex : Nat) (line : List Char) : r.lineOf lineIndex line = s.lineOf lineIndex line := by
  have hchannel : r.channelOf line = s.channelOf line := by
    rw [channelOf, channelOf]
    simp only [h]
  rw [lineOf, lineOf, hchannel]

end Registry

namespace Composition

/-! ## The registry of a text -/

theorem ofText_eq (text : List Char) (r : Registry) :
    ofText text r
      = (⟨(Text.lines text).mapIdx
            (Registry.wanted ((Text.lines text).filterMap Heading.declaration?)).lineOf⟩,
          Registry.wanted ((Text.lines text).filterMap Heading.declaration?)) := by
  simp only [ofText, Registry.adopt_snd]

/-- The channels that there are for the lines of a text. -/
theorem contains_ofText_iff (text : List Char) (r : Registry) (name : String) :
    (ofText text r).2.contains name = true
      ↔ Registry.isBuiltin name = true
        ∨ ∃ line ∈ Text.lines text, ∃ d ∈ Heading.declaration? line,
            Text.lowercase d.name = Text.lowercase name := by
  rw [ofText_eq, Registry.contains_wanted_iff]
  simp only [List.mem_filterMap, Option.mem_def]
  refine or_congr_right ⟨?_, ?_⟩
  · rintro ⟨d, ⟨line, hline, hd⟩, hname⟩
    exact ⟨line, hline, d, hd, hname⟩
  · rintro ⟨line, hline, d, hd, hname⟩
    exact ⟨d, ⟨line, hline, hd⟩, hname⟩

/-- A channel that a line declares is there for all lines. -/
theorem contains_of_declaration {text line : List Char} (hline : line ∈ Text.lines text)
    {d : Declaration} (hd : d ∈ Heading.declaration? line) (r : Registry) :
    (ofText text r).2.contains d.name = true :=
  (contains_ofText_iff text r d.name).mpr (.inr ⟨line, hline, d, hd, rfl⟩)

/-- A compiled line is the line of that place, by the channels of the text. -/
theorem getElem?_lines_ofText (text : List Char) (r : Registry) (i : Nat) :
    (ofText text r).1.lines[i]?
      = (Text.lines text)[i]?.map ((ofText text r).2.lineOf i) := by
  rw [ofText_eq, List.getElem?_mapIdx]

/-- A channel that a line declares is played by every line that begins with its name, above the
declaration and below. -/
theorem getElem?_lines_of_declaration {text declaring line : List Char}
    (hdeclaring : declaring ∈ Text.lines text) {d : Declaration}
    (hd : d ∈ Heading.declaration? declaring) (r : Registry) {i : Nat}
    (hline : (Text.lines text)[i]? = some line) {h : Heading} (hread : Heading.read? line = some h)
    (hname : h.channelName = d.name) (hdeclares : Heading.declaration? line = none) :
    (ofText text r).1.lines[i]? = some (Line.playing i d.name h.contentStart h.content) := by
  have hlower : Text.lowercase d.name = d.name := (Heading.name_of_declaration? hd).2
  have hchannel : (ofText text r).2.contains (String.ofList h.name) = true :=
    (contains_ofText_iff text r _).mpr
      (.inr ⟨declaring, hdeclaring, d, hd, hlower.trans hname.symm⟩)
  rw [getElem?_lines_ofText, hline, Option.map_some, Registry.lineOf_of_read? _ i hread hdeclares
    hchannel, hname]

/-! ## Lines that change places -/

/-- Reordering a list keeps what is in it. -/
theorem mem_of_reordered {α : Type} {l others : List α} {order : Equiv.Perm Nat}
    (h : ∀ i, others[i]? = l[order i]?) (a : α) : a ∈ others ↔ a ∈ l := by
  simp only [List.mem_iff_getElem?, h]
  exact order.exists_congr_left.trans (by simp)

section Reordered

variable {text other : List Char} {order : Equiv.Perm Nat}
  (h : ∀ i, (Text.lines other)[i]? = (Text.lines text)[order i]?)

include h

theorem contains_of_reordered (r s : Registry) (name : String) :
    (ofText other s).2.contains name = (ofText text r).2.contains name := by
  rw [Bool.eq_iff_iff, contains_ofText_iff, contains_ofText_iff]
  simp only [mem_of_reordered h]

theorem getElem?_lines_of_reordered (r s : Registry) (i : Nat) :
    (ofText other s).1.lines[i]? = ((ofText text r).1.lines[order i]?).map (Line.onLine i) := by
  rw [getElem?_lines_ofText, getElem?_lines_ofText, h, Option.map_map]
  congr 1
  funext line
  rw [Registry.lineOf_congr (contains_of_reordered h r s), Registry.lineOf_onLine _ (order i) i]
  rfl

/-- What lines have apart from their place, they have in any order. -/
theorem mem_map_lines_of_reordered {α : Type} {f : Line → α}
    (hf : ∀ i l, f (l.onLine i) = f l) (r s : Registry) (a : α) :
    a ∈ (ofText other s).1.lines.map f ↔ a ∈ (ofText text r).1.lines.map f := by
  have hplaces : ∀ i, ((ofText other s).1.lines.map f)[i]?
      = ((ofText text r).1.lines.map f)[order i]? := by
    intro i
    have hmap : f ∘ Line.onLine i = f := funext (hf i)
    rw [List.getElem?_map, List.getElem?_map, getElem?_lines_of_reordered h r s, Option.map_map,
      hmap]
  exact mem_of_reordered hplaces a

theorem length_of_reordered (r s : Registry) :
    (ofText other s).1.length = (ofText text r).1.length := by
  have hlengths := mem_map_lines_of_reordered h (fun i l => (rfl : (l.onLine i).length = l.length)) r s
  have hsounds := mem_map_lines_of_reordered h Line.sounds_onLine r s true
  have hany : (ofText other s).1.lines.any Line.sounds = (ofText text r).1.lines.any Line.sounds := by
    rw [List.mem_map, List.mem_map] at hsounds
    rw [Bool.eq_iff_iff, List.any_eq_true, List.any_eq_true]
    exact hsounds
  rw [length, length, hany, Ticks.maximum_congr hlengths]

end Reordered

/-! ## Lines that are edited -/

section Edited

variable {text other old new : List Char} {i : Nat} (hold : (Text.lines text)[i]? = some old)
  (hother : Text.lines other = (Text.lines text).set i new)

include hold hother

theorem mem_lines_of_edited (line : List Char) :
    line ∈ Text.lines other ↔ line = new ∨ ∃ j ≠ i, (Text.lines text)[j]? = some line := by
  have hi : i < (Text.lines text).length := (List.getElem?_eq_some_iff.mp hold).1
  rw [hother, List.mem_iff_getElem?]
  constructor
  · rintro ⟨j, hj⟩
    rcases eq_or_ne j i with rfl | hne
    · rw [List.getElem?_set_self hi, Option.some.injEq] at hj
      exact .inl hj.symm
    · rw [List.getElem?_set_ne hne.symm] at hj
      exact .inr ⟨j, hne, hj⟩
  · rintro (rfl | ⟨j, hne, hj⟩)
    · exact ⟨i, List.getElem?_set_self hi⟩
    · exact ⟨j, by rw [List.getElem?_set_ne hne.symm, hj]⟩

/-- The channels stay when an edit removes no declaration and adds none of a new channel. -/
theorem contains_of_edited (r s : Registry) (hnot : Heading.declaration? old = none)
    (hnew : ∀ d ∈ Heading.declaration? new, (ofText text r).2.contains d.name = true)
    (name : String) : (ofText other s).2.contains name = (ofText text r).2.contains name := by
  rw [Bool.eq_iff_iff]
  constructor
  · intro h
    rcases (contains_ofText_iff other s name).mp h with hbuiltin | ⟨line, hline, d, hd, hname⟩
    · exact Registry.contains_of_isBuiltin _ hbuiltin
    · have hthere : (ofText text r).2.contains d.name = true := by
        rcases (mem_lines_of_edited hold hother line).mp hline with rfl | ⟨j, _, hj⟩
        · exact hnew d hd
        · exact contains_of_declaration (List.mem_of_getElem? hj) hd r
      rwa [Registry.contains_eq, Registry.isBuiltin_congr hname, hname,
        ← Registry.contains_eq] at hthere
  · intro h
    rcases (contains_ofText_iff text r name).mp h with hbuiltin | ⟨line, hline, d, hd, hname⟩
    · exact Registry.contains_of_isBuiltin _ hbuiltin
    · -- a line with a declaration is not the edited one
      obtain ⟨j, hj⟩ := List.mem_iff_getElem?.mp hline
      have hne : j ≠ i := by
        rintro rfl
        rw [hold, Option.some.injEq] at hj
        subst hj
        simp [hnot] at hd
      refine (contains_ofText_iff other s name).mpr (.inr ⟨line, ?_, d, hd, hname⟩)
      exact (mem_lines_of_edited hold hother line).mpr (.inr ⟨j, hne, hj⟩)

theorem getElem?_lines_of_edited (r s : Registry) (hnot : Heading.declaration? old = none)
    (hnew : ∀ d ∈ Heading.declaration? new, (ofText text r).2.contains d.name = true) {j : Nat}
    (hne : j ≠ i) : (ofText other s).1.lines[j]? = (ofText text r).1.lines[j]? := by
  rw [getElem?_lines_ofText, getElem?_lines_ofText, hother, List.getElem?_set_ne hne.symm]
  congr 1
  funext line
  exact Registry.lineOf_congr (contains_of_edited hold hother r s hnot hnew) j line

end Edited

/-- Compiling depends on the text alone: whatever two registries held before, they come out the same
and so do the compositions.  The channels that a text declares are there for all its lines: wherever a
line begins with the name of one, its content is played on that channel.  When the lines stand in another
order, each is compiled as it was but for the place that its events name, and the piece is as long; when a
line that declares nothing is edited, without declaring a channel that was not there, every other line is
compiled as it was. -/
theorem ofText_determined_by_text (text : List Char) (r s : Registry) :
    ofText text r = ofText text s
    ∧ (∀ declaring ∈ Text.lines text, ∀ d ∈ Heading.declaration? declaring,
        (ofText text r).2.contains d.name = true
        ∧ ∀ (i : Nat) (line : List Char) (h : Heading), (Text.lines text)[i]? = some line →
          Heading.read? line = some h → h.channelName = d.name → Heading.declaration? line = none →
          (ofText text r).1.lines[i]? = some (Line.playing i d.name h.contentStart h.content))
    ∧ (∀ (other : List Char) (order : Equiv.Perm Nat),
        (∀ i, (Text.lines other)[i]? = (Text.lines text)[order i]?) →
        (∀ i, (ofText other s).1.lines[i]?
            = ((ofText text r).1.lines[order i]?).map (Line.onLine i))
        ∧ (ofText other s).1.length = (ofText text r).1.length
        ∧ ∀ name, (ofText other s).2.contains name = (ofText text r).2.contains name)
    ∧ (∀ (other old new : List Char) (i : Nat),
        (Text.lines text)[i]? = some old → Text.lines other = (Text.lines text).set i new →
        Heading.declaration? old = none →
        (∀ d ∈ Heading.declaration? new, (ofText text r).2.contains d.name = true) →
        ∀ j ≠ i, (ofText other s).1.lines[j]? = (ofText text r).1.lines[j]?) := by
  refine ⟨?_, ?_, ?_, ?_⟩
  · rw [ofText_eq, ofText_eq]
  · intro declaring hdeclaring d hd
    exact ⟨contains_of_declaration hdeclaring hd r, fun i line h hline hread hname hdeclares =>
      getElem?_lines_of_declaration hdeclaring hd r hline hread hname hdeclares⟩
  · intro other order h
    exact ⟨getElem?_lines_of_reordered h r s, length_of_reordered h r s,
      contains_of_reordered h r s⟩
  · intro other old new i hold hother hnot hnew j hne
    exact getElem?_lines_of_edited hold hother r s hnot hnew hne

/-- A channel is declared below the line that plays on it, then above it, while the registries hold
different remains; then the last line is edited. -/
theorem ofText_determined_by_text_of_late_declaration :
    let text := "vox: x C4\nvox: http://a/v.wav\nC4".toList
    let swapped := "vox: http://a/v.wav\nvox: x C4\nC4".toList
    let edited := "vox: x C4\nvox: http://a/v.wav\nkick: x x".toList
    let r := (Registry.empty.register "drone" "http://a/d.wav").2
    let s := (Registry.empty.register "vox" "http://a/old.wav").2
    ofText text r = ofText text s
      ∧ (∃ line, (ofText text r).1.lines[0]? = some line ∧ line.instrument = "vox"
        ∧ line.events.length = 2)
      ∧ (∀ i, (Text.lines swapped)[i]? = (Text.lines text)[Equiv.swap 0 1 i]?)
      ∧ (ofText swapped s).1.lines[1]? = ((ofText text r).1.lines[0]?).map (Line.onLine 1)
      ∧ (ofText swapped s).1.length = (ofText text r).1.length
      ∧ (Text.lines text)[2]? = some "C4".toList
      ∧ Text.lines edited = (Text.lines text).set 2 "kick: x x".toList
      ∧ Heading.declaration? "C4".toList = none
      ∧ (∀ d ∈ Heading.declaration? "kick: x x".toList, (ofText text r).2.contains d.name = true)
      ∧ (ofText edited s).1.lines[0]? = (ofText text r).1.lines[0]? := by
  intro text swapped edited r s
  have hlines : Text.lines text
      = ["vox: x C4".toList, "vox: http://a/v.wav".toList, "C4".toList] := by decide +kernel
  have hswapped : Text.lines swapped
      = ["vox: http://a/v.wav".toList, "vox: x C4".toList, "C4".toList] := by decide +kernel
  have horder : ∀ i, (Text.lines swapped)[i]? = (Text.lines text)[Equiv.swap 0 1 i]? := by
    intro i
    rw [hlines, hswapped]
    match i with
    | 0 | 1 => rfl
    | i + 2 =>
      rw [Equiv.swap_apply_of_ne_of_ne (by omega) (by omega)]
      rfl
  have hold : (Text.lines text)[2]? = some "C4".toList := by rw [hlines]; rfl
  have hedited : Text.lines edited = (Text.lines text).set 2 "kick: x x".toList := by
    decide +kernel
  have hnot : Heading.declaration? "C4".toList = none := by decide +kernel
  have hnone : Heading.declaration? "kick: x x".toList = none := by decide +kernel
  have hnew : ∀ d ∈ Heading.declaration? "kick: x x".toList,
      (ofText text r).2.contains d.name = true := by
    intro d hd
    rw [hnone] at hd
    cases hd
  have hdeclaration : Heading.declaration? "vox: http://a/v.wav".toList
      = some ⟨"vox", "http://a/v.wav"⟩ := by decide +kernel
  have hread : Heading.read? "vox: x C4".toList = some ⟨"vox".toList, [' '], "x C4".toList⟩ := rfl
  have hplays : Heading.declaration? "vox: x C4".toList = none := by decide +kernel
  obtain ⟨hsame, hdeclared, hreordered, hedit⟩ := ofText_determined_by_text text r s
  obtain ⟨hplaces, hlength, -⟩ := hreordered swapped (Equiv.swap 0 1) horder
  have hvox := (hdeclared "vox: http://a/v.wav".toList (by rw [hlines]; decide) _ hdeclaration).2 0 _ _
    (by rw [hlines]; rfl) hread (by decide +kernel) hplays
  exact ⟨hsame, ⟨_, hvox, rfl, by decide +kernel⟩, horder, hplaces 1, hlength, hold, hedited, hnot, hnew,
    hedit edited _ _ 2 hold hedited hnot hnew 0 (by decide)⟩

end Composition

end Stave
