import Stave.Proofs.Score.Places
import Stave.Proofs.Song.Named

/-!
# The channels that sound

Every event of a compiled text is on a channel of the composition, under its name in lower case.
The channel is built in, or the composition declares it; what it declares is never built in.
-/

namespace Stave

namespace Registry

/-- A registry has a channel under its name in any case. -/
theorem contains_lowercase (r : Registry) (name : String) :
    r.contains (Text.lowercase name) = r.contains name := by
  rw [contains_eq, contains_eq, isBuiltin_congr (Text.lowercase_lowercase name),
    Text.lowercase_lowercase]

/-- A line is played on a channel that the registry has. -/
theorem contains_channelOf (r : Registry) (line : List Char) :
    r.contains (r.channelOf line).instrument = true := by
  rw [channelOf]
  split
  · next h hfound =>
    rw [Heading.channelName, contains_lowercase]
    exact (Option.filter_eq_some_iff.mp hfound).2
  · exact contains_of_isBuiltin r (show isBuiltin defaultInstrument = true by decide)

/-- A line is played on a channel by its name in lower case. -/
theorem lowercase_channelOf (r : Registry) (line : List Char) :
    Text.lowercase (r.channelOf line).instrument = (r.channelOf line).instrument := by
  rw [channelOf]
  split
  · exact Text.lowercase_lowercase _
  · exact show Text.lowercase defaultInstrument = defaultInstrument by decide

/-- A channel that is not built in plays a recording, several of it at a time. -/
theorem sample_of_get? {r : Registry} {name : String} {c : Channel} (h : r.get? name = some c)
    (hforeign : isBuiltin name = false) : c.kind = .sample ∧ c.voicing = .poly := by
  rw [isBuiltin, Option.isSome_eq_false_iff, Option.isNone_iff_eq_none] at hforeign
  rw [get?, hforeign, Option.none_or, Option.map_eq_some_iff] at h
  obtain ⟨d, -, rfl⟩ := h
  exact ⟨rfl, rfl⟩

/-- A line declares what its heading declares, unless the name is built in. -/
theorem declaration_lineOf (r : Registry) (lineIndex : Nat) (line : List Char) :
    (r.lineOf lineIndex line).declaration
      = (Heading.declaration? line).filter fun d => !isBuiltin d.name := by
  rw [lineOf]
  cases Heading.declaration? line with
  | none => rfl
  | some d => cases hbuiltin : isBuiltin d.name <;> simp [Option.filter, hbuiltin]

end Registry

/-- A declared name is in lower case. -/
theorem Heading.lowercase_declaration {line : List Char} {d : Declaration}
    (h : d ∈ declaration? line) : Text.lowercase d.name = d.name := by
  obtain ⟨heading, -, hd⟩ := Option.bind_eq_some_iff.mp h
  dsimp only at hd
  split at hd
  · cases hd
    exact Text.lowercase_lowercase _
  · cases hd

namespace Composition

/-- The channels of a composition are those of its lines that sound. -/
theorem mem_channels_iff (c : Composition) (name : String) :
    name ∈ c.channels ↔ ∃ l ∈ c.lines, l.sounds = true ∧ l.instrument = name := by
  rw [channels, foldl_contains, List.mem_eraseDups]
  simp [and_assoc]

section Compiled

variable {text : List Char} {r : Registry}

/-- A composition declares what its lines declare, line by line, apart from built-in names. -/
theorem declarations_ofText (text : List Char) (r : Registry) :
    (ofText text r).1.declarations
      = ((Text.lines text).filterMap Heading.declaration?).filter
          fun d => !Registry.isBuiltin d.name := by
  have hlines : ∀ (s : Registry) (lines : List (List Char)),
      (lines.mapIdx s.lineOf).filterMap Line.declaration
        = (lines.filterMap Heading.declaration?).filter fun d => !Registry.isBuiltin d.name := by
    intro s lines
    induction lines using List.reverseRecOn with
    | nil => rfl
    | append_singleton lines line ih =>
      rw [List.mapIdx_append, List.filterMap_append, ih, List.filterMap_append, List.filter_append]
      congr 1
      -- what a line declares does not depend on its place
      simp only [List.mapIdx_cons, List.mapIdx_nil, List.filterMap_cons, List.filterMap_nil,
        Registry.declaration_lineOf]
      cases Heading.declaration? line with
      | none => rfl
      | some d => cases hbuiltin : Registry.isBuiltin d.name <;> simp [Option.filter, hbuiltin]
  rw [declarations, ofText_eq, hlines]

theorem mem_declarations_ofText (d : Declaration) :
    d ∈ (ofText text r).1.declarations
      ↔ Registry.isBuiltin d.name = false
        ∧ ∃ line ∈ Text.lines text, d ∈ Heading.declaration? line := by
  rw [declarations_ofText, List.mem_filter, List.mem_filterMap, Bool.not_eq_true', and_comm]
  rfl

variable {e : NoteEvent}

theorem channelOf_of_mem_events (h : e ∈ (ofText text r).1.events) :
    e.instrument ∈ (ofText text r).1.channels
      ∧ ∃ line, e.instrument = ((ofText text r).2.channelOf line).instrument := by
  obtain ⟨l, hl, he⟩ := List.mem_flatMap.mp h
  obtain ⟨i, line, -, rfl⟩ := mem_lines_ofText hl
  have hsounds := Line.sounds_of_mem he
  have hinstrument := Registry.instrument_of_mem_lineOf he
  refine ⟨(mem_channels_iff _ _).mpr ⟨_, hl, hsounds, hinstrument.symm⟩, line, ?_⟩
  rw [hinstrument]
  exact (Registry.lineOf_of_sounds hsounds).2.1

theorem contains_of_mem_events (h : e ∈ (ofText text r).1.events) :
    (ofText text r).2.contains e.instrument = true := by
  obtain ⟨-, line, hline⟩ := channelOf_of_mem_events h
  rw [hline]
  exact Registry.contains_channelOf _ line

theorem lowercase_of_mem_events (h : e ∈ (ofText text r).1.events) :
    Text.lowercase e.instrument = e.instrument := by
  obtain ⟨-, line, hline⟩ := channelOf_of_mem_events h
  rw [hline]
  exact Registry.lowercase_channelOf _ line

/-- The channel of an event is built in or declared under the very name that the event has. -/
theorem builtin_or_declared (h : e ∈ (ofText text r).1.events) :
    Registry.isBuiltin e.instrument = true
      ∨ ∃ d ∈ (ofText text r).1.declarations, d.name = e.instrument := by
  rcases (contains_ofText_iff text r e.instrument).mp (contains_of_mem_events h)
    with hbuiltin | ⟨line, hline, d, hd, hname⟩
  · exact .inl hbuiltin
  · rw [Heading.lowercase_declaration hd, lowercase_of_mem_events h] at hname
    by_cases hbuiltin : Registry.isBuiltin e.instrument = true
    · exact .inl hbuiltin
    · rw [Bool.not_eq_true, ← hname] at hbuiltin
      exact .inr ⟨d, (mem_declarations_ofText d).mpr ⟨hbuiltin, line, hline, hd⟩, hname⟩

end Compiled

end Composition

end Stave
