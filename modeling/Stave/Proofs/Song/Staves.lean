import Mathlib.Order.MinMax
import Stave.Proofs.Score.Channel
import Stave.Song.Arrangement

/-!
# The staves of a song

A section as it is read has each instrument once and by its name in lower case.  A song has one stave
for every instrument and every line on which the instrument has a pattern in some section, and no
other.
-/

namespace Stave.Song

open Yaml

/-! ## Tables by name -/

/-- Putting something into a table where it has its name, and else at the end, adds at most that
name. -/
theorem map_put {α : Type} {nameOf : α → String} {put : List α → List α} {name : String}
    (hnil : (put []).map nameOf = [name])
    (hcons : ∀ a rest, (put (a :: rest)).map nameOf
      = if nameOf a = name then nameOf a :: rest.map nameOf else nameOf a :: (put rest).map nameOf)
    (table : List α) :
    (put table).map nameOf = if name ∈ table.map nameOf then table.map nameOf
      else table.map nameOf ++ [name] := by
  induction table with
  | nil => simpa using hnil
  | cons a rest ih =>
    rw [hcons, ih, List.map_cons]
    by_cases h : nameOf a = name
    · rw [if_pos h, if_pos (by simp [h])]
    · have hcons : name ∈ nameOf a :: rest.map nameOf ↔ name ∈ rest.map nameOf := by
        rw [List.mem_cons, or_iff_right fun heq => h heq.symm]
      simp only [if_neg h, hcons]
      split <;> rfl

theorem nodup_put {names : List String} (h : names.Nodup) (name : String) :
    (if name ∈ names then names else names ++ [name]).Nodup := by
  split
  · exact h
  · next hnew =>
    exact List.nodup_append'.mpr ⟨h, List.nodup_singleton _, by simpa using hnew⟩

/-! ## Sections as they are read -/

namespace Section

/-- What reading a section ensures of its parts. -/
structure IsRead (parts : List Part) : Prop where
  lowercase : ∀ name ∈ parts.map Part.instrument, Text.lowercase name = name
  distinct : (parts.map Part.instrument).Nodup

theorem instrument_addPart (instrument : String) (patterns : List String) (parts : List Part) :
    (addPart instrument patterns parts).map Part.instrument
      = if instrument ∈ parts.map Part.instrument then parts.map Part.instrument
        else parts.map Part.instrument ++ [instrument] := by
  refine map_put rfl (fun part rest => ?_) parts
  rw [addPart]
  split <;> rfl

theorem IsRead.addPart {parts : List Part} (h : IsRead parts) {instrument : String}
    (hlower : Text.lowercase instrument = instrument) (patterns : List String) :
    IsRead (addPart instrument patterns parts) := by
  have hnames := instrument_addPart instrument patterns parts
  refine ⟨fun name hname => ?_, hnames ▸ nodup_put h.distinct instrument⟩
  rw [hnames] at hname
  split at hname
  · exact h.lowercase name hname
  · rcases List.mem_append.mp hname with hold | hnew
    · exact h.lowercase name hold
    · rw [List.mem_singleton.mp hnew, hlower]

theorem isRead_partsOf (entries : List (Value × Value)) : IsRead (partsOf entries) := by
  unfold partsOf
  -- every entry is added to parts that are read already
  generalize hstart : ([] : List Part) = parts
  have h : IsRead parts := hstart ▸ ⟨by simp, List.nodup_nil⟩
  clear hstart
  induction entries generalizing parts with
  | nil => exact h
  | cons entry rest ih =>
    obtain ⟨key, value⟩ := entry
    rw [List.foldl_cons]
    apply ih
    dsimp only
    split
    · exact h
    · exact h
    · exact h.addPart (Text.lowercase_lowercase _) _

theorem isRead_of_mem_all {value : Option Value} {s : Section} (h : s ∈ all value) :
    IsRead s.parts := by
  obtain ⟨⟨key, body⟩, -, hsection⟩ := List.mem_filterMap.mp h
  obtain ⟨name, -, rfl⟩ := Option.map_eq_some_iff.mp hsection
  exact isRead_partsOf _

end Section

theorem mem_of_mem_order {value : Option Value} {sections : List Section} {s : Section}
    (h : s ∈ order value sections) : s ∈ sections := by
  unfold order at h
  -- without an order all sections are played
  split at h
  · exact h
  · obtain ⟨entry, -, hentry⟩ := List.mem_flatMap.mp h
    split at hentry
    · cases hentry
    · split at hentry
      · cases hentry
      · next found hfound =>
        rw [List.eq_of_mem_replicate hentry]
        exact List.mem_of_find?_eq_some hfound

/-- Every section that is played has been read. -/
theorem isRead_of_mem_playedIn {root : List (Value × Value)} {s : Section}
    (h : s ∈ playedIn root) : Section.IsRead s.parts :=
  Section.isRead_of_mem_all (mem_of_mem_order h)

/-! ## Staves -/

/-- Whether counted lines reach a line of an instrument. -/
def Reaches (found : List (String × Nat)) (stave : String × Nat) : Prop :=
  ∃ count, (stave.1, count) ∈ found ∧ stave.2 < count

theorem reaches_cons (name : String) (count : Nat) (found : List (String × Nat))
    (stave : String × Nat) :
    Reaches ((name, count) :: found) stave
      ↔ stave.1 = name ∧ stave.2 < count ∨ Reaches found stave := by
  constructor
  · rintro ⟨lines, hmem, hlt⟩
    rcases List.mem_cons.mp hmem with heq | hin
    · obtain ⟨hname, rfl⟩ := Prod.mk.inj heq
      exact Or.inl ⟨hname, hlt⟩
    · exact Or.inr ⟨lines, hin, hlt⟩
  · rintro (⟨hname, hlt⟩ | ⟨lines, hin, hlt⟩)
    · exact ⟨count, by rw [hname]; exact List.mem_cons_self, hlt⟩
    · exact ⟨lines, List.mem_cons_of_mem _ hin, hlt⟩

theorem reaches_widen (instrument : String) (lines : Nat) (found : List (String × Nat))
    (stave : String × Nat) :
    Reaches (widen instrument lines found) stave
      ↔ Reaches found stave ∨ stave.1 = instrument ∧ stave.2 < lines := by
  induction found with
  | nil => rw [widen, reaches_cons, or_comm]
  | cons entry rest ih =>
    obtain ⟨name, count⟩ := entry
    rw [widen]
    by_cases h : name = instrument
    · rw [if_pos h, reaches_cons, reaches_cons, lt_max_iff, and_or_left, ← h, or_right_comm]
    · rw [if_neg h, reaches_cons, reaches_cons, ih, or_assoc]

theorem fst_widen (instrument : String) (lines : Nat) (found : List (String × Nat)) :
    (widen instrument lines found).map Prod.fst
      = if instrument ∈ found.map Prod.fst then found.map Prod.fst
        else found.map Prod.fst ++ [instrument] := by
  refine map_put rfl (fun entry rest => ?_) found
  rw [widen]
  split <;> rfl

theorem nodup_channels (played : List Section) : ((channels played).map Prod.fst).Nodup := by
  rw [channels]
  generalize played.flatMap Section.parts = parts
  suffices h : ∀ found : List (String × Nat), (found.map Prod.fst).Nodup →
      ((parts.foldl (fun found p => widen p.instrument p.patterns.length found) found).map
        Prod.fst).Nodup from h [] List.nodup_nil
  induction parts with
  | nil => exact fun found h => h
  | cons part rest ih => exact fun found h => ih _ (fst_widen _ _ found ▸ nodup_put h _)

theorem reaches_channels (played : List Section) (stave : String × Nat) :
    Reaches (channels played) stave
      ↔ ∃ s ∈ played, ∃ part ∈ s.parts,
        stave.1 = part.instrument ∧ stave.2 < part.patterns.length := by
  have hfold (parts : List Part) (found : List (String × Nat)) :
      Reaches (parts.foldl (fun found p => widen p.instrument p.patterns.length found) found) stave
        ↔ Reaches found stave
          ∨ ∃ part ∈ parts, stave.1 = part.instrument ∧ stave.2 < part.patterns.length := by
    induction parts generalizing found with
    | nil => simp
    | cons part rest ih => rw [List.foldl_cons, ih, reaches_widen, or_assoc, List.exists_mem_cons_iff]
  have hnone : ¬ Reaches [] stave := by
    rintro ⟨count, hmem, -⟩
    cases hmem
  rw [channels, hfold, or_iff_right hnone]
  simp only [List.mem_flatMap]
  constructor
  · rintro ⟨part, ⟨s, hs, hpart⟩, hreach⟩
    exact ⟨s, hs, part, hpart, hreach⟩
  · rintro ⟨s, hs, part, hpart, hreach⟩
    exact ⟨part, ⟨s, hs, hpart⟩, hreach⟩

theorem mem_staves (played : List Section) (stave : String × Nat) :
    stave ∈ staves played ↔ Reaches (channels played) stave := by
  obtain ⟨instrument, line⟩ := stave
  simp [staves, Reaches]

/-- Every line of an instrument is one stave. -/
theorem nodup_staves (played : List Section) : (staves played).Nodup := by
  refine List.nodup_flatMap.mpr ⟨fun entry _ => ?_, ?_⟩
  · exact List.nodup_range.map fun a b h => (Prod.mk.inj h).2
  · -- staves of two instruments differ in the instrument
    refine (List.pairwise_map.mp (nodup_channels played)).imp fun {a b} hne => ?_
    intro stave ha hb
    obtain ⟨_, -, rfl⟩ := List.mem_map.mp ha
    obtain ⟨_, -, heq⟩ := List.mem_map.mp hb
    exact hne (Prod.mk.inj heq).1.symm

/-- A part of a section as it is read is the part of its instrument. -/
theorem Section.find?_instrument {s : Section} (h : IsRead s.parts) {part : Part}
    (hpart : part ∈ s.parts) : (s.parts.find? fun p => p.instrument == part.instrument) = some part := by
  have hsome : (s.parts.find? fun p => p.instrument == part.instrument).isSome :=
    List.find?_isSome.mpr ⟨part, hpart, beq_self_eq_true _⟩
  obtain ⟨found, hfound⟩ := Option.isSome_iff_exists.mp hsome
  have hname : found.instrument = part.instrument := by simpa using List.find?_some hfound
  rw [hfound, List.inj_on_of_nodup_map h.distinct (List.mem_of_find?_eq_some hfound) hpart hname]

/-- There is a stave for every line on which an instrument has a pattern in a section, and no
other. -/
theorem mem_staves_iff {root : List (Value × Value)} {instrument : String} {line : Nat} :
    (instrument, line) ∈ staves (playedIn root)
      ↔ ∃ s ∈ playedIn root, (s.pattern? instrument line).isSome := by
  rw [mem_staves, reaches_channels]
  refine exists_congr fun s => and_congr_right fun hs => ?_
  constructor
  · rintro ⟨part, hpart, rfl, hline⟩
    -- the instrument has no other part in the section
    have hfound := Section.find?_instrument (isRead_of_mem_playedIn hs) hpart
    simpa [Section.pattern?, hfound] using hline
  · intro hsome
    obtain ⟨pattern, hpattern⟩ := Option.isSome_iff_exists.mp hsome
    obtain ⟨part, hfound, hline⟩ := Option.bind_eq_some_iff.mp hpattern
    have hname : part.instrument = instrument := by simpa using List.find?_some hfound
    exact ⟨part, List.mem_of_find?_eq_some hfound, hname.symm, (List.getElem?_eq_some_iff.mp hline).1⟩

end Stave.Song
