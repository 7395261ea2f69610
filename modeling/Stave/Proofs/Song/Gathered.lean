import Stave.Proofs.Song.Named
import Stave.Proofs.Song.Written

/-!
# Patterns by instrument

Adding the parts of a section one after the other gathers what belongs to one instrument: every
instrument stands where it came first, with all its patterns as they came.
-/

namespace Stave.Song

/-- Adding patterns to a table by instrument lengthens what the instrument has. -/
theorem addPart_map (patternsOf : String → List String) {names : List String} (hnames : names.Nodup)
    {name : String} (hnew : name ∉ names → patternsOf name = []) (patterns : List String) :
    Section.addPart name patterns (names.map fun n => ⟨n, patternsOf n⟩)
      = (if name ∈ names then names else names ++ [name]).map fun n =>
          ⟨n, patternsOf n ++ if n = name then patterns else []⟩ := by
  induction names with
  | nil => simp [Section.addPart, hnew]
  | cons n rest ih =>
    obtain ⟨hother, hrest⟩ := List.nodup_cons.mp hnames
    rw [List.map_cons, Section.addPart]
    by_cases hsame : n = name
    · subst hsame
      have hlater : ∀ m ∈ rest, m ≠ n := fun m hm heq => hother (heq ▸ hm)
      rw [if_pos rfl, if_pos List.mem_cons_self, List.map_cons, if_pos rfl]
      refine congrArg _ (List.map_congr_left fun m hm => ?_)
      rw [if_neg (hlater m hm), List.append_nil]
    · have hmem : name ∈ n :: rest ↔ name ∈ rest := by
        rw [List.mem_cons, or_iff_right fun heq => hsame heq.symm]
      rw [if_neg hsame, ih hrest fun hnot => hnew (hmem.not.mpr hnot)]
      simp only [hmem]
      split
      · rw [List.map_cons, if_neg hsame, List.append_nil]
      · rw [List.cons_append, List.map_cons, if_neg hsame, List.append_nil]

namespace WrittenPart

/-- The name of the instrument in lower case. -/
def instrumentName (p : WrittenPart) : String := Text.lowercase (String.ofList p.instrument)

/-- What the part adds to its instrument. -/
def texts (p : WrittenPart) : List String := p.sheet.patterns.map String.ofList

end WrittenPart

/-- What an instrument plays in all parts together. -/
def textsOf (parts : List WrittenPart) (name : String) : List String :=
  (parts.filter fun p => p.instrumentName = name).flatMap WrittenPart.texts

/-- The instruments of some parts, each where it comes first, with all its patterns. -/
def gathered (parts : List WrittenPart) : List Part :=
  (parts.map WrittenPart.instrumentName).eraseDups.map fun name => ⟨name, textsOf parts name⟩

/-- Parts that are added one after the other are gathered. -/
theorem foldl_addPart (parts : List WrittenPart) :
    parts.foldl (fun found p => Section.addPart p.instrumentName p.texts found) []
      = gathered parts := by
  induction parts using List.reverseRecOn with
  | nil => rfl
  | append_singleton parts p ih =>
    have hnew : p.instrumentName ∉ (parts.map WrittenPart.instrumentName).eraseDups →
        textsOf parts p.instrumentName = [] := by
      intro hnot
      rw [List.mem_eraseDups] at hnot
      have hnone : (parts.filter fun q => q.instrumentName = p.instrumentName) = [] := by
        rw [List.filter_eq_nil_iff]
        intro q hq hsame
        exact hnot (of_decide_eq_true hsame ▸ List.mem_map_of_mem hq)
      rw [textsOf, hnone, List.flatMap_nil]
    have htexts : ∀ name, textsOf (parts ++ [p]) name
        = textsOf parts name ++ if name = p.instrumentName then p.texts else [] := by
      intro name
      rw [textsOf, List.filter_append, List.flatMap_append, ← textsOf]
      by_cases hname : name = p.instrumentName
      · simp [hname]
      · simp [hname, Ne.symm hname]
    rw [List.foldl_append, List.foldl_cons, List.foldl_nil, ih, gathered,
      addPart_map _ (nodup_eraseDups _) hnew, gathered, List.map_append, List.map_singleton,
      eraseDups_concat]
    simp only [List.mem_eraseDups, htexts]

end Stave.Song
