import Mathlib.Data.List.Induction
import Mathlib.Data.List.Nodup
import Stave.Song.Named

/-!
# Names and what was set under them

Names that are put down when they are new stand where they came first.  A name that was set leads to
its value, and every other name to where it led before.
-/

namespace Stave

/-! ## First appearances -/

theorem eraseDups_concat (names : List String) (name : String) :
    (names ++ [name]).eraseDups
      = if name ∈ names then names.eraseDups else names.eraseDups ++ [name] := by
  rw [List.eraseDups_append]
  split
  · next hin => simp [List.removeAll, hin]
  · next hnew => simp [List.removeAll, hnew, List.eraseDups_cons]

theorem nodup_eraseDups (names : List String) : names.eraseDups.Nodup := by
  induction names using List.reverseRecOn with
  | nil => exact List.nodup_nil
  | append_singleton names name ih =>
    rw [eraseDups_concat]
    split
    · exact ih
    · next hnew =>
      refine List.nodup_append'.mpr ⟨ih, List.nodup_singleton name, ?_⟩
      rw [List.disjoint_singleton, List.mem_eraseDups]
      exact hnew

/-- Putting down every name that is not there yet leaves each where it comes first. -/
theorem foldl_contains (names : List String) :
    names.foldl (fun seen name => if seen.contains name then seen else seen ++ [name]) []
      = names.eraseDups := by
  induction names using List.reverseRecOn with
  | nil => rfl
  | append_singleton names name ih =>
    rw [List.foldl_append, List.foldl_cons, List.foldl_nil, ih, eraseDups_concat]
    simp only [List.contains_iff_mem, List.mem_eraseDups]

/-! ## Tables -/

namespace Named

variable {α : Type}

theorem get?_cons (name other : String) (value : α) (table : Named α) :
    get? other ((name, value) :: table) = if name = other then some value else get? other table := by
  rw [get?, get?, List.lookup_cons]
  by_cases h : name = other
  · simp [h]
  · have hne : (other == name) = false := beq_eq_false_iff_ne.mpr (Ne.symm h)
    rw [hne, if_neg h]

theorem get?_set (name other : String) (value : α) (table : Named α) :
    get? other (set name value table) = if name = other then some value else get? other table := by
  induction table with
  | nil => exact get?_cons name other value []
  | cons entry rest ih =>
    obtain ⟨n, v⟩ := entry
    rw [set]
    split
    · next hsame =>
      subst hsame
      rw [get?_cons, get?_cons]
      split <;> rfl
    · next hother =>
      rw [get?_cons, get?_cons, ih]
      by_cases hn : n = other
      · rw [if_pos hn, if_pos hn, if_neg fun h => hother (hn.trans h.symm)]
      · rw [if_neg hn, if_neg hn]

/-- A name has a value when it was set or had one before. -/
theorem isSome_get?_set (name other : String) (value : α) (table : Named α) :
    (get? other (set name value table)).isSome = true
      ↔ name = other ∨ (get? other table).isSome = true := by
  rw [get?_set]
  by_cases h : name = other <;> simp [h]

theorem isSome_get?_iff (table : Named α) (name : String) :
    (get? name table).isSome = true ↔ ∃ value, (name, value) ∈ table := by
  induction table with
  | nil => simp [get?]
  | cons entry rest ih =>
    obtain ⟨n, v⟩ := entry
    rw [get?_cons]
    by_cases h : n = name
    · simp [h]
    · simp [h, Ne.symm h, ih]

/-- The value that was set last for a name counts, or the one from before. -/
theorem get?_setAll (values : List (String × α)) (name : String) (table : Named α) :
    get? name (setAll table values)
      = ((values.filter fun e => e.1 == name).getLast?.map Prod.snd).or (get? name table) := by
  rw [setAll]
  induction values using List.reverseRecOn with
  | nil => rfl
  | append_singleton values entry ih =>
    rw [List.foldl_append, List.foldl_cons, List.foldl_nil, get?_set, ih, List.filter_append]
    by_cases h : entry.1 = name <;> simp [h]

theorem isSome_get?_setAll (values : List (String × α)) (other : String) (table : Named α) :
    (get? other (setAll table values)).isSome = true
      ↔ (∃ value, (other, value) ∈ values) ∨ (get? other table).isSome = true := by
  have hset : (values.filter fun e => e.1 == other) ≠ [] ↔ ∃ value, (other, value) ∈ values := by
    simp [List.filter_eq_nil_iff]
  rw [get?_setAll, Option.isSome_or, Option.isSome_map, Bool.or_eq_true, List.getLast?_isSome, hset]

theorem map_fst_set (name : String) (value : α) (table : Named α) :
    (set name value table).map Prod.fst
      = if name ∈ table.map Prod.fst then table.map Prod.fst else table.map Prod.fst ++ [name] := by
  induction table with
  | nil => rfl
  | cons entry rest ih =>
    obtain ⟨n, v⟩ := entry
    rw [set]
    by_cases h : n = name
    · simp [h]
    · rw [if_neg h, List.map_cons, ih, List.map_cons]
      simp only [List.mem_cons, or_iff_right (Ne.symm h)]
      split <;> rfl

/-- The names of a table stand as they were first set. -/
theorem map_fst_setAll_nil (values : List (String × α)) :
    (setAll [] values).map Prod.fst = (values.map Prod.fst).eraseDups := by
  rw [setAll]
  induction values using List.reverseRecOn with
  | nil => rfl
  | append_singleton values entry ih =>
    rw [List.foldl_append, List.foldl_cons, List.foldl_nil, map_fst_set, ih, List.map_append,
      List.map_singleton, eraseDups_concat]
    simp only [List.mem_eraseDups]

section Nodup

variable {table : Named α} (h : (table.map Prod.fst).Nodup)

include h

/-- Where no name stands twice, a name leads to what stands under it. -/
theorem mem_iff_get? {name : String} {value : α} :
    (name, value) ∈ table ↔ get? name table = some value := by
  induction table with
  | nil => simp [get?]
  | cons entry rest ih =>
    obtain ⟨n, v⟩ := entry
    obtain ⟨hfirst, hrest⟩ := List.nodup_cons.mp h
    rw [get?_cons, List.mem_cons, ih hrest]
    split
    · next heq =>
      subst heq
      have hnone : get? n rest ≠ some value := fun hthere =>
        hfirst (List.mem_map.mpr ⟨_, (ih hrest).mpr hthere, rfl⟩)
      simp [hnone, eq_comm]
    · next hne => simp [Ne.symm hne]

/-- What becomes of the values of a table becomes of the value of each name. -/
theorem get?_filterMap {β : Type} (f : α → Option β) (name : String) :
    get? name (table.filterMap fun e => (f e.2).map fun b => (e.1, b)) = (get? name table).bind f := by
  induction table with
  | nil => rfl
  | cons entry rest ih =>
    obtain ⟨n, v⟩ := entry
    obtain ⟨hfirst, hrest⟩ := List.nodup_cons.mp h
    have hlater := ih hrest
    rw [List.filterMap_cons, get?_cons]
    cases hv : f v with
    | none =>
      rw [Option.map_none, hlater]
      split
      · next heq =>
        have hnone : get? name rest = none := by
          rw [Option.eq_none_iff_forall_ne_some]
          exact fun value hthere =>
            hfirst (List.mem_map.mpr ⟨_, (mem_iff_get? hrest).mpr hthere, heq.symm⟩)
        rw [hnone, Option.bind_some, hv]
        rfl
      · rfl
    | some b =>
      rw [Option.map_some, get?_cons, hlater]
      split
      · rw [Option.bind_some, hv]
      · rfl

end Nodup

end Named

end Stave
