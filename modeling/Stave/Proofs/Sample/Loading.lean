import Stave.Proofs.Song.Named
import Stave.Sample.Loader

/-!
# What is loaded

Each declared name is loaded or reported: it has a recording in the bank, or it is among the names that
failed.  No other name is in either.
-/

namespace Stave

namespace Bank

/-- A merged bank has what either bank has. -/
theorem contains_merge (bank other : Bank) (name : String) :
    (bank.merge other).contains name = true
      ↔ other.contains name = true ∨ bank.contains name = true := by
  have hother : Bank.contains other name = true ↔ ∃ value, (name, value) ∈ other :=
    Named.isSome_get?_iff other name
  rw [hother]
  exact Named.isSome_get?_setAll other name bank

end Bank

namespace Loaded

theorem addresses_eq (declared : List Declaration) :
    addresses declared = Named.setAll [] (declared.map fun d => (d.name, d.url)) := by
  rw [addresses, Named.setAll, List.foldl_map]

/-- The names that have an address are those that are declared. -/
theorem exists_mem_addresses (declared : List Declaration) (name : String) :
    (∃ url, (name, url) ∈ addresses declared) ↔ ∃ d ∈ declared, d.name = name := by
  rw [← Named.isSome_get?_iff, addresses_eq, Named.isSome_get?_setAll]
  simp [Named.get?]

/-- Each declared name has one address, and the names stand as they are first declared. -/
theorem map_fst_addresses (declared : List Declaration) :
    (addresses declared).map Prod.fst = (declared.map (·.name)).eraseDups := by
  rw [addresses_eq, Named.map_fst_setAll_nil, List.map_map]
  rfl

theorem nodup_addresses (declared : List Declaration) :
    ((addresses declared).map Prod.fst).Nodup := by
  rw [map_fst_addresses]
  exact nodup_eraseDups _

/-- The address of a name is the one that is declared last. -/
theorem get?_addresses (declared : List Declaration) (name : String) :
    Named.get? name (addresses declared)
      = (declared.filter fun d => d.name == name).getLast?.map (·.url) := by
  rw [addresses_eq, Named.get?_setAll, List.filter_map, List.getLast?_map, Option.map_map]
  exact Option.or_none

/-- A recording is in the bank under the name of the address that it is read from. -/
theorem get?_bank (declared : List Declaration) (source : Source) (sampleRate : Nat) (name : String) :
    Named.get? name (ofDeclarations declared source sampleRate).bank
      = (Named.get? name (addresses declared)).bind fun url =>
          (fetch source sampleRate url).toOption := by
  rw [ofDeclarations, ← Named.get?_filterMap (nodup_addresses declared), List.filterMap_map]
  rfl

theorem failed_eq (declared : List Declaration) (source : Source) (sampleRate : Nat) :
    (ofDeclarations declared source sampleRate).failed
      = ((addresses declared).filter fun a => !(fetch source sampleRate a.2).isOk).map Prod.fst := by
  rw [ofDeclarations]
  dsimp only
  induction addresses declared with
  | nil => rfl
  | cons a rest ih =>
    rw [List.map_cons, List.filterMap_cons, ih, List.filter_cons]
    cases (fetch source sampleRate a.2).isOk <;> simp

/-- A name has failed when what its address leads to cannot be read. -/
theorem mem_failed_iff (declared : List Declaration) (source : Source) (sampleRate : Nat)
    (name : String) :
    name ∈ (ofDeclarations declared source sampleRate).failed
      ↔ ∃ url, Named.get? name (addresses declared) = some url
        ∧ (fetch source sampleRate url).isOk = false := by
  rw [failed_eq, List.mem_map]
  simp only [List.mem_filter, ← Named.mem_iff_get? (nodup_addresses declared), Bool.not_eq_true']
  constructor
  · rintro ⟨⟨n, url⟩, h, rfl⟩
    exact ⟨url, h⟩
  · rintro ⟨url, h⟩
    exact ⟨(name, url), h, rfl⟩

/-- A name that failed is declared. -/
theorem exists_declared_of_failed {declared : List Declaration} {source : Source} {sampleRate : Nat}
    {name : String} (h : name ∈ (ofDeclarations declared source sampleRate).failed) :
    ∃ d ∈ declared, d.name = name := by
  obtain ⟨url, haddress, -⟩ := (mem_failed_iff ..).mp h
  exact (exists_mem_addresses ..).mp ⟨url, (Named.mem_iff_get? (nodup_addresses _)).mpr haddress⟩

/-- A declared name fails or has a recording. -/
theorem failed_or_contains {declared : List Declaration} {d : Declaration} (h : d ∈ declared)
    (source : Source) (sampleRate : Nat) :
    d.name ∈ (ofDeclarations declared source sampleRate).failed
      ∨ (ofDeclarations declared source sampleRate).bank.contains d.name = true := by
  obtain ⟨url, hmem⟩ := (exists_mem_addresses declared d.name).mpr ⟨d, h, rfl⟩
  have haddress := (Named.mem_iff_get? (nodup_addresses declared)).mp hmem
  rw [mem_failed_iff, Bank.contains, get?_bank, haddress, Option.bind_some]
  cases hfetch : fetch source sampleRate url with
  | error e => exact .inl ⟨url, rfl, by rw [hfetch]; rfl⟩
  | ok recording => exact .inr rfl

end Loaded

end Stave
