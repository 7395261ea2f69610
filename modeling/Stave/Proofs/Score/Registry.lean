import Mathlib.Data.List.Induction
import Mathlib.Data.List.Nodup
import Mathlib.Tactic.Tauto
import Stave.Score.Registry

/-!
# What a registry holds

A registry is determined by which address each name leads to.  Adding, removing and adopting are
followed through that view: of what a registry held before, adopting a list of declarations leaves
nothing, so that the outcome is the registry that the declarations alone make.
-/

namespace Stave

theorem Text.isLower_iff {c : Char} : c.isLower = true ↔ 97 ≤ c.val.toNat ∧ c.val.toNat ≤ 122 := by
  have hlow : 'a'.val ≤ c.val ↔ 97 ≤ c.val.toNat := UInt32.le_iff_toNat_le
  have hhigh : c.val ≤ 'z'.val ↔ c.val.toNat ≤ 122 := UInt32.le_iff_toNat_le
  rw [← hlow, ← hhigh]
  exact Bool.and_eq_true_iff.trans (and_congr decide_eq_true_iff decide_eq_true_iff)

/-- A character in lower case is the character itself or a small letter. -/
theorem Text.toLower_eq_or_isLower (c : Char) : c.toLower = c ∨ c.toLower.isLower = true := by
  by_cases hupper : c.val ≥ 'A'.val ∧ c.val ≤ 'Z'.val
  · have hvalue : c.toLower.val = c.val + 32 := congrArg Char.val (dif_pos hupper)
    have hlow : 65 ≤ c.val.toNat := UInt32.le_iff_toNat_le.mp hupper.1
    have hhigh : c.val.toNat ≤ 90 := UInt32.le_iff_toNat_le.mp hupper.2
    have hsum : (c.val + 32).toNat = c.val.toNat + 32 := by
      rw [UInt32.toNat_add]
      exact Nat.mod_eq_of_lt (show c.val.toNat + 32 < 2 ^ 32 by omega)
    rw [isLower_iff, hvalue, hsum]
    omega
  · exact .inl (dif_neg hupper)

theorem Text.lowercase_lowercase (s : String) : lowercase (lowercase s) = lowercase s := by
  have hletter : ∀ c : Char, c.toLower.toLower = c.toLower := fun c => by
    obtain hsame | hlower := toLower_eq_or_isLower c
    · rw [hsame, hsame]
    · refine dif_neg fun hupper => ?_
      have hlow := (isLower_iff.mp hlower).1
      have hhigh : c.toLower.val.toNat ≤ 90 := UInt32.le_iff_toNat_le.mp hupper.2
      omega
  simp [lowercase, Function.comp_def, hletter]

theorem Declaration.IsSample.lowercase_name {d : Declaration} (h : d.IsSample) :
    Text.lowercase d.name = d.name := by
  obtain ⟨name, hname⟩ := h.lower
  rw [hname, Text.lowercase_lowercase]

theorem Declaration.IsSample.isBuiltin_eq_false {d : Declaration} (h : d.IsSample) :
    Registry.isBuiltin d.name = false := by
  rw [Registry.isBuiltin, h.lowercase_name, h.foreign]
  rfl

theorem Declaration.IsSample.keyed_eq {d : Declaration} (h : d.IsSample) :
    keyed d.name d.url = d := by
  rw [keyed, h.lowercase_name]

namespace Registry

/-! ## Looking names up -/

theorem nodup_names (r : Registry) : (r.samples.map (·.name)).Nodup := by
  refine List.pairwise_map.mpr (r.ordered.imp ?_)
  intro d e hlt heq
  exact String.lt_irrefl e.name (heq ▸ hlt)

/-- Names stand once, so a name leads to what stands under it. -/
theorem sample?_eq_some_iff {r : Registry} {key : String} {d : Declaration} :
    r.sample? key = some d ↔ d ∈ r.samples ∧ d.name = key := by
  constructor
  · intro h
    exact ⟨List.mem_of_find?_eq_some h, by simpa using List.find?_some h⟩
  · rintro ⟨hd, rfl⟩
    have hfound : (r.sample? d.name).isSome := by
      rw [sample?, List.find?_isSome]
      exact ⟨d, hd, beq_self_eq_true _⟩
    obtain ⟨e, he⟩ := Option.isSome_iff_exists.mp hfound
    have hname : e.name = d.name := by simpa using List.find?_some he
    have hmem : e ∈ r.samples := List.mem_of_find?_eq_some he
    rw [he, List.inj_on_of_nodup_map r.nodup_names hmem hd hname]

theorem sample?_eq_none_iff {r : Registry} {key : String} :
    r.sample? key = none ↔ ∀ d ∈ r.samples, d.name ≠ key := by
  simp [sample?]

/-- Two registries in which every name leads to the same address are the same. -/
theorem ext_sample? {r s : Registry} (h : ∀ key, r.sample? key = s.sample? key) : r = s := by
  have hmem : ∀ d, d ∈ r.samples ↔ d ∈ s.samples := by
    intro d
    have hr : r.sample? d.name = some d ↔ d ∈ r.samples ∧ d.name = d.name := sample?_eq_some_iff
    have hs : s.sample? d.name = some d ↔ d ∈ s.samples ∧ d.name = d.name := sample?_eq_some_iff
    rw [h] at hr
    simpa using hr.symm.trans hs
  have hperm : r.samples.Perm s.samples :=
    (List.perm_ext_iff_of_nodup r.nodup_names.of_map s.nodup_names.of_map).mpr hmem
  have hsamples : r.samples = s.samples := by
    refine hperm.eq_of_pairwise (fun d e _ _ hde hed => ?_) r.ordered s.ordered
    exact absurd (String.lt_trans hde hed) (String.lt_irrefl _)
  cases r
  cases s
  simpa using hsamples

/-! ## Adding and removing -/

theorem find?_insert (d : Declaration) (l : List Declaration) (key : String) :
    (insert d l).find? (fun e => e.name == key)
      = if d.name = key then some d else l.find? fun e => e.name == key := by
  induction l with
  | nil => by_cases h : d.name = key <;> simp [insert, h]
  | cons e rest ih =>
    rw [insert]
    split
    · by_cases h : d.name = key <;> simp [h]
    · split
      · next hsame => by_cases h : d.name = key <;> simp [h, ← hsame]
      · next hother =>
        by_cases he : e.name = key
        · have hd : ¬d.name = key := fun hd => hother (hd.trans he.symm)
          simp [he, hd]
        · simp [he, ih]

theorem sample?_register (r : Registry) {name : String} (h : isBuiltin name = false)
    (url key : String) :
    (r.register name url).2.sample? key
      = if Text.lowercase name = key then some (.keyed name url) else r.sample? key := by
  rw [register, dif_neg (by simp [h])]
  exact find?_insert _ _ key

theorem register_of_isBuiltin (r : Registry) {name : String} (h : isBuiltin name = true)
    (url : String) : (r.register name url).2 = r := by
  rw [register, dif_pos h]

theorem sample?_remove (r : Registry) (gone key : String) :
    (r.remove gone).sample? key = if gone = key then none else r.sample? key := by
  rw [sample?, remove, List.find?_filter]
  split
  · next h =>
    subst h
    simp
  · next h =>
    -- of the samples of that name none is taken out
    congr 1
    funext d
    by_cases hd : d.name = key
    · simp [hd, Ne.symm h]
    · simp [hd]

theorem sample?_foldl_remove (gone : List String) (r : Registry) (key : String) :
    (gone.foldl remove r).sample? key = if key ∈ gone then none else r.sample? key := by
  induction gone generalizing r with
  | nil => simp
  | cons name rest ih =>
    rw [List.foldl_cons, ih, sample?_remove]
    by_cases hrest : key ∈ rest
    · simp [hrest]
    · by_cases hname : name = key
      · simp [hname]
      · simp [hrest, hname, Ne.symm hname]

/-! ## Adopting -/

/-- After a sample is renewed its name leads to it, and every other name to where it led. -/
theorem sample?_renew (state : Changes × Registry) {d : Declaration} (h : d.IsSample)
    (key : String) :
    (renew state d).2.sample? key = if d.name = key then some d else state.2.sample? key := by
  obtain ⟨changes, r⟩ := state
  have hregister : (r.register d.name d.url).2.sample? key
      = if d.name = key then some d else r.sample? key := by
    rw [sample?_register r h.isBuiltin_eq_false, h.lowercase_name, h.keyed_eq]
  rw [renew]
  split
  · next old hold =>
    split
    · next hurl =>
      -- the sample stands as it should
      have hname : old.name = d.name := (sample?_eq_some_iff.mp hold).2
      have hsame : old = d := by
        cases old
        cases d
        simp_all
      by_cases hkey : d.name = key
      · rw [if_pos hkey, ← hkey, hold, hsame]
      · rw [if_neg hkey]
    · exact hregister
  · exact hregister

theorem sample?_foldl_renew {l : List Declaration} (h : ∀ d ∈ l, d.IsSample)
    (hordered : l.Pairwise fun d e => d.name < e.name) (state : Changes × Registry)
    (key : String) :
    (l.foldl renew state).2.sample? key
      = (l.find? fun d => d.name == key).or (state.2.sample? key) := by
  induction l generalizing state with
  | nil => rfl
  | cons d rest ih =>
    obtain ⟨hfirst, hrest⟩ := List.pairwise_cons.mp hordered
    rw [List.foldl_cons, ih (fun e he => h e (List.mem_cons_of_mem d he)) hrest,
      sample?_renew state (h d List.mem_cons_self)]
    by_cases hkey : d.name = key
    · -- no later sample has the name of the first
      have hlater : (rest.find? fun e => e.name == key) = none := by
        simp only [List.find?_eq_none, beq_iff_eq]
        intro e he heq
        have hlt : d.name < e.name := hfirst e he
        rw [hkey, heq] at hlt
        exact String.lt_irrefl key hlt
      simp [hkey, hlater]
    · simp [hkey]

/-- What a registry held before leaves no trace when it adopts declarations. -/
theorem adopt_snd (r : Registry) (declared : List Declaration) :
    (r.adopt declared).2 = wanted declared := by
  apply ext_sample?
  intro key
  rw [adopt, sample?_foldl_renew (wanted declared).isSample (wanted declared).ordered,
    sample?_foldl_remove]
  cases hwanted : (wanted declared).sample? key with
  | some d =>
    rw [sample?] at hwanted
    rw [hwanted]
    rfl
  | none =>
    have hfind : ((wanted declared).samples.find? fun d => d.name == key) = none := hwanted
    rw [hfind, Option.none_or]
    -- a sample that is not wanted is stale
    split
    · rfl
    · next hstale =>
      rw [sample?_eq_none_iff]
      rintro d hd rfl
      exact hstale (List.mem_map.mpr ⟨d, List.mem_filter.mpr ⟨hd, by simp [hwanted]⟩, rfl⟩)

/-- Of several declarations of one name the last counts. -/
theorem sample?_wanted (declared : List Declaration) {key : String}
    (hkey : builtins.lookup key = none) :
    (wanted declared).sample? key
      = (declared.filter fun d => Text.lowercase d.name == key).getLast?.map fun d =>
          .keyed d.name d.url := by
  rw [wanted]
  induction declared using List.reverseRecOn with
  | nil => rfl
  | append_singleton declared d ih =>
    rw [List.foldl_append, List.foldl_cons, List.foldl_nil, List.filter_append]
    by_cases hname : Text.lowercase d.name = key
    · have hforeign : isBuiltin d.name = false := by
        rw [isBuiltin, hname, hkey]
        rfl
      rw [sample?_register _ hforeign, if_pos hname]
      simp [hname]
    · cases hbuiltin : isBuiltin d.name with
      | true =>
        rw [register_of_isBuiltin _ hbuiltin, ih]
        simp [hname]
      | false =>
        rw [sample?_register _ hbuiltin, if_neg hname, ih]
        simp [hname]

theorem get?_wanted (declared : List Declaration) {name : String} (h : isBuiltin name = false) :
    (wanted declared).get? name
      = (declared.filter fun d => Text.lowercase d.name == Text.lowercase name).getLast?.map fun d =>
          (Declaration.keyed d.name d.url).channel := by
  have hkey : builtins.lookup (Text.lowercase name) = none := by simpa [isBuiltin] using h
  rw [get?, hkey, Option.none_or, sample?_wanted declared hkey, Option.map_map]
  rfl

/-! ## Which channels there are -/

theorem contains_eq (r : Registry) (name : String) :
    r.contains name = (isBuiltin name || (r.sample? (Text.lowercase name)).isSome) := by
  simp [contains, get?, isBuiltin]

theorem contains_of_isBuiltin (r : Registry) {name : String} (h : isBuiltin name = true) :
    r.contains name = true := by
  rw [contains_eq, h, Bool.true_or]

theorem isBuiltin_congr {name other : String} (h : Text.lowercase name = Text.lowercase other) :
    isBuiltin name = isBuiltin other := by
  rw [isBuiltin, h, isBuiltin]

theorem contains_register_iff (r : Registry) (name url other : String) :
    (r.register name url).2.contains other = true
      ↔ Text.lowercase name = Text.lowercase other ∨ r.contains other = true := by
  cases hbuiltin : isBuiltin name with
  | true =>
    rw [register_of_isBuiltin r hbuiltin]
    refine (or_iff_right_of_imp fun h => ?_).symm
    exact contains_of_isBuiltin r (isBuiltin_congr h ▸ hbuiltin)
  | false =>
    rw [contains_eq, sample?_register r hbuiltin, contains_eq]
    split
    · next h => simp [h]
    · next h => simp [h]

/-- The channels that declarations make: those that are built in and those that are declared. -/
theorem contains_wanted_iff (declared : List Declaration) (name : String) :
    (wanted declared).contains name = true
      ↔ isBuiltin name = true
        ∨ ∃ d ∈ declared, Text.lowercase d.name = Text.lowercase name := by
  have hgrown : ∀ r : Registry,
      (declared.foldl (fun found d => (found.register d.name d.url).2) r).contains name = true
        ↔ r.contains name = true ∨ ∃ d ∈ declared, Text.lowercase d.name = Text.lowercase name := by
    induction declared with
    | nil => simp
    | cons d rest ih =>
      intro r
      rw [List.foldl_cons, ih, contains_register_iff, List.exists_mem_cons_iff]
      tauto
  have hempty : empty.contains name = isBuiltin name := by
    rw [contains_eq]
    exact Bool.or_false _
  rw [wanted, hgrown, hempty]

/-- The registry of a text has the names that the text declares. -/
theorem contains_of_declared (r : Registry) {declared : List Declaration} {d : Declaration}
    (h : d ∈ declared) {name : String} (hname : Text.lowercase name = Text.lowercase d.name) :
    (r.adopt declared).2.contains name = true := by
  rw [adopt_snd, contains_wanted_iff]
  exact .inr ⟨d, h, hname.symm⟩

/-! ## One map of all channels -/

/-- All channels by their names: those that are built in and the samples. -/
def entries (r : Registry) : List (String × Channel) :=
  builtins ++ r.samples.map fun d => (d.name, d.channel)

theorem lookup_samples (l : List Declaration) (key : String) :
    (l.map fun d => (d.name, d.channel)).lookup key
      = (l.find? fun d => d.name == key).map Declaration.channel := by
  induction l with
  | nil => rfl
  | cons d rest ih =>
    rw [List.map_cons, List.lookup_cons, List.find?_cons]
    by_cases h : d.name = key
    · simp [h]
    · rw [beq_false_of_ne h, beq_false_of_ne (Ne.symm h), ih]

theorem lookup_entries (r : Registry) (key : String) :
    r.entries.lookup key = (builtins.lookup key).or ((r.sample? key).map Declaration.channel) := by
  rw [entries, List.lookup_append, lookup_samples]
  rfl

/-- No name stands there twice. -/
theorem nodup_entries (r : Registry) : (r.entries.map Prod.fst).Nodup := by
  have hnames : (r.samples.map fun d => (d.name, d.channel)).map Prod.fst = r.samples.map (·.name) := by
    rw [List.map_map]
    rfl
  rw [entries, List.map_append, hnames, List.nodup_append]
  refine ⟨by decide, r.nodup_names, fun name hbuiltin other hother => ?_⟩
  rintro rfl
  obtain ⟨d, hd, hname⟩ := List.mem_map.mp hother
  obtain ⟨entry, hentry, hkey⟩ := List.mem_map.mp hbuiltin
  have hforeign := List.lookup_eq_none_iff.mp (r.isSample d hd).foreign entry hentry
  simp [hname, hkey] at hforeign

theorem lookup_entries_eq_some_iff {r : Registry} {key : String} {c : Channel} :
    r.entries.lookup key = some c ↔ (key, c) ∈ r.entries := by
  rw [List.lookup_eq_some_iff]
  constructor
  · rintro ⟨before, after, hentries, -⟩
    simp [hentries]
  · intro hmem
    obtain ⟨before, after, hentries⟩ := List.append_of_mem hmem
    refine ⟨before, after, hentries, fun entry hentry => ?_⟩
    have hnodup := r.nodup_entries
    rw [hentries, List.map_append, List.map_cons, List.nodup_append] at hnodup
    exact bne_iff_ne.mpr (hnodup.2.2 _ (List.mem_map_of_mem hentry) _ List.mem_cons_self).symm

/-- A name leads to the channel that stands in the map under it, in lower case. -/
theorem get?_eq_some_iff {r : Registry} {name : String} {c : Channel} :
    r.get? name = some c ↔ (Text.lowercase name, c) ∈ r.entries := by
  rw [← lookup_entries_eq_some_iff, lookup_entries]
  rfl

/-- What is built in is what stands in the map and is no sample. -/
theorem isBuiltin_iff_get? (r : Registry) (name : String) :
    isBuiltin name = true ↔ ∃ c, r.get? name = some c ∧ c.kind ≠ .sample := by
  have hkinds : ∀ entry ∈ builtins, entry.2.kind ≠ .sample := by decide
  rw [isBuiltin, get?]
  cases hlookup : builtins.lookup (Text.lowercase name) with
  | some c =>
    obtain ⟨before, after, hbuiltins, -⟩ := List.lookup_eq_some_iff.mp hlookup
    exact iff_of_true rfl ⟨c, rfl, hkinds (Text.lowercase name, c) (by simp [hbuiltins])⟩
  | none =>
    refine iff_of_false Bool.false_ne_true ?_
    rintro ⟨c, hc, hkind⟩
    rw [Option.none_or] at hc
    obtain ⟨d, -, rfl⟩ := Option.map_eq_some_iff.mp hc
    exact hkind rfl

end Registry

end Stave
