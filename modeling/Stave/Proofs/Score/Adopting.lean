import Stave.Proofs.Score.Registry
import Stave.Proofs.Song.Named

/-!
# What adopting declarations changes

A registry that adopts a list of declarations holds the declared names afterwards, each with the address
that is declared last, and reports how that differs from what it held before.  Built-in names are neither
taken nor lost.  Adopting the same declarations again changes nothing.
-/

namespace Stave

/-- Whether the names stand in order, none of them twice, and are those of which `p` holds. -/
structure IsListing (names : List String) (p : String → Prop) : Prop where
  ordered : names.Pairwise (· < ·)
  mem_iff : ∀ name, name ∈ names ↔ p name

namespace Registry

/-- The names of the sample channels. -/
def names (r : Registry) : List String := r.samples.map (·.name)

/-- The address that is declared last for a name in lower case.  A built-in name has none. -/
def lastUrl? (declared : List Declaration) (key : String) : Option String :=
  if isBuiltin key then none
  else (declared.filter fun d => Text.lowercase d.name == key).getLast?.map (·.url)

end Registry

/-- Whether the changes are those between two registries, of which the second has adopted the
declarations. -/
structure Changes.AreBetween (c : Changes) (before after : Registry) (declared : List Declaration) :
    Prop where
  added : IsListing c.added fun name => name ∈ after.names ∧ name ∉ before.names
  removed : IsListing c.removed fun name => name ∈ before.names ∧ name ∉ after.names
  changed : IsListing c.changed fun name =>
    ∃ old ∈ before.samples, ∃ new ∈ after.samples, old.name = name ∧ new.name = name
      ∧ old.url ≠ new.url
  /-- The built-in names among the declared ones, where each comes first. -/
  rejected : c.rejected
    = ((declared.map fun d => Text.lowercase d.name).filter Registry.isBuiltin).eraseDups

namespace Registry

/-! ## Names -/

theorem lookup_builtins_eq_none {key : String} (h : ¬isBuiltin key) : builtins.lookup key = none := by
  -- built-in names are in lower case
  have hlower : ∀ entry ∈ builtins, Text.lowercase entry.1 = entry.1 := by decide +kernel
  rw [Option.eq_none_iff_forall_ne_some]
  intro c hc
  obtain ⟨before, after, hbuiltins, -⟩ := List.lookup_eq_some_iff.mp hc
  rw [isBuiltin, hlower (key, c) (by simp [hbuiltins]), hc] at h
  exact h rfl

theorem sample?_eq_none_of_isBuiltin (r : Registry) {key : String} (h : isBuiltin key = true) :
    r.sample? key = none := by
  rw [sample?_eq_none_iff]
  rintro d hd rfl
  rw [(r.isSample d hd).isBuiltin_eq_false] at h
  cases h

theorem mem_names_iff {r : Registry} {name : String} :
    name ∈ r.names ↔ (r.sample? name).isSome = true := by
  rw [← not_iff_not, names, Bool.not_eq_true, Option.isSome_eq_false_iff, Option.isNone_iff_eq_none,
    sample?_eq_none_iff]
  simp

theorem mem_samples_iff {r : Registry} {d : Declaration} :
    d ∈ r.samples ↔ r.sample? d.name = some d := by
  rw [sample?_eq_some_iff, and_iff_left rfl]

theorem pairwise_names_filter (r : Registry) (p : Declaration → Bool) :
    ((r.samples.filter p).map (·.name)).Pairwise (· < ·) :=
  List.pairwise_map.mpr (r.ordered.filter p)

/-- What declarations alone make: their names lead to the addresses that are declared last. -/
theorem sample?_wanted_eq (declared : List Declaration) (key : String) :
    (wanted declared).sample? key = (lastUrl? declared key).map (⟨key, ·⟩) := by
  rw [lastUrl?]
  split
  · next hbuiltin => rw [sample?_eq_none_of_isBuiltin _ hbuiltin, Option.map_none]
  · next hforeign =>
    rw [sample?_wanted declared (lookup_builtins_eq_none hforeign), Option.map_map]
    refine Option.map_congr fun d hd => ?_
    have hname := (List.mem_filter.mp (List.mem_of_mem_getLast? hd)).2
    rw [Declaration.keyed, eq_of_beq hname]
    rfl

theorem lookup_entries_adopt (r : Registry) (declared : List Declaration) (key : String) :
    (r.adopt declared).2.entries.lookup key
      = if isBuiltin key then r.entries.lookup key
        else (lastUrl? declared key).map fun url => (⟨key, url⟩ : Declaration).channel := by
  rw [adopt_snd, lookup_entries, lookup_entries, sample?_wanted_eq, Option.map_map]
  split
  · next hbuiltin =>
    rw [sample?_eq_none_of_isBuiltin r hbuiltin, lastUrl?, if_pos hbuiltin]
    rfl
  · next hforeign =>
    rw [lookup_builtins_eq_none hforeign, Option.none_or]
    rfl

/-- Of the map of all channels, adopting keeps what is built in; all other names lead to the addresses
that are declared last, or nowhere. -/
theorem mem_entries_adopt (r : Registry) (declared : List Declaration) (key : String) (c : Channel) :
    (key, c) ∈ (r.adopt declared).2.entries
      ↔ if isBuiltin key then (key, c) ∈ r.entries
        else ∃ url, lastUrl? declared key = some url ∧ (⟨key, url⟩ : Declaration).channel = c := by
  rw [← lookup_entries_eq_some_iff, lookup_entries_adopt]
  split
  · exact lookup_entries_eq_some_iff
  · exact Option.map_eq_some_iff

/-! ## Reports -/

/-- Whether a registry has no sample of that name. -/
def isNew (r : Registry) (d : Declaration) : Bool := (r.sample? d.name).isNone

/-- Whether a registry has a sample of that name with another address. -/
def isMoved (r : Registry) (d : Declaration) : Bool :=
  (r.sample? d.name).any fun old => old.url != d.url

theorem isNew_iff {r : Registry} {d : Declaration} : r.isNew d = true ↔ d.name ∉ r.names := by
  rw [mem_names_iff, isNew, Option.isNone_iff_eq_none, Option.not_isSome_iff_eq_none]

theorem isNew_congr {r s : Registry} {d : Declaration} (h : r.sample? d.name = s.sample? d.name) :
    r.isNew d = s.isNew d := by
  rw [isNew, h, isNew]

theorem isMoved_congr {r s : Registry} {d : Declaration} (h : r.sample? d.name = s.sample? d.name) :
    r.isMoved d = s.isMoved d := by
  rw [isMoved, h, isMoved]

theorem changes_renew (changes : Changes) (r : Registry) (d : Declaration) :
    (renew (changes, r) d).1
      = { changes with
          added := changes.added ++ ([d].filter r.isNew).map (·.name)
          changed := changes.changed ++ ([d].filter r.isMoved).map (·.name) } := by
  rw [renew]
  cases hsample : r.sample? d.name with
  | none => simp [isNew, isMoved, hsample]
  | some old => by_cases hurl : old.url = d.url <;> simp [isNew, isMoved, hsample, hurl]

/-- Renewing samples one after the other reports each by what the registry held at first, because no
later one has the name of an earlier one. -/
theorem changes_foldl_renew {l : List Declaration} (h : ∀ d ∈ l, d.IsSample)
    (hordered : l.Pairwise fun d e => d.name < e.name) (changes : Changes) (r : Registry) :
    (l.foldl renew (changes, r)).1
      = { changes with
          added := changes.added ++ (l.filter r.isNew).map (·.name)
          changed := changes.changed ++ (l.filter r.isMoved).map (·.name) } := by
  induction l generalizing changes r with
  | nil => simp
  | cons d rest ih =>
    obtain ⟨hfirst, hrest⟩ := List.pairwise_cons.mp hordered
    have hlater : ∀ e ∈ rest, (renew (changes, r) d).2.sample? e.name = r.sample? e.name := by
      intro e he
      rw [sample?_renew (changes, r) (h d List.mem_cons_self), if_neg]
      exact fun heq => String.lt_irrefl e.name (heq ▸ hfirst e he)
    have hnew : rest.filter (renew (changes, r) d).2.isNew = rest.filter r.isNew :=
      List.filter_congr fun e he => isNew_congr (hlater e he)
    have hmoved : rest.filter (renew (changes, r) d).2.isMoved = rest.filter r.isMoved :=
      List.filter_congr fun e he => isMoved_congr (hlater e he)
    have hboth : ∀ p : Declaration → Bool, (d :: rest).filter p = [d].filter p ++ rest.filter p :=
      fun p => by rw [← List.filter_append, List.singleton_append]
    rw [List.foldl_cons, ← Prod.eta (p := renew (changes, r) d),
      ih (fun e he => h e (List.mem_cons_of_mem d he)) hrest, hnew, hmoved, changes_renew, hboth,
      hboth, List.map_append, List.map_append, List.append_assoc, List.append_assoc]

/-- The report says for each wanted sample what the registry held before. -/
theorem changes_adopt (r : Registry) (declared : List Declaration) :
    (r.adopt declared).1
      = { added := ((wanted declared).samples.filter r.isNew).map (·.name)
          removed := r.stale declared
          changed := ((wanted declared).samples.filter r.isMoved).map (·.name)
          rejected := rejected declared } := by
  have hkept : ∀ d ∈ (wanted declared).samples,
      ((r.stale declared).foldl remove r).sample? d.name = r.sample? d.name := by
    intro d hd
    rw [sample?_foldl_remove, if_neg]
    intro hstale
    obtain ⟨e, he, hname⟩ := List.mem_map.mp hstale
    have hnone := (List.mem_filter.mp he).2
    rw [hname, mem_samples_iff.mp hd] at hnone
    cases hnone
  rw [adopt, changes_foldl_renew (wanted declared).isSample (wanted declared).ordered,
    List.filter_congr fun d hd => isNew_congr (hkept d hd),
    List.filter_congr fun d hd => isMoved_congr (hkept d hd)]
  rfl

theorem rejected_eq (declared : List Declaration) :
    rejected declared
      = ((declared.map fun d => Text.lowercase d.name).filter isBuiltin).eraseDups := by
  rw [rejected, foldl_contains]
  simp only [List.filter_map, Function.comp_def, isBuiltin_congr (Text.lowercase_lowercase _)]

/-- The samples whose names another registry does not have. -/
theorem isListing_new (r s : Registry) :
    IsListing ((r.samples.filter s.isNew).map (·.name)) fun name => name ∈ r.names ∧ name ∉ s.names where
  ordered := pairwise_names_filter r _
  mem_iff name := by
    rw [List.mem_map]
    simp only [List.mem_filter, isNew_iff]
    constructor
    · rintro ⟨d, ⟨hd, hnew⟩, rfl⟩
      exact ⟨List.mem_map_of_mem hd, hnew⟩
    · rintro ⟨hthere, hnew⟩
      obtain ⟨d, hd, rfl⟩ := List.mem_map.mp hthere
      exact ⟨d, ⟨hd, hnew⟩, rfl⟩

theorem isListing_moved (r s : Registry) :
    IsListing ((r.samples.filter s.isMoved).map (·.name)) fun name =>
      ∃ old ∈ s.samples, ∃ new ∈ r.samples, old.name = name ∧ new.name = name
        ∧ old.url ≠ new.url where
  ordered := pairwise_names_filter r _
  mem_iff name := by
    simp only [List.mem_map, List.mem_filter]
    constructor
    · rintro ⟨new, ⟨hnew, hmoved⟩, rfl⟩
      obtain ⟨old, hold, hurl⟩ := (Option.any_eq_true _ _).mp hmoved
      obtain ⟨hmem, hname⟩ := sample?_eq_some_iff.mp hold
      exact ⟨old, hmem, new, hnew, hname, rfl, bne_iff_ne.mp hurl⟩
    · rintro ⟨old, hold, new, hnew, hname, rfl, hurl⟩
      have hsample := sample?_eq_some_iff.mpr ⟨hold, hname⟩
      exact ⟨new, ⟨hnew, by simp [isMoved, hsample, hurl]⟩, rfl⟩

theorem areBetween_adopt (r : Registry) (declared : List Declaration) :
    (r.adopt declared).1.AreBetween r (r.adopt declared).2 declared := by
  rw [changes_adopt, adopt_snd]
  exact ⟨isListing_new _ r, isListing_new r _, isListing_moved _ r, rejected_eq declared⟩

/-- Adopting what a registry holds already changes nothing. -/
theorem adopt_adopt (r : Registry) (declared : List Declaration) :
    (r.adopt declared).2.adopt declared
      = ({ added := [], removed := [], changed := [], rejected := (r.adopt declared).1.rejected },
          (r.adopt declared).2) := by
  have hheld : ∀ d ∈ (wanted declared).samples, (wanted declared).sample? d.name = some d :=
    fun d hd => mem_samples_iff.mp hd
  have hadded : (wanted declared).samples.filter (wanted declared).isNew = [] :=
    List.filter_eq_nil_iff.mpr fun d hd => by simp [isNew, hheld d hd]
  have hchanged : (wanted declared).samples.filter (wanted declared).isMoved = [] :=
    List.filter_eq_nil_iff.mpr fun d hd => by simp [isMoved, hheld d hd]
  have hstale : (wanted declared).stale declared = [] := by
    rw [stale, List.map_eq_nil_iff, List.filter_eq_nil_iff]
    exact fun d hd => by simp [hheld d hd]
  refine Prod.ext ?_ ?_
  · rw [changes_adopt, changes_adopt, adopt_snd, hadded, hchanged, hstale]
    rfl
  · rw [adopt_snd, adopt_snd]

/-- A registry that adopts declarations keeps what is built in, and holds the declared names instead of
its own, each with the address that is declared last for it.  It reports what that changed, and adopting
the same declarations again changes nothing and reports the same built-in names only. -/
theorem adopt_declared (r : Registry) (declared : List Declaration) :
    (∀ name, isBuiltin name = true →
      (r.adopt declared).2.get? name = r.get? name ∧ (r.get? name).isSome = true)
    ∧ (∀ d, d ∈ (r.adopt declared).2.samples ↔ lastUrl? declared d.name = some d.url)
    ∧ (r.adopt declared).1.AreBetween r (r.adopt declared).2 declared
    ∧ (r.adopt declared).2.adopt declared
      = ({ added := [], removed := [], changed := [], rejected := (r.adopt declared).1.rejected },
          (r.adopt declared).2) := by
  refine ⟨fun name h => ?_, fun d => ?_, areBetween_adopt r declared, adopt_adopt r declared⟩
  · have hkey : isBuiltin (Text.lowercase name) = true := by
      rwa [isBuiltin_congr (Text.lowercase_lowercase name)]
    obtain ⟨c, hc, -⟩ := (r.isBuiltin_iff_get? name).mp h
    have hkept : (Text.lowercase name, c) ∈ (r.adopt declared).2.entries := by
      rw [mem_entries_adopt, if_pos hkey]
      exact get?_eq_some_iff.mp hc
    exact ⟨(get?_eq_some_iff.mpr hkept).trans hc.symm, Option.isSome_of_eq_some hc⟩
  · rw [adopt_snd, mem_samples_iff, sample?_wanted_eq]
    cases lastUrl? declared d.name with
    | none => simp
    | some url => cases d; simp

/-- One sample moves, one goes, one comes under two spellings of its name, and a built-in name is refused
twice. -/
theorem adopt_declared_of_moved_sample :
    let r := ((empty.register "Vox" "http://a/v.wav").2.register "drone" "http://a/d.wav").2
    let declared : List Declaration := [⟨"vox", "http://b/v.wav"⟩, ⟨"Gong", "http://a/g.wav"⟩,
      ⟨"snare", "http://a/s.wav"⟩, ⟨"GONG", "http://b/g.wav"⟩, ⟨"Snare", "http://b/s.wav"⟩]
    (r.adopt declared).2.get? "Snare" = r.get? "Snare"
      ∧ (⟨"gong", "http://b/g.wav"⟩ : Declaration) ∈ (r.adopt declared).2.samples
      ∧ "drone" ∈ (r.adopt declared).1.removed
      ∧ (r.adopt declared).1.rejected = ["snare"]
      ∧ ((r.adopt declared).2.adopt declared).1
        = { added := [], removed := [], changed := [], rejected := ["snare"] } := by
  intro r declared
  obtain ⟨hbuiltin, hsamples, hchanges, hagain⟩ := adopt_declared r declared
  have hrejected : (r.adopt declared).1.rejected = ["snare"] := by
    rw [hchanges.rejected]
    decide +kernel
  refine ⟨(hbuiltin "Snare" (by decide +kernel)).1, (hsamples _).mpr (by decide +kernel),
    (hchanges.removed.mem_iff "drone").mpr (by decide +kernel), hrejected, ?_⟩
  rw [hagain, hrejected]

end Registry

end Stave
