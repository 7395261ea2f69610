import Stave.Proofs.Sample.Loading
import Stave.Proofs.Score.Adopting
import Stave.Proofs.Score.Sounding
import Stave.Sound.Drum
import Stave.Wav.Encode

/-!
# The recordings of a text

What is loaded for a compiled text is what its registry holds.  Registry and loader go over the
declarations of the text by themselves, and for each name that is not built in both end up with the
address that is declared last.  So a name is loaded from the address under which the registry knows it,
and no recording takes the place of a drum.
-/

namespace Stave

/-- A merged bank keeps what the other bank does not have. -/
theorem Bank.get?_merge_of_not_contains {bank other : Bank} {name : String}
    (h : other.contains name = false) :
    Named.get? name (bank.merge other) = Named.get? name bank := by
  have hnone : other.filter (fun e => e.1 == name) = [] := by
    rw [List.filter_eq_nil_iff]
    intro e he hname
    have hthere : other.contains name = true :=
      (Named.isSome_get?_iff other name).mpr ⟨e.2, eq_of_beq hname ▸ he⟩
    rw [h] at hthere
    cases hthere
  rw [merge, Named.get?_setAll, hnone]
  rfl

/-- The channels of drums are built in. -/
theorem Drum.isBuiltin_channel (d : Drum) : Registry.isBuiltin d.channel = true := by
  cases d <;> decide +kernel

/-- No built-in name is among the samples of a registry. -/
theorem Registry.notMem_names_of_isBuiltin {r : Registry} {name : String}
    (h : isBuiltin name = true) : name ∉ r.names := by
  rw [mem_names_iff, sample?_eq_none_of_isBuiltin r h]
  exact Bool.false_ne_true

namespace Loaded

section Compiled

variable (text : List Char) (r : Registry)

/-- The address that is loaded for a name is the one that the registry has. -/
theorem get?_addresses_ofText (name : String) :
    Named.get? name (addresses (Composition.ofText text r).1.declarations)
      = ((Composition.ofText text r).2.sample? name).map (·.url) := by
  have hlower : ∀ d ∈ (Text.lines text).filterMap Heading.declaration?,
      Text.lowercase d.name = d.name := by
    intro d hd
    obtain ⟨line, -, hdeclares⟩ := List.mem_filterMap.mp hd
    exact Heading.lowercase_declaration hdeclares
  rw [get?_addresses, Composition.declarations_ofText, Composition.ofText_eq,
    Registry.sample?_wanted_eq, Option.map_map, List.filter_filter, Registry.lastUrl?]
  generalize (Text.lines text).filterMap Heading.declaration? = declared at hlower ⊢
  split
  · next hbuiltin =>
    -- what is declared under a built-in name is left out
    rw [List.filter_eq_nil_iff.mpr fun d _ hd => ?_]
    · rfl
    · obtain ⟨hname, hforeign⟩ := Bool.and_eq_true_iff.mp hd
      rw [eq_of_beq hname, hbuiltin] at hforeign
      cases hforeign
  · next hforeign =>
    rw [List.filter_congr fun d hd => ?_]
    · exact (Option.map_id' (x := _)).symm
    · rw [hlower d hd]
      by_cases hname : d.name = name
      · simp [hname, hforeign]
      · simp [hname]

theorem mem_addresses_ofText_iff (name url : String) :
    (name, url) ∈ addresses (Composition.ofText text r).1.declarations
      ↔ ⟨name, url⟩ ∈ (Composition.ofText text r).2.samples := by
  rw [Named.mem_iff_get? (nodup_addresses _), get?_addresses_ofText, Option.map_eq_some_iff,
    Registry.mem_samples_iff]
  constructor
  · rintro ⟨d, hd, rfl⟩
    rw [hd, ← (Registry.sample?_eq_some_iff.mp hd).2]
  · intro h
    exact ⟨_, h, rfl⟩

/-- Each name that a registry holds is loaded once, and nothing else is. -/
theorem perm_addresses_ofText :
    (addresses (Composition.ofText text r).1.declarations).Perm
      ((Composition.ofText text r).2.samples.map fun d => (d.name, d.url)) := by
  have hnodup : ((Composition.ofText text r).2.samples.map fun d => (d.name, d.url)).Nodup := by
    refine List.Nodup.of_map Prod.fst ?_
    rw [List.map_map]
    exact (Composition.ofText text r).2.nodup_names
  rw [List.perm_ext_iff_of_nodup (nodup_addresses _).of_map hnodup]
  rintro ⟨name, url⟩
  rw [mem_addresses_ofText_iff, List.mem_map]
  constructor
  · exact fun h => ⟨_, h, rfl⟩
  · rintro ⟨d, hd, heq⟩
    cases heq
    exact hd

/-- The names that a text declares are those of its registry. -/
theorem mem_names_ofText_iff (name : String) :
    name ∈ (Composition.ofText text r).2.names
      ↔ name ∈ (Composition.ofText text r).1.declarations.map (·.name) := by
  rw [List.mem_map, ← exists_mem_addresses, Registry.names, List.mem_map]
  simp only [mem_addresses_ofText_iff]
  constructor
  · rintro ⟨d, hd, rfl⟩
    exact ⟨d.url, hd⟩
  · rintro ⟨url, hd⟩
    exact ⟨_, hd, rfl⟩

end Compiled

/-- What is loaded depends on what is read from the addresses of the declarations alone. -/
theorem ofDeclarations_congr {declared : List Declaration} {source other : Source}
    (h : ∀ a ∈ addresses declared, other a.2 = source a.2) (sampleRate : Nat) :
    ofDeclarations declared other sampleRate = ofDeclarations declared source sampleRate := by
  have hresults : (addresses declared).map (fun a => (a.1, fetch other sampleRate a.2))
      = (addresses declared).map fun a => (a.1, fetch source sampleRate a.2) :=
    List.map_congr_left fun a ha => by rw [fetch, h a ha, fetch]
  simp only [ofDeclarations, hresults]

/-- Whether what was read for a name is kept under it: a recording in the bank, or the name among those
that failed, and not both. -/
def Keeps (l : Loaded) (name : String) : Except RecordingError Recording → Prop
  | .ok recording => Named.get? name l.bank = some recording ∧ name ∉ l.failed
  | .error _ => Named.get? name l.bank = none ∧ name ∈ l.failed

theorem keeps_of_get?_addresses {declared : List Declaration} {name url : String}
    (h : Named.get? name (addresses declared) = some url) (source : Source) (sampleRate : Nat) :
    (ofDeclarations declared source sampleRate).Keeps name (fetch source sampleRate url) := by
  have hbank := get?_bank declared source sampleRate name
  have hfailed := mem_failed_iff declared source sampleRate name
  rw [h, Option.bind_some] at hbank
  simp only [h, Option.some.injEq, exists_eq_left'] at hfailed
  cases hfetch : fetch source sampleRate url with
  | ok recording =>
    rw [hfetch] at hbank hfailed
    exact ⟨hbank, fun hmem => by cases hfailed.mp hmem⟩
  | error e =>
    rw [hfetch] at hbank hfailed
    exact ⟨hbank, hfailed.mpr rfl⟩

/-- The names that a text declares are those of its registry, and each is loaded once, from the address
under which the registry knows it and from no other.  It gets its recording or is among the names that
failed, which stand as they are first declared.  No other name gets either, and the drums stay as they
are. -/
theorem loaded_as_registered (text : List Char) (r : Registry) (source : Source) (sampleRate : Nat)
    (seed : UInt64) :
    let composition := (Composition.ofText text r).1
    let registry := (Composition.ofText text r).2
    let loaded := ofDeclarations composition.declarations source sampleRate
    (∀ name, name ∈ composition.declarations.map (·.name) ↔ name ∈ registry.names)
      ∧ (addresses composition.declarations).Perm (registry.samples.map fun d => (d.name, d.url))
      ∧ (∀ other : Source, (∀ d ∈ registry.samples, other d.url = source d.url) →
        ofDeclarations composition.declarations other sampleRate = loaded)
      ∧ (∀ d ∈ registry.samples, loaded.Keeps d.name (fetch source sampleRate d.url))
      ∧ loaded.failed.Sublist (composition.declarations.map (·.name)).eraseDups
      ∧ (∀ name, name ∉ registry.names → loaded.bank.contains name = false ∧ name ∉ loaded.failed)
      ∧ ∀ drum : Drum, Named.get? drum.channel ((Drum.kit sampleRate seed).merge loaded.bank)
        = Named.get? drum.channel (Drum.kit sampleRate seed) := by
  intro composition registry loaded
  have hothers : ∀ name, name ∉ registry.names →
      loaded.bank.contains name = false ∧ name ∉ loaded.failed := by
    intro name hname
    have hnone : Named.get? name (addresses composition.declarations) = none := by
      rw [get?_addresses_ofText, Option.map_eq_none_iff, ← Option.not_isSome_iff_eq_none,
        ← Registry.mem_names_iff]
      exact hname
    rw [Bank.contains, get?_bank, mem_failed_iff, hnone]
    exact ⟨rfl, by simp⟩
  refine ⟨fun name => (mem_names_ofText_iff text r name).symm, perm_addresses_ofText text r,
    fun other hother => ?_, fun d hd => ?_, ?_, hothers, fun drum => ?_⟩
  · refine ofDeclarations_congr (fun a ha => ?_) sampleRate
    exact hother _ ((mem_addresses_ofText_iff text r a.1 a.2).mp ha)
  · refine keeps_of_get?_addresses ?_ source sampleRate
    rw [get?_addresses_ofText, Registry.mem_samples_iff.mp hd]
    rfl
  · rw [← map_fst_addresses, failed_eq]
    exact List.filter_sublist.map _
  · exact Bank.get?_merge_of_not_contains
      (hothers _ (Registry.notMem_names_of_isBuiltin drum.isBuiltin_channel)).1

/-- A sample that is declared twice and cannot be fetched, one that is a file of a single sample, and a
drum that is declared in vain. -/
theorem loaded_as_registered_of_repeated_name :
    let text :=
      "vox: http://a/v.wav\nkick: http://a/k.wav\ngong: http://a/g.wav\nVox: http://b/v.wav".toList
    let source : Source := fun url =>
      if url = "http://a/g.wav" then .ok (Wav.preamble 8 1 2 ++ [0x00, 0x40])
      else .error (.unreachable url)
    let other : Source := fun url => if url = "http://a/v.wav" then .ok [] else source url
    let composition := (Composition.ofText text .empty).1
    let registry := (Composition.ofText text .empty).2
    let loaded := ofDeclarations composition.declarations source 8
    registry.names = ["gong", "vox"]
      ∧ ("vox", "http://b/v.wav") ∈ addresses composition.declarations
      ∧ ofDeclarations composition.declarations other 8 = loaded
      ∧ Named.get? "vox" loaded.bank = none
      ∧ loaded.failed.Sublist ["vox", "gong"]
      ∧ (∃ recording, Named.get? "gong" loaded.bank = some recording) ∧ "gong" ∉ loaded.failed
      ∧ loaded.bank.contains "kick" = false
      ∧ Named.get? "kick" ((Drum.kit 8 0).merge loaded.bank) = Named.get? "kick" (Drum.kit 8 0) := by
  intro text source other composition registry loaded
  obtain ⟨-, haddresses, hsources, hkept, hfailed, hothers, hdrums⟩ :=
    loaded_as_registered text .empty source 8 0
  have hsamples : registry.samples = [⟨"gong", "http://a/g.wav"⟩, ⟨"vox", "http://b/v.wav"⟩] := by
    decide +kernel
  have hnames : registry.names = ["gong", "vox"] := by rw [Registry.names, hsamples]; rfl
  have hvox := hkept ⟨"vox", "http://b/v.wav"⟩ (by rw [hsamples]; simp)
  have hgong := hkept ⟨"gong", "http://a/g.wav"⟩ (by rw [hsamples]; simp)
  have hnone : fetch source 8 "http://b/v.wav" = .error (.unreachable "http://b/v.wav") := by
    simp [fetch, source, Except.bind]
  have hfile : (fetch source 8 "http://a/g.wav").isOk = true := by decide +kernel
  have horder : (composition.declarations.map (·.name)).eraseDups = ["vox", "gong"] := by
    decide +kernel
  cases hfetch : fetch source 8 "http://a/g.wav" with
  | error e => rw [hfetch] at hfile; cases hfile
  | ok recording =>
    rw [hnone] at hvox
    rw [hfetch] at hgong
    refine ⟨hnames, haddresses.mem_iff.mpr (by rw [hsamples]; simp), hsources other ?_, hvox.1,
      horder ▸ hfailed, ⟨recording, hgong.1⟩, hgong.2, (hothers "kick" (by rw [hnames]; decide)).1,
      hdrums .kick⟩
    rw [hsamples]
    simp [other]

end Loaded

end Stave
