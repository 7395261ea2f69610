import Stave.Proofs.Sample.Loading
import Stave.Proofs.Score.Sounding
import Stave.Router
import Stave.Sound.Drum

/-!
# What is routed

A router plays the channels that it was made for and that have an instrument.  The built-in
channels have one as soon as the bank holds all drums, and any other channel of the registry as soon
as the bank holds its recording.
-/

namespace Stave

/-- A kit has every drum. -/
theorem Drum.contains_kit (d : Drum) (sampleRate : Nat) (seed : UInt64) :
    (kit sampleRate seed).contains d.channel = true := by
  rw [Bank.contains, Named.isSome_get?_iff]
  have hall : d ∈ all := by cases d <;> decide
  obtain ⟨i, hi⟩ := List.mem_iff_getElem?.mp hall
  exact ⟨_, List.mem_map.mpr ⟨(d, i), List.mem_zipIdx_iff_getElem?.mpr hi, rfl⟩⟩

namespace Router

/-! ## Instruments -/

section Instruments

variable {registry : Registry} {bank : Bank} {name : String}

theorem isSome_recorded? (h : bank.contains name = true) : (recorded? name bank).isSome = true := by
  rw [recorded?, if_pos h]
  rfl

/-- A built-in channel has an instrument. -/
theorem isSome_instrumentOf?_of_builtin (hbuiltin : Registry.isBuiltin name = true)
    (hlower : Text.lowercase name = name) (hdrums : ∀ d : Drum, bank.contains d.channel = true)
    (voices : Named VoiceSettings) (seed : UInt64) :
    (instrumentOf? registry voices bank seed name).isSome = true := by
  rw [Registry.isBuiltin, hlower] at hbuiltin
  obtain ⟨c, hc⟩ := Option.isSome_iff_exists.mp hbuiltin
  have hget : registry.get? name = some c := by
    rw [Registry.get?, hlower, hc]
    rfl
  rw [instrumentOf?, hget, Option.bind_some]
  -- five channels have an instrument under their own name, and four play a drum
  obtain ⟨before, after, hbuiltins, -⟩ := List.lookup_eq_some_iff.mp hc
  have hmem : (name, c) ∈ Registry.builtins := by simp [hbuiltins]
  simp only [Registry.builtins, List.mem_cons, Prod.mk.injEq, List.not_mem_nil, or_false] at hmem
  rcases hmem with ⟨rfl, rfl⟩ | ⟨rfl, rfl⟩ | ⟨rfl, rfl⟩ | ⟨rfl, rfl⟩ | ⟨rfl, rfl⟩ | ⟨rfl, rfl⟩
    | ⟨rfl, rfl⟩ | ⟨rfl, rfl⟩ | ⟨rfl, rfl⟩
  · rfl
  · rfl
  · rfl
  · rfl
  · rfl
  · exact isSome_recorded? (hdrums .kick)
  · exact isSome_recorded? (hdrums .snare)
  · exact isSome_recorded? (hdrums .hihat)
  · exact isSome_recorded? (hdrums .clap)

/-- A channel that is not built in has an instrument when it has a recording. -/
theorem isSome_instrumentOf?_of_sample (hforeign : Registry.isBuiltin name = false)
    (hthere : registry.contains name = true) (hbank : bank.contains name = true)
    (voices : Named VoiceSettings) (seed : UInt64) :
    (instrumentOf? registry voices bank seed name).isSome = true := by
  obtain ⟨c, hget⟩ := Option.isSome_iff_exists.mp hthere
  rw [instrumentOf?, hget, Option.bind_some]
  simp only [(Registry.sample_of_get? hget hforeign).1]
  exact isSome_recorded? hbank

end Instruments

/-! ## Routes -/

theorem plays_assign_iff (r : Router) (channel other : String) (instrument : Instrument) :
    (r.assign channel instrument).plays other = true ↔ channel = other ∨ r.plays other = true :=
  Named.isSome_get?_set channel other instrument r.routes

/-- Volumes leave the routes as they are. -/
theorem routes_foldl_setVolume (volumes : Named Float) (r : Router) :
    (volumes.foldl (fun (r : Router) (channel, db) => r.setVolume channel db) r).routes
      = r.routes := by
  induction volumes generalizing r with
  | nil => rfl
  | cons volume rest ih =>
    rw [List.foldl_cons, ih]
    rfl

/-- When each of several steps may route its own channel, all of them together route theirs. -/
theorem plays_foldl_iff {step : Router → String → Router} {name : String} {has : Prop}
    (hstep : ∀ r channel,
      (step r channel).plays name = true ↔ (channel = name ∧ has) ∨ r.plays name = true)
    (channels : List String) (r : Router) :
    (channels.foldl step r).plays name = true
      ↔ (name ∈ channels ∧ has) ∨ r.plays name = true := by
  induction channels generalizing r with
  | nil => simp
  | cons channel rest ih =>
    rw [List.foldl_cons, ih, hstep, List.mem_cons, @eq_comm _ channel, or_and_right, or_assoc]
    exact or_left_comm

/-- A router plays the channels that it was made for, as far as they have an instrument. -/
theorem plays_ofChannels_iff (channels : List String) (registry : Registry)
    (voices : Named VoiceSettings) (volumes : Named Float) (bank : Bank) (seed : UInt64)
    (name : String) :
    (ofChannels channels registry voices volumes bank seed).plays name = true
      ↔ name ∈ channels ∧ (instrumentOf? registry voices bank seed name).isSome = true := by
  rw [plays, ofChannels, routes_foldl_setVolume, ← plays]
  refine (plays_foldl_iff (fun r channel => ?_) channels empty).trans (or_iff_left ?_)
  · split
    · next hnone =>
      refine (or_iff_right ?_).symm
      rintro ⟨rfl, hsome⟩
      rw [hnone] at hsome
      cases hsome
    · next instrument hinstrument =>
      rw [plays_assign_iff]
      refine or_congr_left (and_iff_left_of_imp ?_).symm
      rintro rfl
      rw [hinstrument]
      rfl
  · simp [empty, plays, Named.get?]

/-- The channels whose instruments have a low-pass filter. -/
def filtered : List String := ["piano", "lead", "pad", "bass"]

end Router

end Stave
