import Stave.Proofs.Playback.Routing
import Stave.Proofs.Playback.Superseded

/-!
# What becomes of events

Between a compiled text and the scheduler no event is lost unnoticed.  Its channel is reported as
failed, or a later event takes its place on a channel for one sound at a time, or it is handed on once
and there is an instrument for it.
-/

namespace Stave

namespace NoteEvent

/-- What can become of an event when its composition is prepared. -/
inductive Fate
  /-- The channel has failed. -/
  | silent
  /-- A later event takes the place of this one. -/
  | superseded
  | heard
deriving DecidableEq, Repr

end NoteEvent

namespace Registry

/-- A channel that makes one sound at a time is built in. -/
theorem isBuiltin_of_isMono {r : Registry} {name : String} (h : r.isMono name = true) :
    isBuiltin name = true := by
  by_contra hnot
  obtain ⟨c, hget, hmono⟩ := (Option.any_eq_true _ _).mp h
  rw [(sample_of_get? hget (Bool.not_eq_true _ ▸ hnot)).2] at hmono
  cases hmono

end Registry

namespace Preparation

/-- Whether an event of a composition meets a fate. -/
def Befalls (composition : Composition) (registry : Registry) (prepared : Preparation)
    (e : NoteEvent) : NoteEvent.Fate → Prop
  | .silent => e.instrument ∈ prepared.failed
  | .superseded => e.IsSuperseded registry composition.events
  | .heard => prepared.events.count e = 1 ∧ prepared.router.plays e.instrument = true

section Compiled

variable (text : List Char) (r : Registry) (volumes : Named Float) (voices : Named VoiceSettings)
  (settings : AudioSettings) (source : Source)

/-- What is handed on stands in the order of the composition. -/
theorem sublist_events (composition : Composition) (registry : Registry) :
    (ofComposition composition registry volumes voices settings source).events.Sublist
      composition.events := by
  rw [ofComposition]
  exact (sublist_dropSuperseded _ _).trans List.filter_sublist

variable {text r volumes voices settings source} {prepared : Preparation}
  (hprepared : prepared = ofComposition (Composition.ofText text r).1 (Composition.ofText text r).2
    volumes voices settings source)

include hprepared

/-- No channel that is built in fails. -/
theorem not_failed_of_isBuiltin {name : String} (h : Registry.isBuiltin name = true) :
    name ∉ prepared.failed := by
  intro hfailed
  rw [hprepared, ofComposition] at hfailed
  obtain ⟨d, hd, rfl⟩ := Loaded.exists_declared_of_failed hfailed
  rw [((Composition.mem_declarations_ofText d).mp hd).1] at h
  cases h

/-- An event is handed on unless its channel has failed or another takes its place. -/
theorem mem_events_iff (e : NoteEvent) :
    e ∈ prepared.events
      ↔ e ∈ (Composition.ofText text r).1.events ∧ e.instrument ∉ prepared.failed
        ∧ ¬e.IsSuperseded (Composition.ofText text r).2 (Composition.ofText text r).1.events := by
  have haudible : ∀ other, other ∈ (Composition.ofText text r).1.events.filter
        (fun e => !prepared.failed.contains e.instrument)
      ↔ other ∈ (Composition.ofText text r).1.events ∧ other.instrument ∉ prepared.failed := by
    intro other
    rw [List.mem_filter, Bool.not_eq_true', Bool.eq_false_iff, ne_eq, List.contains_iff_mem]
  have hevents : prepared.events = dropSuperseded (Composition.ofText text r).2
      ((Composition.ofText text r).1.events.filter
        fun e => !prepared.failed.contains e.instrument) := by
    rw [hprepared, ofComposition]
  rw [hevents, mem_dropSuperseded_iff, haudible, and_assoc]
  refine and_congr_right fun _ => and_congr_right fun hsounds => not_congr ?_
  -- an event on the same channel is audible as well
  simp only [NoteEvent.IsSuperseded, haudible]
  refine and_congr_right fun _ => exists_congr fun other => ?_
  constructor
  · rintro ⟨⟨hother, -⟩, hwins⟩
    exact ⟨hother, hwins⟩
  · rintro ⟨hother, hchannel, hwins⟩
    exact ⟨⟨hother, hchannel ▸ hsounds⟩, hchannel, hwins⟩

/-- The router plays every channel of an event that has not failed. -/
theorem plays_of_not_failed {e : NoteEvent} (he : e ∈ (Composition.ofText text r).1.events)
    (hsounds : e.instrument ∉ prepared.failed) : prepared.router.plays e.instrument = true := by
  rw [hprepared, ofComposition] at hsounds ⊢
  rw [Router.plays_ofChannels_iff]
  refine ⟨(Composition.channelOf_of_mem_events he).1, ?_⟩
  have hlower := Composition.lowercase_of_mem_events he
  by_cases hbuiltin : Registry.isBuiltin e.instrument = true
  · refine Router.isSome_instrumentOf?_of_builtin hbuiltin hlower (fun drum => ?_) voices _
    exact (Bank.contains_merge ..).mpr (.inr (drum.contains_kit _ _))
  · refine Router.isSome_instrumentOf?_of_sample (Bool.not_eq_true _ ▸ hbuiltin)
      (Composition.contains_of_mem_events he) ?_ voices _
    obtain ⟨d, hd, hname⟩ := (Composition.builtin_or_declared he).resolve_left hbuiltin
    have hloaded := Loaded.failed_or_contains hd source settings.sampleRate
    rw [hname] at hloaded
    exact (Bank.contains_merge ..).mpr (.inl (hloaded.resolve_left hsounds))

/-- An event is heard unless its channel has failed or another takes its place. -/
theorem heard_iff {e : NoteEvent} (he : e ∈ (Composition.ofText text r).1.events) :
    Befalls (Composition.ofText text r).1 (Composition.ofText text r).2 prepared e .heard
      ↔ e.instrument ∉ prepared.failed
        ∧ ¬e.IsSuperseded (Composition.ofText text r).2 (Composition.ofText text r).1.events := by
  have hmem := mem_events_iff hprepared e
  constructor
  · rintro ⟨hcount, -⟩
    have hevent : e ∈ prepared.events := List.count_pos_iff.mp (hcount ▸ Nat.one_pos)
    exact (hmem.mp hevent).2
  · intro hkept
    have hevent : e ∈ prepared.events := hmem.mpr ⟨he, hkept⟩
    have hnodup : prepared.events.Nodup := by
      rw [hprepared]
      exact (sublist_events volumes voices settings source _ _).nodup
        (Composition.nodup_events text r)
    exact ⟨List.count_eq_one_of_mem hnodup hevent, plays_of_not_failed hprepared he hkept.1⟩

end Compiled

/-- Whatever is written, declared and fetched: what is handed on stands in the order of the
composition, and every event of the composition meets exactly one fate.  Its channel is reported as
failed, or a later event takes its place, or it is handed on once and there is an instrument for its
channel. -/
theorem fate_of_event (text : List Char) (r : Registry) (volumes : Named Float)
    (voices : Named VoiceSettings) (settings : AudioSettings) (source : Source) :
    let composition := (Composition.ofText text r).1
    let registry := (Composition.ofText text r).2
    let prepared := ofComposition composition registry volumes voices settings source
    prepared.events.Sublist composition.events
      ∧ ∀ e ∈ composition.events, ∃! fate, Befalls composition registry prepared e fate := by
  intro composition registry prepared
  have hprepared : prepared = ofComposition (Composition.ofText text r).1
    (Composition.ofText text r).2 volumes voices settings source := rfl
  refine ⟨sublist_events volumes voices settings source composition registry, fun e he => ?_⟩
  have hheard := heard_iff hprepared he
  have hsuperseded : e.IsSuperseded registry composition.events → e.instrument ∉ prepared.failed :=
    fun h => not_failed_of_isBuiltin hprepared (Registry.isBuiltin_of_isMono h.1)
  by_cases hfailed : e.instrument ∈ prepared.failed
  · refine ⟨.silent, hfailed, fun fate hfate => ?_⟩
    cases fate with
    | silent => rfl
    | superseded => exact absurd hfailed (hsuperseded hfate)
    | heard => exact absurd hfailed (hheard.mp hfate).1
  by_cases hlater : e.IsSuperseded registry composition.events
  · refine ⟨.superseded, hlater, fun fate hfate => ?_⟩
    cases fate with
    | silent => exact absurd hfate hfailed
    | superseded => rfl
    | heard => exact absurd hlater (hheard.mp hfate).2
  · refine ⟨.heard, hheard.mpr ⟨hfailed, hlater⟩, fun fate hfate => ?_⟩
    cases fate with
    | silent => exact absurd hfate hfailed
    | superseded => exact absurd hfate hlater
    | heard => rfl

/-- A recording that cannot be fetched, two notes of which the later one is heard, and a drum. -/
theorem fate_of_event_of_failed_recording :
    let text := "vox: http://a/v.wav\nvox: x\nlead: C4\nlead: E4\nkick: x".toList
    let source : Source := fun url => .error (.unreachable url)
    let composition := (Composition.ofText text .empty).1
    let registry := (Composition.ofText text .empty).2
    let prepared := ofComposition composition registry [] [] .default source
    let event (pitch : String) (lineIndex : Nat) (instrument : String) : NoteEvent :=
      ⟨[pitch], Ticks.zero, Ticks.beat, lineIndex, 0, false, instrument⟩
    let fates : List (NoteEvent × NoteEvent.Fate) :=
      [(event "C4" 1 "vox", .silent), (event "C4" 2 "lead", .superseded),
        (event "E4" 3 "lead", .heard), (event "C4" 4 "kick", .heard)]
    composition.events = fates.map Prod.fst
      ∧ ∀ entry ∈ fates, Befalls composition registry prepared entry.1 entry.2
        ∧ ∃! fate, Befalls composition registry prepared entry.1 fate := by
  intro text source composition registry prepared event fates
  have hevents : composition.events = fates.map Prod.fst := by decide +kernel
  have hfailed : prepared.failed = ["vox"] := by decide +kernel
  have hprepared : prepared = ofComposition (Composition.ofText text .empty).1
    (Composition.ofText text .empty).2 [] [] .default source := rfl
  have hfirst : (event "C4" 2 "lead").IsSuperseded registry composition.events :=
    ⟨by decide +kernel, event "E4" 3 "lead", by simp [hevents, fates], rfl, rfl,
      NoteEvent.place_lt_iff.mpr (.inl (by decide))⟩
  have hlast : ¬(event "E4" 3 "lead").IsSuperseded registry composition.events := by
    rintro ⟨-, other, hother, hchannel, -, hlater⟩
    rw [NoteEvent.place_lt_iff] at hlater
    rw [hevents] at hother
    simp only [fates, List.map_cons, List.map_nil, List.mem_cons, List.not_mem_nil, or_false]
      at hother
    rcases hother with rfl | rfl | rfl | rfl <;> simp [event] at hchannel hlater
  have hkick : ¬(event "C4" 4 "kick").IsSuperseded registry composition.events := by
    have hpoly : registry.isMono "kick" = false := by decide +kernel
    rintro ⟨hmono, -⟩
    rw [hpoly] at hmono
    cases hmono
  refine ⟨hevents, fun entry hentry => ⟨?_, ?_⟩⟩
  · have he : entry.1 ∈ composition.events := hevents ▸ List.mem_map_of_mem hentry
    simp only [fates, List.mem_cons, List.not_mem_nil, or_false] at hentry
    rcases hentry with rfl | rfl | rfl | rfl
    · exact show "vox" ∈ prepared.failed by simp [hfailed]
    · exact hfirst
    · exact (heard_iff hprepared he).mpr ⟨by simp [hfailed, event], hlast⟩
    · exact (heard_iff hprepared he).mpr ⟨by simp [hfailed, event], hkick⟩
  · have he : entry.1 ∈ composition.events := hevents ▸ List.mem_map_of_mem hentry
    exact (fate_of_event text .empty [] [] .default source).2 entry.1 he

end Preparation

end Stave
