import Mathlib.Data.List.MinMax
import Stave.Playback.Preparation
import Stave.Proofs.Score.Places

/-!
# Events that give way

Of the events that start together on a channel for one sound at a time, the one that is written last
is heard.  The last ones are gathered in a first pass over the events, and a second pass keeps what
stands where one of them does.  What is gathered is followed through the view that the second pass
has of it: the event that is found for a channel and a beat.
-/

namespace Stave

namespace NoteEvent

theorem writtenAfter_iff (e other : NoteEvent) :
    e.writtenAfter other = true ↔ other.place < e.place := by
  rw [place_lt_iff, writtenAfter, Bool.or_eq_true, Bool.and_eq_true, decide_eq_true_iff,
    decide_eq_true_iff, beq_iff_eq, eq_comm (a := e.lineIndex)]

theorem sharesPlace_iff (e other : NoteEvent) :
    e.sharesPlace other = true ↔ e.place = other.place := by
  rw [sharesPlace, Bool.and_eq_true, beq_iff_eq, beq_iff_eq, place, place, toLex_inj, Prod.mk.injEq]

theorem coincides_iff (e other : NoteEvent) :
    e.coincides other = true ↔ e.instrument = other.instrument ∧ e.beat = other.beat := by
  rw [coincides, Bool.and_eq_true, beq_iff_eq, beq_iff_eq, and_comm]

/-! ## The last ones -/

/-- Whether an event is the last among `events` on the channel and the beat of `key`. -/
structure IsLastWith (last key : NoteEvent) (events : List NoteEvent) : Prop where
  mem : last ∈ events
  coincides : last.coincides key = true
  place_le : ∀ e ∈ events, e.coincides key = true → e.place ≤ last.place

namespace IsLastWith

variable {last e key : NoteEvent} {events : List NoteEvent}

/-- The last one stays so before an event that is on another channel or beat or written earlier. -/
theorem concat (h : last.IsLastWith key events)
    (hle : e.coincides key = true → e.place ≤ last.place) :
    last.IsLastWith key (events ++ [e]) where
  mem := List.mem_append_left _ h.mem
  coincides := h.coincides
  place_le := by
    rw [List.forall_mem_append, List.forall_mem_singleton]
    exact ⟨h.place_le, hle⟩

/-- An event behind which nothing is written is the last one. -/
theorem of_concat (hkey : e.coincides key = true)
    (hle : ∀ other ∈ events, other.coincides key = true → other.place ≤ e.place) :
    e.IsLastWith key (events ++ [e]) where
  mem := List.mem_concat_self
  coincides := hkey
  place_le := by
    rw [List.forall_mem_append, List.forall_mem_singleton]
    exact ⟨hle, fun _ => le_rfl⟩

end IsLastWith

/-- Putting an event down changes what is found on its own channel and beat only, and there to the
later of the two. -/
theorem find?_overtake (e key : NoteEvent) (found : List NoteEvent) :
    (e.overtake found).find? (fun last => last.coincides key)
      = if e.coincides key then
          some ((found.find? fun last => last.coincides key).elim e fun last =>
            if e.writtenAfter last then e else last)
        else found.find? fun last => last.coincides key := by
  induction found with
  | nil => by_cases h : e.coincides key = true <;> simp [overtake, h]
  | cons last rest ih =>
    rw [overtake]
    by_cases hsame : last.coincides e = true
    · have hlast : last.coincides key = e.coincides key := by
        obtain ⟨hinstrument, hbeat⟩ := (coincides_iff _ _).mp hsame
        rw [coincides, coincides, hinstrument, hbeat]
      have hstays : (if e.writtenAfter last then e else last).coincides key = e.coincides key := by
        split
        · rfl
        · exact hlast
      rw [if_pos hsame, List.find?_cons, List.find?_cons, hstays, hlast]
      by_cases h : e.coincides key = true <;> simp [h]
    · rw [if_neg hsame, List.find?_cons, List.find?_cons, ih]
      by_cases hlast : last.coincides key = true
      · have hother : ¬e.coincides key = true := by
          intro h
          rw [coincides_iff] at h hlast hsame
          exact hsame ⟨hlast.1.trans h.1.symm, hlast.2.trans h.2.symm⟩
        simp [hlast, hother]
      · simp [hlast]

/-- For a channel and a beat the first pass finds the event that is written last, and none only if
none starts there. -/
theorem find?_lastOnes (events : List NoteEvent) (key : NoteEvent) :
    match (lastOnes events).find? fun last => last.coincides key with
    | none => ∀ e ∈ events, ¬e.coincides key = true
    | some last => last.IsLastWith key events := by
  induction events using List.reverseRecOn with
  | nil => exact List.forall_mem_nil _
  | append_singleton events e ih =>
    rw [lastOnes, List.foldl_concat, ← lastOnes, find?_overtake]
    by_cases hkey : e.coincides key = true
    · rw [if_pos hkey]
      cases hfound : (lastOnes events).find? fun last => last.coincides key with
      | none =>
        rw [hfound] at ih
        exact .of_concat hkey fun other hother hwith => absurd hwith (ih other hother)
      | some last =>
        rw [hfound] at ih
        by_cases hafter : e.writtenAfter last = true
        · have hlt : last.place < e.place := (writtenAfter_iff _ _).mp hafter
          simp only [Option.elim_some, if_pos hafter]
          exact .of_concat hkey fun other hother hwith =>
            (ih.place_le other hother hwith).trans hlt.le
        · have hle : e.place ≤ last.place := not_lt.mp fun h => hafter ((writtenAfter_iff _ _).mpr h)
          simp only [Option.elim_some, if_neg hafter]
          exact ih.concat fun _ => hle
    · rw [if_neg hkey]
      cases hfound : (lastOnes events).find? fun last => last.coincides key with
      | none =>
        rw [hfound] at ih
        rw [List.forall_mem_append, List.forall_mem_singleton]
        exact ⟨ih, hkey⟩
      | some last =>
        rw [hfound] at ih
        exact ih.concat fun h => absurd h hkey

/-- Of the events that the first pass has seen, those stand where a last one does that no other on
their channel and beat is written after. -/
theorem any_find?_lastOnes_iff {events : List NoteEvent} {e : NoteEvent} (he : e ∈ events) :
    (((lastOnes events).find? fun last => last.coincides e).any fun last => last.sharesPlace e) = true
      ↔ ∀ other ∈ events, other.coincides e = true → other.place ≤ e.place := by
  have hself : e.coincides e = true := (coincides_iff _ _).mpr ⟨rfl, rfl⟩
  have hfind := find?_lastOnes events e
  cases hfound : (lastOnes events).find? fun last => last.coincides e with
  | none =>
    rw [hfound] at hfind
    exact absurd hself (hfind e he)
  | some last =>
    rw [hfound] at hfind
    rw [Option.any_some, sharesPlace_iff]
    constructor
    · intro hplace other hother hwith
      exact hplace ▸ hfind.place_le other hother hwith
    · intro hlast
      exact le_antisymm (hlast last hfind.mem hfind.coincides) (hfind.place_le e he hself)

/-! ## Giving way -/

/-- Whether the channel makes one sound at a time and, at the same beat, has an event among `events`
that is written later. -/
def IsSuperseded (e : NoteEvent) (registry : Registry) (events : List NoteEvent) : Prop :=
  registry.isMono e.instrument = true
    ∧ ∃ other ∈ events,
        other.instrument = e.instrument ∧ other.beat = e.beat ∧ e.place < other.place

instance (e : NoteEvent) (registry : Registry) (events : List NoteEvent) :
    Decidable (e.IsSuperseded registry events) :=
  inferInstanceAs (Decidable (_ ∧ ∃ other ∈ events, _))

/-- Only the events matter that there are, not how they are listed. -/
theorem IsSuperseded.mono {e : NoteEvent} {registry : Registry} {events others : List NoteEvent}
    (hsubset : events ⊆ others) (h : e.IsSuperseded registry events) :
    e.IsSuperseded registry others := by
  obtain ⟨hmono, other, hother, hwins⟩ := h
  exact ⟨hmono, other, hsubset hother, hwins⟩

/-- The events that start on a beat of a channel. -/
def startingOn (channel : String) (beat : Ticks) (events : List NoteEvent) : List NoteEvent :=
  events.filter fun e => e.instrument == channel && e.beat == beat

theorem mem_startingOn_iff {channel : String} {beat : Ticks} {events : List NoteEvent}
    {e : NoteEvent} :
    e ∈ startingOn channel beat events ↔ e ∈ events ∧ e.instrument = channel ∧ e.beat = beat := by
  rw [startingOn, List.mem_filter, Bool.and_eq_true, beq_iff_eq, beq_iff_eq]

/-- On a channel for one sound at a time an event gives way unless it is the last that starts with
it. -/
theorem not_isSuperseded_iff {registry : Registry} {events : List NoteEvent} {e : NoteEvent}
    (hmono : registry.isMono e.instrument = true) :
    ¬e.IsSuperseded registry events
      ↔ ∀ other ∈ startingOn e.instrument e.beat events, other.place ≤ e.place := by
  simp only [IsSuperseded, hmono, true_and, not_exists, not_and, not_lt, mem_startingOn_iff, and_imp]

end NoteEvent

/-- What the two passes keep: the events that give way to none. -/
theorem dropSuperseded_eq (registry : Registry) (events : List NoteEvent) :
    dropSuperseded registry events
      = events.filter fun e => decide ¬e.IsSuperseded registry events := by
  refine List.filter_congr fun e he => Bool.eq_iff_iff.mpr ?_
  rw [Bool.or_eq_true, Bool.not_eq_true', decide_eq_true_iff]
  cases hmono : registry.isMono e.instrument with
  | false => simp [NoteEvent.IsSuperseded, hmono]
  | true =>
    have hseen : e ∈ events.filter fun e => registry.isMono e.instrument :=
      List.mem_filter.mpr ⟨he, hmono⟩
    rw [NoteEvent.any_find?_lastOnes_iff hseen, NoteEvent.not_isSuperseded_iff hmono]
    simp only [Bool.true_eq_false, false_or, List.mem_filter, NoteEvent.mem_startingOn_iff,
      NoteEvent.coincides_iff]
    constructor
    · rintro h other ⟨hother, hchannel, hbeat⟩
      exact h other ⟨hother, hchannel ▸ hmono⟩ ⟨hchannel, hbeat⟩
    · rintro h other ⟨hother, -⟩ ⟨hchannel, hbeat⟩
      exact h other ⟨hother, hchannel, hbeat⟩

/-- What is left has no event that takes its place. -/
theorem mem_dropSuperseded_iff (registry : Registry) (events : List NoteEvent) (e : NoteEvent) :
    e ∈ dropSuperseded registry events ↔ e ∈ events ∧ ¬e.IsSuperseded registry events := by
  rw [dropSuperseded_eq, List.mem_filter, decide_eq_true_iff]

theorem sublist_dropSuperseded (registry : Registry) (events : List NoteEvent) :
    (dropSuperseded registry events).Sublist events := List.filter_sublist

/-- An event on a channel for more than one sound at a time gives way to none. -/
theorem filter_poly_dropSuperseded (registry : Registry) (events : List NoteEvent) :
    (dropSuperseded registry events).filter (fun e => !registry.isMono e.instrument)
      = events.filter fun e => !registry.isMono e.instrument := by
  rw [dropSuperseded_eq, List.filter_comm, List.filter_eq_self]
  intro e he
  have hpoly : registry.isMono e.instrument = false := by simpa using (List.mem_filter.mp he).2
  rw [decide_eq_true_iff]
  rintro ⟨hmono, -⟩
  rw [hpoly] at hmono
  cases hmono

/-- On a channel for one sound at a time, what is left on a beat stands last of all that starts
there. -/
theorem startingOn_dropSuperseded {registry : Registry} {channel : String}
    (hmono : registry.isMono channel = true) (beat : Ticks) (events : List NoteEvent) :
    NoteEvent.startingOn channel beat (dropSuperseded registry events)
      = (NoteEvent.startingOn channel beat events).filter fun e =>
          decide (∀ other ∈ NoteEvent.startingOn channel beat events, other.place ≤ e.place) := by
  rw [dropSuperseded_eq, NoteEvent.startingOn, List.filter_comm, ← NoteEvent.startingOn]
  refine List.filter_congr fun e he => ?_
  obtain ⟨-, rfl, rfl⟩ := NoteEvent.mem_startingOn_iff.mp he
  exact decide_eq_decide.mpr (NoteEvent.not_isSuperseded_iff hmono)

/-- Of events that stand in different places one stands last. -/
theorem exists_filter_last_eq {group : List NoteEvent} (hplaces : (group.map (·.place)).Nodup)
    (hgroup : group ≠ []) :
    ∃ last, (group.filter fun e => decide (∀ other ∈ group, other.place ≤ e.place)) = [last] := by
  obtain ⟨last, hargmax⟩ : ∃ last, last ∈ group.argmax (·.place) := by
    cases hfound : group.argmax (·.place) with
    | none => exact absurd (List.argmax_eq_none.mp hfound) hgroup
    | some last => exact ⟨last, rfl⟩
  have hlast : last ∈ group := List.argmax_mem hargmax
  have hle : ∀ other ∈ group, other.place ≤ last.place := fun other hother =>
    List.le_of_mem_argmax hother hargmax
  have hfilter : (group.filter fun e => decide (∀ other ∈ group, other.place ≤ e.place))
      = group.filter (· == last) := by
    refine List.filter_congr fun e he => Bool.eq_iff_iff.mpr ?_
    rw [decide_eq_true_iff, beq_iff_eq]
    constructor
    · intro h
      exact List.inj_on_of_nodup_map hplaces he hlast (le_antisymm (hle e he) (h last hlast))
    · rintro rfl
      exact hle
  refine ⟨last, ?_⟩
  rw [hfilter, List.filter_beq, List.count_eq_one_of_mem hplaces.of_map hlast, List.replicate_one]

/-- Nothing that is kept gives way to anything else that is kept. -/
theorem dropSuperseded_dropSuperseded (registry : Registry) (events : List NoteEvent) :
    dropSuperseded registry (dropSuperseded registry events) = dropSuperseded registry events := by
  rw [dropSuperseded_eq registry (dropSuperseded registry events), List.filter_eq_self]
  intro e he
  rw [decide_eq_true_iff]
  intro hsuperseded
  exact ((mem_dropSuperseded_iff registry events e).mp he).2
    (hsuperseded.mono (sublist_dropSuperseded registry events).subset)

/-- Which events are kept is the same however they are listed. -/
theorem perm_dropSuperseded (registry : Registry) {events others : List NoteEvent}
    (h : others.Perm events) :
    (dropSuperseded registry others).Perm (dropSuperseded registry events) := by
  have hsame : ∀ e : NoteEvent, e.IsSuperseded registry others ↔ e.IsSuperseded registry events :=
    fun e => ⟨.mono h.subset, .mono h.symm.subset⟩
  simp only [dropSuperseded_eq, hsame]
  exact h.filter _

/-- Whatever the events and their order: what is kept is part of them in their order, with every event
of a channel that is not for one sound at a time.  Of the events that start on a beat of a channel for
one sound at a time it is those that are written last, and so it is one of them if no two are written
as the same token, as in every composition.  Keeping again keeps everything, and the order in which
the events are listed has no say in which of them are kept. -/
theorem kept_by_dropSuperseded (registry : Registry) (events : List NoteEvent) :
    let kept := dropSuperseded registry events
    let poly := List.filter fun e : NoteEvent => !registry.isMono e.instrument
    kept.Sublist events
      ∧ poly kept = poly events
      ∧ (∀ channel beat, registry.isMono channel = true →
          let group := NoteEvent.startingOn channel beat events
          NoteEvent.startingOn channel beat kept
              = (group.filter fun e => decide (∀ other ∈ group, other.place ≤ e.place))
            ∧ ((group.map (·.place)).Nodup → group ≠ [] →
                ∃ last, NoteEvent.startingOn channel beat kept = [last]))
      ∧ dropSuperseded registry kept = kept
      ∧ (∀ others : List NoteEvent, others.Perm events →
          (dropSuperseded registry others).Perm kept)
      ∧ ∀ text prior, ((Composition.ofText text prior).1.events.map (·.place)).Nodup := by
  intro kept poly
  refine ⟨sublist_dropSuperseded registry events, filter_poly_dropSuperseded registry events,
    fun channel beat hmono => ?_, dropSuperseded_dropSuperseded registry events,
    fun others => perm_dropSuperseded registry, fun text prior => ?_⟩
  · have hkept := startingOn_dropSuperseded hmono beat events
    refine ⟨hkept, fun hplaces hgroup => ?_⟩
    rw [hkept]
    exact exists_filter_last_eq hplaces hgroup
  · exact List.pairwise_map.mpr
      ((Composition.pairwise_place_events text prior).imp fun hlt => hlt.ne)

/-- Three notes start together on one channel, two of them on one line, and two drums on another. -/
theorem kept_by_dropSuperseded_of_tie :
    let event (pitch : String) (beat : Ticks) (lineIndex tokenIndex : Nat) (channel : String) :
        NoteEvent := ⟨[pitch], beat, Ticks.beat, lineIndex, tokenIndex, false, channel⟩
    let events : List NoteEvent :=
      [event "C4" Ticks.zero 2 1 "lead", event "C4" Ticks.zero 0 0 "kick",
        event "E4" Ticks.zero 2 0 "lead", event "G4" Ticks.zero 0 5 "lead",
        event "C4" Ticks.zero 1 0 "kick", event "A4" Ticks.beat 0 6 "lead"]
    let kept := dropSuperseded .empty events
    let group := NoteEvent.startingOn "lead" Ticks.zero events
    kept = [event "C4" Ticks.zero 2 1 "lead", event "C4" Ticks.zero 0 0 "kick",
        event "C4" Ticks.zero 1 0 "kick", event "A4" Ticks.beat 0 6 "lead"]
      ∧ Registry.empty.isMono "lead" = true ∧ (group.map (·.place)).Nodup ∧ group ≠ []
      ∧ (∃ last, NoteEvent.startingOn "lead" Ticks.zero kept = [last])
      ∧ events.reverse.Perm events ∧ (dropSuperseded .empty events.reverse).Perm kept := by
  intro event events kept group
  have hmono : Registry.empty.isMono "lead" = true := by decide +kernel
  have hplaces : (group.map (·.place)).Nodup := by decide +kernel
  have hgroup : group ≠ [] := by decide +kernel
  obtain ⟨-, -, hlast, -, hperm, -⟩ := kept_by_dropSuperseded .empty events
  exact ⟨by decide +kernel, hmono, hplaces, hgroup, (hlast "lead" Ticks.zero hmono).2 hplaces hgroup,
    events.reverse_perm, hperm events.reverse events.reverse_perm⟩

end Stave
