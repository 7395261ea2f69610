import Mathlib.Algebra.Order.BigOperators.Group.List
import Mathlib.Algebra.Order.Group.Nat
import Mathlib.Data.List.Induction
import Stave.Proofs.Score.Ties

/-!
# Groups of tokens

The tokens of a line fall from left to right into groups.  A rest, text without a meaning and a hold
that goes on with nothing are groups that are silent for a beat; a stroke and a chord are groups by
themselves; a note makes a group with the longest run of tokens behind it that go on with it.  A walk
over the tokens takes one step for each group: it leaves an event for each group that sounds, at the
sum of the lengths of all groups before it.
-/

namespace Stave

/-! ## Names of pitches -/

theorem Letter.toChar_injective : Function.Injective toChar := fun l k h => by
  have hread := congrArg ofChar? h
  rwa [ofChar?_toChar, ofChar?_toChar, Option.some_inj] at hread

theorem Accidental.toChar_injective : Function.Injective toChar := by
  rintro (- | -) (- | -) h
  · rfl
  · cases h
  · cases h
  · rfl

theorem Pitch.octaveDigit_injective : Function.Injective octaveDigit := fun a b => by
  decide +revert

/-- Pitches with the same name are the same. -/
theorem Pitch.name_injective : Function.Injective name := by
  rintro ⟨letter, accidental, octave⟩ ⟨letter', accidental', octave'⟩ h
  obtain ⟨hletter, hrest⟩ := List.cons.inj (String.ofList_injective h)
  obtain ⟨haccidental, hdigit⟩ := List.append_inj' hrest rfl
  obtain rfl := Letter.toChar_injective hletter
  obtain rfl := octaveDigit_injective (List.cons.inj hdigit).1
  have hhead := congrArg List.head? haccidental
  rw [Option.head?_toList, Option.head?_toList] at hhead
  obtain rfl := Option.map_injective Accidental.toChar_injective hhead
  rfl

/-! ## Runs behind a note -/

namespace Note

/-- Whether a token goes on with a note that some tokens have gone on with already: a tied note of the
same pitch does, and so does a hold once the note or one of those tokens is tied. -/
def GoesOn (n : Note) (run : List TokenKind) : TokenKind → Prop
  | .note m => m.tied ∧ m.pitch.name = n.pitch.name
  | .hold => ∃ m, .note m ∈ TokenKind.note n :: run ∧ m.tied
  | _ => False

/-- Whether tokens go on with a note, one after the other. -/
def IsRun (n : Note) (run : List TokenKind) : Prop :=
  ∀ before kind behind, run = before ++ kind :: behind → n.GoesOn before kind

/-- The run behind a note is the longest at the start of the tokens behind it. -/
structure IsLongestRun (n : Note) (run tokens : List TokenKind) : Prop where
  isPrefix : run <+: tokens
  isRun : n.IsRun run
  longest : ∀ other, other <+: tokens → n.IsRun other → other.length ≤ run.length

variable {n : Note} {run tokens : List TokenKind}

theorem isRun_nil (n : Note) : n.IsRun [] := fun before kind behind h => by simp at h

theorem IsRun.concat (h : n.IsRun run) {kind : TokenKind} (hkind : n.GoesOn run kind) :
    n.IsRun (run ++ [kind]) := by
  intro before last behind heq
  rcases List.eq_nil_or_concat behind with rfl | ⟨front, c, rfl⟩
  · obtain ⟨rfl, hlast⟩ := List.append_inj' heq rfl
    cases hlast
    exact hkind
  · rw [List.concat_eq_append, ← List.cons_append, ← List.append_assoc] at heq
    exact h before last front (List.append_inj' heq rfl).1

/-- Longest runs are equal. -/
theorem IsLongestRun.eq {other : List TokenKind} (h : n.IsLongestRun run tokens)
    (hother : n.IsLongestRun other tokens) : run = other := by
  have hle := h.longest other hother.isPrefix hother.isRun
  have hge := hother.longest run h.isPrefix h.isRun
  exact (List.prefix_of_prefix_length_le h.isPrefix hother.isPrefix hge).eq_of_length
    (Nat.le_antisymm hge hle)

/-- A run is the longest when the token behind it does not go on with it. -/
theorem isLongestRun_append (h : n.IsRun run) {rest : List TokenKind}
    (hend : ∀ kind ∈ rest.head?, ¬n.GoesOn run kind) : n.IsLongestRun run (run ++ rest) where
  isPrefix := List.prefix_append run rest
  isRun := h
  longest other hother hrun := by
    by_contra hlonger
    obtain ⟨behind, rfl⟩ := List.prefix_of_prefix_length_le (List.prefix_append run rest) hother
      (by omega)
    cases behind with
    | nil => simp at hlonger
    | cons kind behind =>
      obtain ⟨later, hlater⟩ := (List.prefix_append_right_inj run).mp hother
      exact hend kind (by simp [← hlater]) (hrun run kind behind rfl)

end Note

/-! ## Groups -/

/-- Tokens that take up one stretch of a line together. -/
inductive Group
  /-- A beat of silence. -/
  | silent (kind : TokenKind)
  | stroke
  | chord (notes : List Note)
  /-- A note and the run behind it. -/
  | chain (n : Note) (run : List TokenKind)

namespace Group

/-- The tokens of a group. -/
def kinds : Group → List TokenKind
  | silent kind => [kind]
  | stroke => [.hit]
  | chord notes => [.chord notes]
  | chain n run => .note n :: run

/-- The beat that a run which ends on a hold takes beyond its tokens. -/
def ring (run : List TokenKind) : Nat := if run.getLast? = some .hold then Ticks.perBeat else 0

/-- The ticks of a group: those of its tokens, and of the ring behind them. -/
def ticks (g : Group) : Nat := (g.kinds.map TokenKind.ticks).sum + ring g.kinds.tail

/-- What sounds in a group and whether it is soft; nothing in a silent one. -/
def sound? : Group → Option (List String × Bool)
  | silent _ => none
  | stroke => some ([NoteEvent.strokePitch], false)
  | chord notes => some (notes.map fun n => n.pitch.name, notes.any Note.soft)
  | chain n _ => some ([n.pitch.name], n.soft)

end Group

/-- How tokens fall into groups from left to right. -/
inductive Grouping : List TokenKind → List Group → Prop
  | nil : Grouping [] []
  | silent {kind : TokenKind} {later : List TokenKind} {groups : List Group}
      (h : kind = .rest ∨ kind = .invalid ∨ kind = .hold) (hlater : Grouping later groups) :
      Grouping (kind :: later) (.silent kind :: groups)
  | stroke {later : List TokenKind} {groups : List Group} (hlater : Grouping later groups) :
      Grouping (.hit :: later) (.stroke :: groups)
  | chord {notes : List Note} {later : List TokenKind} {groups : List Group}
      (hlater : Grouping later groups) : Grouping (.chord notes :: later) (.chord notes :: groups)
  | chain {n : Note} {run later : List TokenKind} {groups : List Group}
      (h : n.IsLongestRun run (run ++ later)) (hlater : Grouping later groups) :
      Grouping (.note n :: (run ++ later)) (.chain n run :: groups)

/-- Tokens fall into groups in one way only. -/
theorem Grouping.eq {kinds : List TokenKind} {groups others : List Group} (h : Grouping kinds groups)
    (hothers : Grouping kinds others) : groups = others := by
  induction h generalizing others with
  | nil =>
    cases hothers
    rfl
  | silent hkind _ ih =>
    cases hothers with
    | silent _ hlater => rw [ih hlater]
    | stroke | chord | chain => simp at hkind
  | stroke _ ih =>
    cases hothers with
    | silent hkind => simp at hkind
    | stroke hlater => rw [ih hlater]
  | chord _ ih =>
    cases hothers with
    | silent hkind => simp at hkind
    | chord hlater => rw [ih hlater]
  | @chain n run later groups hrun _ ih =>
    generalize htokens : run ++ later = tokens at hothers hrun
    cases hothers with
    | silent hkind => simp at hkind
    | @chain _ run' later' _ hrun' hlater' =>
      obtain rfl := hrun.eq hrun'
      obtain rfl := List.append_cancel_left htokens
      rw [ih hlater']

/-! ## Walks -/

namespace TieChain

variable {n : Note} {run : List TokenKind} {tied onHold : Bool}

/-- Whether the two marks of an open chain are those of a note and the run behind it so far: that
something is tied, and that the run ends on a hold. -/
structure Marks (n : Note) (run : List TokenKind) (tied onHold : Bool) : Prop where
  tied_iff : tied = true ↔ n.GoesOn run .hold
  onHold_iff : onHold = true ↔ run.getLast? = some .hold

theorem Marks.note (n : Note) (run : List TokenKind) {m : Note} (hm : m.tied = true) :
    Marks n (run ++ [.note m]) true false where
  tied_iff := iff_of_true rfl ⟨m, by simp, hm⟩
  onHold_iff := by simp

theorem Marks.hold (h : Marks n run true onHold) : Marks n (run ++ [.hold]) true true where
  tied_iff := by
    obtain ⟨m, hm, htied⟩ := h.tied_iff.mp rfl
    exact iff_of_true rfl ⟨m, List.mem_append_left [TokenKind.hold] hm, htied⟩
  onHold_iff := by simp

/-- The ticks of some more tokens of a run, and of the ring behind them. -/
def added (run more : List TokenKind) : Nat :=
  (more.map TokenKind.ticks).sum + Group.ring (run ++ more)

theorem Marks.length_closed (h : Marks n run tied onHold) (length : Ticks) :
    (if onHold then length + Ticks.beat else length) = length + Ticks.ofNat (added run []) := by
  rw [added, Group.ring, List.append_nil, ← if_congr h.onHold_iff rfl rfl]
  split
  · rfl
  · exact (add_zero length).symm

theorem added_cons (run : List TokenKind) (kind : TokenKind) (more : List TokenKind) :
    added run (kind :: more) = kind.ticks + added (run ++ [kind]) more := by
  rw [added, added, List.append_assoc, List.singleton_append, List.map_cons, List.sum_cons,
    Nat.add_assoc]

/-- A token that does not go on with an open chain ends it. -/
theorem Marks.extend_of_not_goesOn (h : Marks n run tied onHold) {kind : TokenKind}
    (hkind : ¬n.GoesOn run kind) (length : Ticks) (followers : Nat) (later : List TokenKind) :
    extend n.pitch tied onHold length followers (kind :: later)
      = ⟨if onHold then length + Ticks.beat else length, followers, kind :: later⟩ := by
  cases kind with
  | note m =>
    have hother : ¬(m.tied = true ∧ m.pitch = n.pitch) := fun ⟨hm, hpitch⟩ =>
      hkind ⟨hm, congrArg Pitch.name hpitch⟩
    rw [extend, if_neg hother]
  | hold => rw [extend, if_neg (mt h.tied_iff.mp hkind)]
  | rest | hit | chord | invalid => rw [extend] <;> simp

/-- A token that goes on with an open chain leaves it open behind that token. -/
theorem Marks.extend_of_goesOn (h : Marks n run tied onHold) {kind : TokenKind}
    (hkind : n.GoesOn run kind) (length : Ticks) (followers : Nat) (later : List TokenKind) :
    ∃ tied' onHold', Marks n (run ++ [kind]) tied' onHold'
      ∧ extend n.pitch tied onHold length followers (kind :: later)
        = extend n.pitch tied' onHold' (length + Ticks.ofNat kind.ticks) (followers + 1) later := by
  cases kind with
  | note m =>
    refine ⟨true, false, .note n run hkind.1, ?_⟩
    rw [extend, if_pos ⟨hkind.1, Pitch.name_injective hkind.2⟩, ofNat_ticks_note]
  | hold =>
    obtain rfl := h.tied_iff.mpr hkind
    refine ⟨true, true, h.hold, ?_⟩
    rw [extend, if_pos rfl]
    rfl
  | rest | hit | chord | invalid => exact absurd hkind id

/-- An open chain is extended by the tokens that go on with it, up to the first one that does not. -/
theorem exists_extend (h : Marks n run tied onHold) (hrun : n.IsRun run) (length : Ticks)
    (followers : Nat) (kinds : List TokenKind) :
    ∃ more rest, kinds = more ++ rest ∧ n.IsRun (run ++ more)
      ∧ (∀ kind ∈ rest.head?, ¬n.GoesOn (run ++ more) kind)
      ∧ extend n.pitch tied onHold length followers kinds
        = ⟨length + Ticks.ofNat (added run more), followers + more.length, rest⟩ := by
  induction kinds generalizing run tied onHold length followers with
  | nil =>
    refine ⟨[], [], rfl, by rwa [List.append_nil], by simp, ?_⟩
    rw [extend, h.length_closed]
    rfl
  | cons kind later ih =>
    by_cases hgoes : n.GoesOn run kind
    · obtain ⟨tied', onHold', hmarks, hextend⟩ := h.extend_of_goesOn hgoes length followers later
      obtain ⟨more, rest, rfl, hmore, hend, hrest⟩ := ih hmarks (hrun.concat hgoes)
        (length + Ticks.ofNat kind.ticks) (followers + 1)
      rw [List.append_assoc] at hmore hend
      refine ⟨kind :: more, rest, rfl, hmore, hend, ?_⟩
      rw [hextend, hrest, added_cons, Ticks.ofNat_add, add_assoc, List.length_cons,
        Nat.add_right_comm, Nat.add_assoc]
    · refine ⟨[], kind :: later, rfl, by rwa [List.append_nil], by simpa using hgoes, ?_⟩
      rw [h.extend_of_not_goesOn hgoes, h.length_closed]
      rfl

theorem Marks.nil (n : Note) : Marks n [] n.tied false where
  tied_iff := by simp [Note.GoesOn]
  onHold_iff := by simp

/-- The chain that a note begins takes up the longest run behind it. -/
theorem ofNote_eq {rest : List TokenKind} (h : n.IsLongestRun run (run ++ rest)) :
    ofNote n (run ++ rest) = ⟨Ticks.ofNat (Group.chain n run).ticks, run.length, rest⟩ := by
  obtain ⟨more, last, htokens, hmore, hend, hextend⟩ :=
    exists_extend (Marks.nil n) (Note.isRun_nil n) n.duration 0 (run ++ rest)
  obtain rfl := h.eq (htokens ▸ Note.isLongestRun_append hmore hend)
  obtain rfl := List.append_cancel_left htokens
  rw [ofNote, hextend, ← ofNat_ticks_note, ← Ticks.ofNat_add, Nat.zero_add, added, ← Nat.add_assoc]
  rfl

/-- Behind every note there is a longest run. -/
theorem exists_isLongestRun (n : Note) (tokens : List TokenKind) :
    ∃ run rest, tokens = run ++ rest ∧ n.IsLongestRun run (run ++ rest) := by
  obtain ⟨run, rest, htokens, hrun, hend, -⟩ :=
    exists_extend (Marks.nil n) (Note.isRun_nil n) n.duration 0 tokens
  exact ⟨run, rest, htokens, Note.isLongestRun_append hrun hend⟩

end TieChain

/-- Tokens fall into groups. -/
theorem exists_grouping (kinds : List TokenKind) : ∃ groups, Grouping kinds groups := by
  induction hlength : kinds.length using Nat.strongRecOn generalizing kinds with
  | ind length ih =>
    cases kinds with
    | nil => exact ⟨[], .nil⟩
    | cons kind later =>
      have hlater : ∀ rest : List TokenKind, rest.length ≤ later.length →
          ∃ groups, Grouping rest groups := fun rest hrest =>
        ih rest.length (by rw [← hlength, List.length_cons]; omega) rest rfl
      cases kind with
      | note n =>
        obtain ⟨run, rest, rfl, hrun⟩ := TieChain.exists_isLongestRun n later
        obtain ⟨groups, hgroups⟩ := hlater rest (by simp)
        exact ⟨_, .chain hrun hgroups⟩
      | chord notes => exact (hlater later le_rfl).imp' _ fun _ => .chord
      | hit => exact (hlater later le_rfl).imp' _ fun _ => .stroke
      | rest => exact (hlater later le_rfl).imp' _ fun _ => .silent (.inl rfl)
      | invalid => exact (hlater later le_rfl).imp' _ fun _ => .silent (.inr (.inl rfl))
      | hold => exact (hlater later le_rfl).imp' _ fun _ => .silent (.inr (.inr rfl))

namespace Cursor

/-- The step over a group. -/
def step (c : Cursor) (g : Group) : Cursor :=
  match g.sound? with
  | none => c.skip (Ticks.ofNat g.ticks)
  | some (notes, soft) => c.emit notes (Ticks.ofNat g.ticks) soft g.kinds.length

/-- A walk over tokens goes from group to group. -/
theorem walk_of_grouping {kinds : List TokenKind} {groups : List Group} (h : Grouping kinds groups)
    (c : Cursor) : c.walk kinds = groups.foldl step c := by
  induction h generalizing c with
  | nil => rw [walk]; rfl
  | silent hkind _ ih =>
    rcases hkind with rfl | rfl | rfl
    all_goals rw [walk, ih]; rfl
  | stroke _ ih => rw [walk, ih]; rfl
  | chord _ ih => rw [walk, ih, ← ofNat_ticks_chord]; rfl
  | chain hrun _ ih => rw [walk, TieChain.ofNote_eq hrun, ih, Nat.add_comm]; rfl

end Cursor

/-! ## Events -/

namespace Group

/-- The ticks that the first `i` groups take. -/
def ticksBefore (groups : List Group) (i : Nat) : Nat := ((groups.take i).map ticks).sum

/-- The event of a group: what sounds in it, at the ticks and the token where the groups before it
end, for the ticks of the group. -/
def event? (lineIndex : Nat) (instrument : String) (groups : List Group) (i : Nat) :
    Option NoteEvent :=
  groups[i]?.bind fun g => g.sound?.map fun (notes, soft) =>
    { notes, soft, lineIndex, instrument
      beat := Ticks.ofNat (ticksBefore groups i)
      duration := Ticks.ofNat g.ticks
      tokenIndex := ((groups.take i).flatMap kinds).length }

/-- The events of groups in their order. -/
def events (lineIndex : Nat) (instrument : String) (groups : List Group) : List NoteEvent :=
  (List.range groups.length).filterMap (event? lineIndex instrument groups)

section Appending

variable {lineIndex : Nat} {instrument : String} (groups : List Group) (g : Group)

theorem event?_append {i : Nat} (h : i < groups.length) :
    event? lineIndex instrument (groups ++ [g]) i = event? lineIndex instrument groups i := by
  rw [event?, event?, ticksBefore, ticksBefore, List.take_append_of_le_length h.le,
    List.getElem?_append_left h]

theorem events_append :
    events lineIndex instrument (groups ++ [g])
      = events lineIndex instrument groups
        ++ (event? lineIndex instrument (groups ++ [g]) groups.length).toList := by
  have hfront : ∀ i ∈ List.range groups.length,
      event? lineIndex instrument (groups ++ [g]) i = event? lineIndex instrument groups i :=
    fun i hi => event?_append groups g (List.mem_range.mp hi)
  rw [events, events, List.length_append, List.length_singleton, List.range_succ,
    List.filterMap_append, List.filterMap_congr hfront]
  congr 1

end Appending

end Group

namespace Cursor

/-- A cursor stands behind some groups of its line and has left their events. -/
structure StandsBehind (c : Cursor) (lineIndex : Nat) (instrument : String) (groups : List Group) :
    Prop where
  lineIndex_eq : c.lineIndex = lineIndex
  instrument_eq : c.instrument = instrument
  tokenIndex_eq : c.tokenIndex = (groups.flatMap Group.kinds).length
  beat_eq : c.beat = Ticks.ofNat (groups.map Group.ticks).sum
  events_eq : c.events.toList = Group.events lineIndex instrument groups

namespace StandsBehind

theorem start (lineIndex : Nat) (instrument : String) :
    (Cursor.start lineIndex instrument).StandsBehind lineIndex instrument [] :=
  ⟨rfl, rfl, rfl, rfl, rfl⟩

variable {c : Cursor} {lineIndex : Nat} {instrument : String} {groups : List Group}

theorem step (h : c.StandsBehind lineIndex instrument groups) (g : Group) :
    (c.step g).StandsBehind lineIndex instrument (groups ++ [g]) := by
  obtain ⟨rfl, rfl, htoken, hbeat, hevents⟩ := h
  have hticks : ((groups ++ [g]).map Group.ticks).sum = (groups.map Group.ticks).sum + g.ticks := by
    rw [List.map_append, List.sum_append, List.map_singleton, List.sum_singleton]
  have htokens : (groups ++ [g]).flatMap Group.kinds = groups.flatMap Group.kinds ++ g.kinds := by
    rw [List.flatMap_append, List.flatMap_singleton]
  have hevent : Group.event? c.lineIndex c.instrument (groups ++ [g]) groups.length
      = g.sound?.map fun (notes, soft) =>
          ⟨notes, c.beat, Ticks.ofNat g.ticks, c.lineIndex, c.tokenIndex, soft, c.instrument⟩ := by
    rw [Group.event?, Group.ticksBefore, List.take_left, List.getElem?_concat_length, hbeat, htoken]
    rfl
  have hkinds : g.sound? = none → g.kinds.length = 1 := by
    cases g <;> simp [Group.sound?, Group.kinds]
  rw [Cursor.step]
  cases hsound : g.sound? with
  | none =>
    constructor
    · rfl
    · rfl
    · rw [htokens, List.length_append, hkinds hsound, ← htoken]
      rfl
    · rw [hticks, Ticks.ofNat_add, ← hbeat]
      rfl
    · rw [Group.events_append, hevent, hsound, ← hevents]
      exact (List.append_nil _).symm
  | some sound =>
    constructor
    · rfl
    · rfl
    · rw [htokens, List.length_append, ← htoken]
      rfl
    · rw [hticks, Ticks.ofNat_add, ← hbeat]
      rfl
    · rw [Group.events_append, hevent, hsound, ← hevents]
      exact Array.toList_push

theorem foldl_step (lineIndex : Nat) (instrument : String) (groups : List Group) :
    (groups.foldl Cursor.step (Cursor.start lineIndex instrument)).StandsBehind lineIndex instrument
      groups := by
  induction groups using List.reverseRecOn with
  | nil => exact .start lineIndex instrument
  | append_singleton groups g ih =>
    rw [List.foldl_append]
    exact ih.step g

end StandsBehind

end Cursor

/-! ## The order of the events -/

namespace Group

variable {lineIndex : Nat} {instrument : String} {groups : List Group} {i j : Nat}
  {e other : NoteEvent}

theorem perBeat_le_ticks (g : Group) : Ticks.perBeat ≤ g.ticks := by
  have hfirst : ∀ kind later, g.kinds = kind :: later → Ticks.perBeat ≤ g.ticks := by
    intro kind later h
    rw [ticks, h, List.map_cons, List.sum_cons, Nat.add_assoc]
    exact Nat.le_add_right_of_le kind.perBeat_le_ticks
  cases g <;> exact hfirst _ _ rfl

theorem ticksBefore_succ {g : Group} (h : groups[i]? = some g) :
    ticksBefore groups (i + 1) = ticksBefore groups i + g.ticks := by
  rw [ticksBefore, ticksBefore, List.take_add_one, h, List.map_append, List.sum_append]
  rfl

theorem ticksBefore_mono (h : i ≤ j) : ticksBefore groups i ≤ ticksBefore groups j :=
  ((List.take_sublist_take_left h).map ticks).sum_le_sum fun _ _ => Nat.zero_le _

theorem ticksBefore_le_sum (groups : List Group) (i : Nat) :
    ticksBefore groups i ≤ (groups.map ticks).sum :=
  ((List.take_sublist i groups).map ticks).sum_le_sum fun _ _ => Nat.zero_le _

/-- A group has an event when something sounds in it. -/
theorem exists_of_event?_eq_some (h : event? lineIndex instrument groups i = some e) :
    ∃ g, groups[i]? = some g ∧ e.beat = Ticks.ofNat (ticksBefore groups i)
      ∧ e.duration = Ticks.ofNat g.ticks := by
  obtain ⟨g, hg, hmap⟩ := Option.bind_eq_some_iff.mp h
  obtain ⟨sound, hsound, rfl⟩ := Option.map_eq_some_iff.mp hmap
  exact ⟨g, hg, rfl, rfl⟩

theorem exists_silent_of_event?_eq_none {g : Group} (hg : groups[i]? = some g)
    (h : event? lineIndex instrument groups i = none) : ∃ kind, g = .silent kind := by
  rw [event?, hg, Option.bind_some, Option.map_eq_none_iff] at h
  cases g with
  | silent kind => exact ⟨kind, rfl⟩
  | stroke | chord | chain => cases h

/-- As long as no word wraps around, an event goes from where its group begins to where the next group
begins. -/
theorem toNat_of_event?_eq_some (hfits : (groups.map ticks).sum < 2 ^ 64)
    (h : event? lineIndex instrument groups i = some e) :
    e.beat.toNat = ticksBefore groups i ∧ e.finish.toNat = ticksBefore groups (i + 1) := by
  obtain ⟨g, hg, hbeat, hduration⟩ := exists_of_event?_eq_some h
  have hstart := (ticksBefore_le_sum groups i).trans_lt hfits
  have hend := (ticksBefore_le_sum groups (i + 1)).trans_lt hfits
  refine ⟨by rw [hbeat, Ticks.toNat_ofNat_of_lt hstart], ?_⟩
  rw [NoteEvent.finish, hbeat, hduration, ← Ticks.ofNat_add, ← ticksBefore_succ hg,
    Ticks.toNat_ofNat_of_lt hend]

theorem ticksBefore_lt {g : Group} (hg : groups[i]? = some g) (h : i < j) :
    ticksBefore groups i < ticksBefore groups j := by
  have hsucc : ticksBefore groups (i + 1) ≤ ticksBefore groups j := ticksBefore_mono h
  have hbeat : 0 < Ticks.perBeat := by decide
  have hpos := g.perBeat_le_ticks
  rw [ticksBefore_succ hg] at hsucc
  omega

/-- An event ends before a later one begins, or where it begins. -/
theorem finish_le_beat (hfits : (groups.map ticks).sum < 2 ^ 64) (hlt : i < j)
    (hi : event? lineIndex instrument groups i = some e)
    (hj : event? lineIndex instrument groups j = some other) :
    e.beat < e.finish ∧ e.finish ≤ other.beat := by
  obtain ⟨g, hg, -⟩ := exists_of_event?_eq_some hi
  obtain ⟨hstart, hend⟩ := toNat_of_event?_eq_some hfits hi
  obtain ⟨hother, -⟩ := toNat_of_event?_eq_some hfits hj
  constructor
  · rw [Ticks.lt_iff_toNat_lt, hstart, hend]
    exact ticksBefore_lt hg i.lt_succ_self
  · rw [Ticks.le_iff_toNat_le, hother, hend]
    exact ticksBefore_mono hlt

/-- An event touches the next one unless there is silence between them. -/
theorem finish_eq_beat_iff (hfits : (groups.map ticks).sum < 2 ^ 64) (hlt : i < j)
    (hi : event? lineIndex instrument groups i = some e)
    (hj : event? lineIndex instrument groups j = some other)
    (hnext : ∀ k, i < k → k < j → event? lineIndex instrument groups k = none) :
    e.finish = other.beat ↔ ∀ k kind, i < k → k < j → groups[k]? ≠ some (.silent kind) := by
  obtain ⟨last, hlast, -⟩ := exists_of_event?_eq_some hj
  obtain ⟨-, hend⟩ := toNat_of_event?_eq_some hfits hi
  obtain ⟨hother, -⟩ := toNat_of_event?_eq_some hfits hj
  rw [← Ticks.toNat_injective.eq_iff, hend, hother]
  constructor
  · intro htouch k kind hik hkj hsilent
    have hbefore : ticksBefore groups (i + 1) ≤ ticksBefore groups k := ticksBefore_mono hik
    have hgap := ticksBefore_lt hsilent hkj
    omega
  · intro hnone
    by_contra hgap
    have hbetween : i + 1 < j := lt_of_le_of_ne hlt fun heq => hgap (by rw [heq])
    have hlength : i + 1 < groups.length :=
      hbetween.trans (List.getElem?_eq_some_iff.mp hlast).1
    obtain ⟨kind, hkind⟩ := exists_silent_of_event?_eq_none (List.getElem?_eq_getElem hlength)
      (hnext (i + 1) i.lt_succ_self hbetween)
    exact hnone (i + 1) kind i.lt_succ_self hbetween
      (by rw [List.getElem?_eq_getElem hlength, hkind])

/-- The last event ends with the line, or before it. -/
theorem finish_le_sum (hfits : (groups.map ticks).sum < 2 ^ 64)
    (h : e ∈ events lineIndex instrument groups) :
    e.finish ≤ Ticks.ofNat (groups.map ticks).sum := by
  obtain ⟨i, -, hi⟩ := List.mem_filterMap.mp h
  rw [Ticks.le_iff_toNat_le, (toNat_of_event?_eq_some hfits hi).2, Ticks.toNat_ofNat_of_lt hfits]
  exact ticksBefore_le_sum groups (i + 1)

end Group

/-- The tokens of a line fall into groups in exactly one way.  The events of the line are those of
the groups and its length is the sum of theirs.  Events follow one another without an overlap, touch
unless there is silence between them, and end within the line. -/
theorem eventsOf_eq_events (tokens : List Token) (lineIndex : Nat) (instrument : String) :
    ∃ groups, Grouping (tokens.map Token.kind) groups
      ∧ (∀ others, Grouping (tokens.map Token.kind) others → others = groups)
      ∧ eventsOf tokens lineIndex instrument
        = (Group.events lineIndex instrument groups, Ticks.ofNat (groups.map Group.ticks).sum)
      ∧ ((groups.map Group.ticks).sum < 2 ^ 64 →
        (∀ i j e other, i < j → Group.event? lineIndex instrument groups i = some e →
          Group.event? lineIndex instrument groups j = some other →
            e.beat < e.finish ∧ e.finish ≤ other.beat
              ∧ ((∀ k, i < k → k < j → Group.event? lineIndex instrument groups k = none) →
                (e.finish = other.beat
                  ↔ ∀ k kind, i < k → k < j → groups[k]? ≠ some (.silent kind))))
          ∧ ∀ e ∈ (eventsOf tokens lineIndex instrument).1,
            e.finish ≤ (eventsOf tokens lineIndex instrument).2) := by
  obtain ⟨groups, hgroups⟩ := exists_grouping (tokens.map Token.kind)
  have hcursor := Cursor.StandsBehind.foldl_step lineIndex instrument groups
  have hevents : eventsOf tokens lineIndex instrument
      = (Group.events lineIndex instrument groups, Ticks.ofNat (groups.map Group.ticks).sum) := by
    rw [eventsOf, Cursor.walk_of_grouping hgroups, hcursor.events_eq, hcursor.beat_eq]
  refine ⟨groups, hgroups, fun others hothers => hothers.eq hgroups, hevents, fun hfits => ⟨?_, ?_⟩⟩
  · intro i j e other hlt hi hj
    obtain ⟨hlength, hapart⟩ := Group.finish_le_beat hfits hlt hi hj
    exact ⟨hlength, hapart, Group.finish_eq_beat_iff hfits hlt hi hj⟩
  · intro e he
    rw [hevents] at he ⊢
    exact Group.finish_le_sum hfits he

/-- A tied note, a hold, the note again with a dot and a last hold ring together for five beats and a
half; a rest keeps the stroke behind them apart. -/
theorem eventsOf_tied_notes :
    (eventsOf (tokensOf "C4~ ~ C4.~ ~ - x".toList) 0 "piano").1.map
        (fun e => (e.tokenIndex, e.beat.toNat, e.finish.toNat)) = [(0, 0, 5280), (5, 6240, 7200)]
      ∧ ∀ e ∈ (eventsOf (tokensOf "C4~ ~ C4.~ ~ - x".toList) 0 "piano").1,
        e.finish ≤ (eventsOf (tokensOf "C4~ ~ C4.~ ~ - x".toList) 0 "piano").2 := by
  have hrun : ∀ n m : Note, n.tied = true → m.tied = true → m.pitch.name = n.pitch.name →
      n.IsLongestRun [.hold, .note m, .hold] ([.hold, .note m, .hold] ++ [.rest, .hit]) := by
    intro n m hn hm hpitch
    have hhold : n.IsRun [.hold] := n.isRun_nil.concat ⟨n, List.mem_cons_self, hn⟩
    have hnote : n.IsRun [.hold, .note m] := hhold.concat ⟨hm, hpitch⟩
    have hlast : n.IsRun [.hold, .note m, .hold] := hnote.concat ⟨n, List.mem_cons_self, hn⟩
    exact Note.isLongestRun_append hlast (by simp [Note.GoesOn])
  have hkinds : (tokensOf "C4~ ~ C4.~ ~ - x".toList).map Token.kind
      = .note ⟨⟨.c, none, 4⟩, false, true, false⟩
        :: ([.hold, .note ⟨⟨.c, none, 4⟩, true, true, false⟩, .hold] ++ [.rest, .hit]) := by
    decide +kernel
  have hgroups := Grouping.chain
    (hrun ⟨⟨.c, none, 4⟩, false, true, false⟩ ⟨⟨.c, none, 4⟩, true, true, false⟩ rfl rfl rfl)
    (.silent (.inl rfl) (.stroke .nil))
  rw [← hkinds] at hgroups
  obtain ⟨groups, -, hunique, hevents, hfits⟩ :=
    eventsOf_eq_events (tokensOf "C4~ ~ C4.~ ~ - x".toList) 0 "piano"
  obtain rfl := hunique _ hgroups
  exact ⟨by rw [hevents]; decide +kernel, (hfits (by decide)).2⟩

end Stave
