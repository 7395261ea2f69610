import Mathlib.Algebra.BigOperators.Group.List.Basic
import Mathlib.Tactic.Abel
import Stave.Proofs.Time.Ticks
import Stave.Score.Line

/-!
# The length of a line

A line takes the ticks of its tokens and, for every tie chain that ends on a hold, a beat more for
which the chain *rings*.  Where a list of tokens begins with one that cannot go on with a chain, lists
may be walked over one after the other: the second leaves the events that it leaves by itself, moved
to where the first one stops.
-/

namespace Stave

/-! ## Rings -/

/-- A tie chain while it is open. -/
structure OpenTie where
  pitch : Pitch
  /-- Whether anything in the chain is tied. -/
  tied : Bool
  /-- Whether the last token of the chain is a hold. -/
  onHold : Bool

namespace OpenTie

/-- The chain together with a token that goes on with it. -/
def extended? (t : OpenTie) : TokenKind → Option OpenTie
  | .note n => if n.tied ∧ n.pitch = t.pitch then some ⟨t.pitch, true, false⟩ else none
  | .hold => if t.tied then some ⟨t.pitch, t.tied, true⟩ else none
  | _ => none

/-- The chain that a token begins. -/
def begun? : TokenKind → Option OpenTie
  | .note n => some ⟨n.pitch, n.tied, false⟩
  | _ => none

/-- The rings of an open chain that nothing goes on with. -/
def rings (t : Option OpenTie) : Nat := if t.any onHold then 1 else 0

end OpenTie

namespace TokenKind

/-- The tie chains that end on a hold, with one that may be open before the first token. -/
def ringsFrom (t : Option OpenTie) : List TokenKind → Nat
  | [] => OpenTie.rings t
  | kind :: later =>
    match t.bind fun t => t.extended? kind with
    | some extended => ringsFrom (some extended) later
    | none => OpenTie.rings t + ringsFrom (OpenTie.begun? kind) later

/-- How many tie chains end on a hold. -/
def rings (kinds : List TokenKind) : Nat := ringsFrom none kinds

/-- The ticks of a token by itself. -/
def ticks : TokenKind → Nat
  | .note n => if n.dotted then Ticks.perBeat + Ticks.perBeat / 2 else Ticks.perBeat
  | .chord notes =>
    if notes.any Note.dotted then Ticks.perBeat + Ticks.perBeat / 2 else Ticks.perBeat
  | _ => Ticks.perBeat

/-- The ticks that tokens take together, those of rings included. -/
def span (kinds : List TokenKind) : Nat := (kinds.map ticks).sum + Ticks.perBeat * rings kinds

theorem perBeat_le_ticks (kind : TokenKind) : Ticks.perBeat ≤ kind.ticks := by
  cases kind with
  | note n =>
    rw [ticks]
    split
    · exact Nat.le_add_right _ _
    · exact Nat.le_refl _
  | chord notes =>
    rw [ticks]
    split
    · exact Nat.le_add_right _ _
    · exact Nat.le_refl _
  | rest | hit | hold | invalid => exact Nat.le_refl _

/-- A token that is no note takes its own ticks. -/
theorem span_cons {kind : TokenKind} (h : OpenTie.begun? kind = none) (later : List TokenKind) :
    span (kind :: later) = kind.ticks + span later := by
  rw [span, span, rings, ringsFrom, rings, List.map_cons, List.sum_cons]
  simp [OpenTie.rings, h, Nat.add_assoc]

/-- Tokens that span nothing are none. -/
theorem eq_nil_of_span_eq_zero {kinds : List TokenKind} (h : span kinds = 0) :
    kinds = [] := by
  cases kinds with
  | nil => rfl
  | cons kind later =>
    have hticks := kind.perBeat_le_ticks
    rw [span, List.map_cons, List.sum_cons] at h
    have hbeat : 0 < Ticks.perBeat := by decide
    omega

/-- Whether a token can go on with a tie chain. -/
def continuesTie : TokenKind → Bool
  | .note n => n.tied
  | .hold => true
  | _ => false

/-- Whether the first of some tokens goes on with no tie chain. -/
def StartsAnew (kinds : List TokenKind) : Prop := ∀ kind ∈ kinds.head?, kind.continuesTie = false

instance (kinds : List TokenKind) : Decidable (StartsAnew kinds) :=
  inferInstanceAs (Decidable (∀ kind ∈ kinds.head?, kind.continuesTie = false))

theorem extended?_of_not_continuesTie {kind : TokenKind} (h : kind.continuesTie = false)
    (t : OpenTie) : t.extended? kind = none := by
  cases kind <;> simp_all [continuesTie, OpenTie.extended?]

/-- A chain that nothing goes on with rings, or does not ring, by itself. -/
theorem ringsFrom_of_closed (t : Option OpenTie) (kinds : List TokenKind)
    (h : ∀ kind ∈ kinds.head?, (t.bind fun t => t.extended? kind) = none) :
    ringsFrom t kinds = OpenTie.rings t + rings kinds := by
  cases kinds with
  | nil => rfl
  | cons kind later => simp [ringsFrom, rings, h kind rfl, OpenTie.rings]

theorem ringsFrom_append {b : List TokenKind} (h : StartsAnew b) (t : Option OpenTie)
    (a : List TokenKind) : ringsFrom t (a ++ b) = ringsFrom t a + rings b := by
  induction a generalizing t with
  | nil =>
    -- the chain that is open where `b` begins ends there
    apply ringsFrom_of_closed
    intro kind hkind
    have hclosed := extended?_of_not_continuesTie (h kind hkind)
    cases t <;> simp [hclosed]
  | cons kind later ih =>
    rw [List.cons_append, ringsFrom, ringsFrom]
    split
    · exact ih _
    · rw [ih, Nat.add_assoc]

theorem StartsAnew.append {a b : List TokenKind} (ha : StartsAnew a) (hb : StartsAnew b) :
    StartsAnew (a ++ b) := by
  intro kind hkind
  cases a with
  | nil => exact hb kind hkind
  | cons first later => exact ha kind hkind

theorem startsAnew_flatMap {α : Type} {kinds : α → List TokenKind} {l : List α}
    (h : ∀ a ∈ l, StartsAnew (kinds a)) : StartsAnew (l.flatMap kinds) := by
  induction l with
  | nil => simp [StartsAnew]
  | cons a later ih =>
    rw [List.flatMap_cons]
    exact (h a List.mem_cons_self).append (ih fun b hb => h b (List.mem_cons_of_mem _ hb))

/-- Lists that start anew ring together as often as by themselves. -/
theorem rings_flatMap {α : Type} {kinds : α → List TokenKind} {l : List α}
    (h : ∀ a ∈ l, StartsAnew (kinds a)) :
    rings (l.flatMap kinds) = (l.map fun a => rings (kinds a)).sum := by
  induction l with
  | nil => rfl
  | cons a later ih =>
    have hlater : ∀ b ∈ later, StartsAnew (kinds b) := fun b hb => h b (List.mem_cons_of_mem _ hb)
    rw [List.flatMap_cons, rings, ringsFrom_append (startsAnew_flatMap hlater), List.map_cons,
      List.sum_cons, ← ih hlater]
    rfl

theorem span_append {b : List TokenKind} (h : StartsAnew b) (a : List TokenKind) :
    span (a ++ b) = span a + span b := by
  simp only [span, rings, ringsFrom_append h, List.map_append, List.sum_append, Nat.mul_add]
  omega

end TokenKind

open TokenKind

/-! ## Tie chains -/

namespace TieChain

theorem ofNat_ticks_note (n : Note) : Ticks.ofNat (TokenKind.note n).ticks = n.duration := by
  rw [ticks, Note.duration]
  split <;> rfl

/-- Closing a chain adds the beat that it rings for. -/
theorem exists_length_of_closed (t : OpenTie) (length : Ticks) (kinds : List TokenKind)
    (h : ∀ kind ∈ kinds.head?, t.extended? kind = none) :
    ∃ added, (if t.onHold then length + Ticks.beat else length) = length + Ticks.ofNat added
      ∧ added + span kinds
        = (kinds.map ticks).sum + Ticks.perBeat * ringsFrom (some t) kinds := by
  refine ⟨Ticks.perBeat * OpenTie.rings (some t), ?_, ?_⟩
  · by_cases hold : t.onHold
    · simp [OpenTie.rings, hold, Ticks.beat]
    · simp [OpenTie.rings, hold]
  · rw [ringsFrom_of_closed (some t) kinds h, span, Nat.mul_add]
    omega

/-- What a chain takes, and what comes after it takes, is together what its first note and everything
behind it take. -/
theorem exists_length_extend (pitch : Pitch) (tied onHold : Bool) (length : Ticks)
    (followers : Nat) (kinds : List TokenKind) :
    ∃ added,
      (extend pitch tied onHold length followers kinds).length = length + Ticks.ofNat added
        ∧ added + span (extend pitch tied onHold length followers kinds).rest
          = (kinds.map ticks).sum + Ticks.perBeat * ringsFrom (some ⟨pitch, tied, onHold⟩) kinds := by
  -- a note or a hold goes on with the chain (cases 2 and 4); in the others the chain ends
  fun_induction extend pitch tied onHold length followers kinds with
  | case1 tied onHold length =>
    exact exists_length_of_closed ⟨pitch, tied, onHold⟩ length [] (by simp)
  | case2 tied onHold length followers n later h ih =>
    obtain ⟨added, hlength, hspan⟩ := ih
    refine ⟨(TokenKind.note n).ticks + added, ?_, ?_⟩
    · rw [hlength, Ticks.ofNat_add, ofNat_ticks_note, add_assoc]
    · rw [List.map_cons, List.sum_cons, Nat.add_assoc, hspan, Nat.add_assoc]
      simp [ringsFrom, OpenTie.extended?, h]
  | case3 tied onHold length followers n later h =>
    exact exists_length_of_closed ⟨pitch, tied, onHold⟩ length (.note n :: later)
      (by simpa [OpenTie.extended?] using h)
  | case4 onHold length followers later ih =>
    obtain ⟨added, hlength, hspan⟩ := ih
    refine ⟨TokenKind.hold.ticks + added, ?_, ?_⟩
    · rw [hlength, Ticks.ofNat_add, add_assoc]
      rfl
    · rw [List.map_cons, List.sum_cons, Nat.add_assoc, hspan, Nat.add_assoc]
      rfl
  | case5 tied onHold length followers later h =>
    exact exists_length_of_closed ⟨pitch, tied, onHold⟩ length (.hold :: later)
      (by simpa [OpenTie.extended?] using h)
  | case6 tied onHold length followers kind later hnote hhold =>
    apply exists_length_of_closed ⟨pitch, tied, onHold⟩ length (kind :: later)
    intro k hk
    obtain rfl : kind = k := by simpa using hk
    cases kind <;> simp_all [OpenTie.extended?]

/-- The chain of a note and what comes after it span together what the note and everything behind it
span. -/
theorem exists_length_ofNote (n : Note) (later : List TokenKind) :
    ∃ taken, (ofNote n later).length = Ticks.ofNat taken ∧ Ticks.perBeat ≤ taken
      ∧ taken + span (ofNote n later).rest = span (.note n :: later) := by
  obtain ⟨added, hlength, hspan⟩ := exists_length_extend n.pitch n.tied false n.duration 0 later
  refine ⟨(TokenKind.note n).ticks + added, ?_, ?_, ?_⟩
  · rw [ofNote, hlength, Ticks.ofNat_add, ofNat_ticks_note]
  · exact Nat.le_add_right_of_le (TokenKind.perBeat_le_ticks _)
  · rw [ofNote, Nat.add_assoc, hspan, span, List.map_cons, List.sum_cons, Nat.add_assoc]
    simp [rings, ringsFrom, OpenTie.begun?, OpenTie.rings]

/-- The chain of a note takes up as many tokens as it says. -/
theorem followers_extend (pitch : Pitch) (tied onHold : Bool) (length : Ticks) (followers : Nat)
    (kinds : List TokenKind) :
    (extend pitch tied onHold length followers kinds).followers
        + (extend pitch tied onHold length followers kinds).rest.length
      = followers + kinds.length := by
  fun_induction extend pitch tied onHold length followers kinds with
  | case2 tied onHold length followers n later h ih => rw [ih, List.length_cons]; omega
  | case4 onHold length followers later ih => rw [ih, List.length_cons]; omega
  | case1 | case3 | case5 | case6 => rfl

/-- A chain stops where a token goes on with no chain. -/
theorem extend_append {b : List TokenKind} (hb : StartsAnew b) (pitch : Pitch) (tied onHold : Bool)
    (length : Ticks) (followers : Nat) (a : List TokenKind) :
    extend pitch tied onHold length followers (a ++ b)
      = { extend pitch tied onHold length followers a with
          rest := (extend pitch tied onHold length followers a).rest ++ b } := by
  fun_induction extend pitch tied onHold length followers a with
  | case1 tied onHold length =>
    rw [List.nil_append]
    cases b with
    | nil => rfl
    | cons kind later =>
      have hkind := hb kind rfl
      cases kind <;> simp_all [extend, continuesTie]
  | case2 tied onHold length followers n later h ih => rw [List.cons_append, extend, if_pos h, ih]
  | case3 tied onHold length followers n later h => rw [List.cons_append, extend, if_neg h]
  | case4 onHold length followers later ih => rw [List.cons_append, extend, if_pos rfl, ih]
  | case5 tied onHold length followers later h => rw [List.cons_append, extend, if_neg h]
  | case6 tied onHold length followers kind later hnote hhold =>
    rw [List.cons_append, extend]
    · exact hnote
    · exact hhold

end TieChain

/-! ## Walks -/

/-- The event moved behind `offset` ticks and `tokens` tokens. -/
def NoteEvent.moved (offset : Ticks) (tokens : Nat) (e : NoteEvent) : NoteEvent :=
  { e.shift offset with tokenIndex := e.tokenIndex + tokens }

namespace Cursor

theorem walk_append {b : List TokenKind} (hb : StartsAnew b) (c : Cursor) (a : List TokenKind) :
    c.walk (a ++ b) = (c.walk a).walk b := by
  fun_induction walk c a with
  | case1 c => rfl
  | case7 c n later ih =>
    -- only a note looks at the tokens behind it
    rw [List.cons_append, walk, TieChain.ofNote, TieChain.extend_append hb]
    exact ih
  | case2 c later ih | case3 c later ih | case4 c later ih | case5 c later ih
  | case6 c notes later ih =>
    rw [List.cons_append, walk]
    exact ih

theorem lineIndex_walk (c : Cursor) (kinds : List TokenKind) :
    (c.walk kinds).lineIndex = c.lineIndex := by
  fun_induction walk c kinds <;> simp_all [skip, emit]

theorem instrument_walk (c : Cursor) (kinds : List TokenKind) :
    (c.walk kinds).instrument = c.instrument := by
  fun_induction walk c kinds <;> simp_all [skip, emit]

/-- The tokens that are walked over are counted. -/
theorem tokenIndex_walk (c : Cursor) (kinds : List TokenKind) :
    (c.walk kinds).tokenIndex = c.tokenIndex + kinds.length := by
  fun_induction walk c kinds with
  | case1 c => rfl
  | case7 c n later ih =>
    -- the tokens of the chain and what is left behind it
    have htokens := TieChain.followers_extend n.pitch n.tied false n.duration 0 later
    rw [ih, emit, List.length_cons]
    simp only [TieChain.ofNote]
    omega
  | case2 c later ih | case3 c later ih | case4 c later ih | case5 c later ih
  | case6 c notes later ih =>
    rw [ih, List.length_cons]
    simp only [skip, emit]
    omega

theorem ofNat_ticks_chord (notes : List Note) :
    Ticks.ofNat (TokenKind.chord notes).ticks = chordDuration notes := by
  rw [ticks, chordDuration]
  split <;> rfl

/-- A walk takes the span of its tokens. -/
theorem beat_walk (c : Cursor) (kinds : List TokenKind) :
    (c.walk kinds).beat = c.beat + Ticks.ofNat (span kinds) := by
  fun_induction walk c kinds with
  | case1 c => simp [span, rings, ringsFrom, OpenTie.rings]
  | case7 c n later ih =>
    -- the length of the event and what is left behind its chain
    obtain ⟨taken, hlength, -, hspan⟩ := TieChain.exists_length_ofNote n later
    rw [ih, emit, hlength, add_assoc, ← Ticks.ofNat_add, hspan]
  | case2 c later ih | case3 c later ih | case4 c later ih | case5 c later ih =>
    rw [ih, span_cons rfl, Ticks.ofNat_add, ← add_assoc]
    rfl
  | case6 c notes later ih =>
    rw [ih, span_cons rfl, Ticks.ofNat_add, ofNat_ticks_chord, ← add_assoc]
    rfl

/-- The cursor of a walk over something further on, seen from behind another cursor. -/
def behind (c d : Cursor) : Cursor :=
  { d with
    tokenIndex := d.tokenIndex + c.tokenIndex
    beat := d.beat + c.beat
    events := c.events ++ d.events.map (NoteEvent.moved c.beat c.tokenIndex) }

theorem behind_start (c : Cursor) : c.behind (start c.lineIndex c.instrument) = c := by
  simp [behind, start, ← Ticks.zero_eq]

theorem behind_skip (c d : Cursor) (duration : Ticks) :
    (c.behind d).skip duration = c.behind (d.skip duration) := by
  simp only [behind, skip, add_right_comm]

theorem behind_emit (c d : Cursor) (notes : List String) (duration : Ticks) (soft : Bool)
    (tokens : Nat) :
    (c.behind d).emit notes duration soft tokens = c.behind (d.emit notes duration soft tokens) := by
  simp only [behind, emit, add_right_comm, Array.map_push, Array.append_push]
  rfl

/-- A walk is the same wherever it begins. -/
theorem walk_behind (c d : Cursor) (kinds : List TokenKind) :
    (c.behind d).walk kinds = c.behind (d.walk kinds) := by
  fun_induction walk d kinds with
  | case1 d => rw [walk]
  | case2 d later ih | case3 d later ih | case4 d later ih => rw [walk, behind_skip, ih]
  | case5 d later ih | case6 d notes later ih | case7 d n later ih => rw [walk, behind_emit, ih]

/-- What a walk leaves is what it would leave from the start, moved to where it begins. -/
theorem toList_events_walk (c : Cursor) (kinds : List TokenKind) :
    (c.walk kinds).events.toList = c.events.toList
      ++ ((start c.lineIndex c.instrument).walk kinds).events.toList.map
        (NoteEvent.moved c.beat c.tokenIndex) := by
  conv_lhs => rw [← behind_start c, walk_behind]
  simp [behind]

/-- Nothing sounds in rests. -/
theorem events_walk_rests (c : Cursor) (count : Nat) :
    (c.walk (List.replicate count .rest)).events = c.events := by
  induction count generalizing c with
  | zero => rw [List.replicate_zero, walk]
  | succ count ih => rw [List.replicate_succ, walk, ih, skip]

end Cursor

end Stave
