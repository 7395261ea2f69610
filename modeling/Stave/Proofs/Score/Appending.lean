import Stave.Proofs.Score.Positions
import Stave.Proofs.Score.Ties

/-!
# Appended notation

Notation behind other notation says what it says by itself, as long as a space stands between the two,
the first does not end within a bracket and the second does not go on with a tie chain: its tokens and
its events are moved to where the first stops, and change in no other way.
-/

namespace Stave

namespace Token

/-- Whether the token is a bracket that is never closed. -/
def isOpen (t : Token) : Bool := t.raw.toList.head? == some '[' && !t.raw.toList.contains ']'

/-- The token moved by a number of bytes. -/
def moved (bytes : Nat) (t : Token) : Token :=
  { t with start := t.start + bytes, finish := t.finish + bytes }

theorem standing_add (start bytes : Nat) (raw : List Char) :
    standing (start + bytes) raw = (standing start raw).moved bytes := by
  simp only [standing, moved, Nat.add_right_comm]

/-- A text that stands further on has the same tokens further on. -/
theorem tokensFrom_add (start bytes : Nat) (text : List Char) :
    tokensFrom (start + bytes) text = (tokensFrom start text).map (moved bytes) := by
  induction text using cuts.induct generalizing start with
  | case1 => rw [tokensFrom_nil, tokensFrom_nil, List.map_nil]
  | case2 rest ih => rw [tokensFrom_space, tokensFrom_space, Nat.add_right_comm, ih]
  | case3 c rest hspace ih =>
    rw [tokensFrom_of_ne_space hspace, tokensFrom_of_ne_space hspace, standing_add,
      Nat.add_right_comm, ih, List.map_cons]

/-- A bracket that a text leaves open takes the rest of it. -/
theorem tokensFrom_open (start : Nat) {rest : List Char} (h : ']' ∉ rest) :
    tokensFrom start ('[' :: rest) = [standing start ('[' :: rest)] := by
  rw [tokensFrom_of_ne_space (by decide), cut_open h, tokensFrom_nil]

/-- A text that does not end within a bracket ends between two tokens. -/
theorem tokensFrom_append {start : Nat} {a : List Char}
    (h : ∀ t ∈ (tokensFrom start a).getLast?, t.isOpen = false) (b : List Char) :
    tokensFrom start (a ++ ' ' :: b)
      = tokensFrom start a ++ tokensFrom (start + Text.width a + 1) b := by
  induction a using cuts.induct generalizing start with
  | case1 => rw [List.nil_append, tokensFrom_space, tokensFrom_nil]; rfl
  | case2 rest ih =>
    rw [tokensFrom_space] at h
    have hspace : ' '.utf8Size = 1 := rfl
    rw [List.cons_append, tokensFrom_space, tokensFrom_space, ih h, Text.width_cons, hspace,
      Nat.add_assoc start]
  | case3 c rest hspace ih =>
    have hclose : c = '[' → ']' ∈ rest := by
      rintro rfl
      by_contra hopen
      rw [tokensFrom_open start hopen] at h
      have hlast := h _ rfl
      simp [isOpen, standing, hopen] at hlast
    rw [tokensFrom_of_ne_space hspace] at h
    have hlater : ∀ t ∈ (tokensFrom (start + Text.width (cut c rest).1) (cut c rest).2).getLast?,
        t.isOpen = false := by
      intro t ht
      apply h
      rw [List.getLast?_cons, Option.mem_def.mp ht]
      rfl
    have hwidth : Text.width (c :: rest)
        = Text.width (cut c rest).1 + Text.width (cut c rest).2 := by
      rw [← Text.width_append, cut_fst_append_snd]
    rw [List.cons_append, tokensFrom_of_ne_space hspace, tokensFrom_of_ne_space hspace,
      cut_append hclose, ih hlater, List.cons_append, hwidth, Nat.add_assoc start]

end Token

/-- Tokens that start anew leave the events that they leave by themselves, moved behind the tokens before
them. -/
theorem eventsOf_append (tokens : List Token) {later : List Token}
    (h : TokenKind.StartsAnew (later.map Token.kind)) (lineIndex : Nat) (instrument : String) :
    eventsOf (tokens ++ later) lineIndex instrument
      = ((eventsOf tokens lineIndex instrument).1
          ++ (eventsOf later lineIndex instrument).1.map
            (NoteEvent.moved (eventsOf tokens lineIndex instrument).2 tokens.length),
        (eventsOf tokens lineIndex instrument).2 + (eventsOf later lineIndex instrument).2) := by
  have hindex : ((Cursor.start lineIndex instrument).walk (tokens.map Token.kind)).tokenIndex
      = tokens.length := by
    rw [Cursor.tokenIndex_walk, List.length_map]
    exact Nat.zero_add _
  simp only [eventsOf, List.map_append, Cursor.walk_append h, Cursor.toList_events_walk
    ((Cursor.start lineIndex instrument).walk (tokens.map Token.kind)), Cursor.lineIndex_walk,
    Cursor.instrument_walk, hindex, Prod.mk.injEq]
  refine ⟨rfl, ?_⟩
  rw [Cursor.beat_walk, Cursor.beat_walk (Cursor.start lineIndex instrument) (later.map Token.kind)]
  congr 1
  exact (zero_add _).symm

/-- Notation behind a space leaves the tokens and the events that it leaves by itself, moved behind
those of the notation before it: tokens by bytes, events by ticks and by tokens. -/
theorem appended_notation {a b : List Char}
    (hclosed : ∀ t ∈ (tokensOf a).getLast?, t.isOpen = false)
    (hanew : TokenKind.StartsAnew ((tokensOf b).map Token.kind)) (lineIndex : Nat)
    (instrument : String) :
    tokensOf (a ++ ' ' :: b)
        = tokensOf a ++ (tokensOf b).map (Token.moved (Text.width a + 1))
      ∧ (eventsOf (tokensOf (a ++ ' ' :: b)) lineIndex instrument).1
        = (eventsOf (tokensOf a) lineIndex instrument).1
          ++ (eventsOf (tokensOf b) lineIndex instrument).1.map
            (NoteEvent.moved (eventsOf (tokensOf a) lineIndex instrument).2 (tokensOf a).length)
      ∧ (eventsOf (tokensOf (a ++ ' ' :: b)) lineIndex instrument).2
        = (eventsOf (tokensOf a) lineIndex instrument).2
          + (eventsOf (tokensOf b) lineIndex instrument).2 := by
  have htokens : tokensOf (a ++ ' ' :: b)
      = tokensOf a ++ (tokensOf b).map (Token.moved (Text.width a + 1)) := by
    have hsplit := Token.tokensFrom_append hclosed b
    rwa [Nat.add_assoc, Token.tokensFrom_add] at hsplit
  have hkinds : ((tokensOf b).map (Token.moved (Text.width a + 1))).map Token.kind
      = (tokensOf b).map Token.kind := by
    rw [List.map_map]
    rfl
  have hmoved : eventsOf ((tokensOf b).map (Token.moved (Text.width a + 1))) lineIndex instrument
      = eventsOf (tokensOf b) lineIndex instrument := by
    rw [eventsOf, hkinds, eventsOf]
  have hevents := eventsOf_append (tokensOf a) (hkinds ▸ hanew) lineIndex instrument
  rw [htokens, hevents, hmoved]
  exact ⟨rfl, rfl, rfl⟩

/-- The chain at the end of the first notation rings for one beat more and ends there. -/
theorem appended_notation_behind_tie :
    tokensOf "[C4 é] D4~ ~ E4".toList
        = tokensOf "[C4 é] D4~ ~".toList ++ (tokensOf "E4".toList).map (Token.moved 14)
      ∧ (eventsOf (tokensOf "[C4 é] D4~ ~ E4".toList) 2 "pad").1.map
          (fun e => (e.tokenIndex, e.beat.toNat, e.duration.toNat))
        = [(1, 960, 2880), (3, 3840, 960)]
      ∧ (eventsOf (tokensOf "[C4 é] D4~ ~ E4".toList) 2 "pad").2 = Ticks.ofBeats 5 := by
  have hclosed : ∀ t ∈ (tokensOf "[C4 é] D4~ ~".toList).getLast?, t.isOpen = false := by
    decide +kernel
  have hanew : TokenKind.StartsAnew ((tokensOf "E4".toList).map Token.kind) := by decide +kernel
  obtain ⟨htokens, hevents, hlength⟩ := appended_notation hclosed hanew 2 "pad"
  refine ⟨htokens, ?_, ?_⟩
  · exact (congrArg _ hevents).trans (by decide +kernel)
  · exact hlength.trans (by decide +kernel)

end Stave
