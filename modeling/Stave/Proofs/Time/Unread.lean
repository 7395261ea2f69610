import Mathlib.Data.List.TakeWhile
import Stave.Proofs.Mix.Stream
import Stave.Proofs.Time.Timeline

/-!
# The unread events

However a timeline is filled, drained and rewound, it answers as a list of unread events does: given
events are put into a stable order of their starts, draining hands out the unread events of a window
and leaves those behind it, and rewinding brings all of them back.  A cursor into all events says as
much as the list of the unread ones.  Any search for the place that parts the events before a tick from
the others finds where a window begins and ends, because what is searched is in the order of starts.
-/

namespace Stave

/-! ## Searching -/

/-- The place in a list up to which every element has a property, and from which on none has it. -/
structure IsParting {α : Type} (has : α → Bool) (l : List α) (place : Nat) : Prop where
  le_length : place ≤ l.length
  before : ∀ x ∈ l.take place, has x = true
  behind : ∀ x ∈ l.drop place, has x = false

/-- What stands before such a place is what comes first with the property, and what stands behind it is
the rest. -/
theorem IsParting.split_eq {α : Type} {has : α → Bool} {l : List α} {place : Nat}
    (h : IsParting has l place) :
    l.takeWhile has = l.take place ∧ l.dropWhile has = l.drop place := by
  have hstop : (l.drop place).takeWhile has = [] := by
    rw [List.takeWhile_eq_nil_iff]
    intro hlt hhas
    rw [h.behind _ (List.get_mem _ _)] at hhas
    cases hhas
  have hsplit := List.take_append_drop place l
  constructor
  · conv_lhs => rw [← hsplit]
    rw [List.takeWhile_append_of_pos h.before, hstop, List.append_nil]
  · have hrest := (List.takeWhile_append_dropWhile (p := has) (l := l.drop place)).symm
    rw [hstop, List.nil_append] at hrest
    conv_lhs => rw [← hsplit]
    rw [List.dropWhile_append_of_pos h.before, ← hrest]

namespace Timeline

/-- In the order of starts there is a place that parts the events before a tick from the others. -/
theorem exists_isParting {l : List NoteEvent} (h : l.Pairwise fun a b => a.beat ≤ b.beat)
    (t : Ticks) : ∃ place, IsParting (fun e => decide (e.beat < t)) l place := by
  have hsplit : (l.takeWhile fun e => decide (e.beat < t))
      ++ (l.dropWhile fun e => decide (e.beat < t)) = l := List.takeWhile_append_dropWhile
  rw [takeWhile_before h, dropWhile_before h] at hsplit
  refine ⟨(l.filter fun e => decide (e.beat < t)).length, List.length_filter_le _ _,
    fun e he => ?_, fun e he => ?_⟩
  · rw [← hsplit, List.take_left' (by rw [hsplit])] at he
    exact (List.mem_filter.mp he).2
  · rw [← hsplit, List.drop_left' (by rw [hsplit])] at he
    exact decide_eq_false (Ticks.not_lt.mpr (of_decide_eq_true (List.mem_filter.mp he).2))

/-! ## The cursor -/

/-- The unread events are those from the cursor on. -/
theorem unread_eq_drop_cursor (t : Timeline) : t.unread = t.events.drop t.cursor :=
  List.suffix_iff_eq_drop.mp t.unread_suffix

theorem cursor_le_length (t : Timeline) : t.cursor ≤ t.events.length := Nat.sub_le _ _

theorem remaining_add_cursor (t : Timeline) : t.remaining + t.cursor = t.events.length :=
  Nat.add_sub_cancel' t.unread_suffix.length_le

/-- Where searches of the unread events find a window: its end among all of them, and its beginning
among those before the end. -/
structure Finds (t : Timeline) (start finish : Ticks) (first last : Nat) : Prop where
  ends : IsParting (fun e => decide (e.beat < finish)) (t.events.drop t.cursor) last
  begins : IsParting (fun e => decide (e.beat < start)) ((t.events.drop t.cursor).take last) first

theorem exists_finds (t : Timeline) (start finish : Ticks) :
    ∃ first last, t.Finds start finish first last := by
  have hsorted := t.pairwise_unread
  rw [unread_eq_drop_cursor] at hsorted
  obtain ⟨last, hlast⟩ := exists_isParting hsorted finish
  obtain ⟨first, hfirst⟩ := exists_isParting (hsorted.sublist (List.take_sublist last _)) start
  exact ⟨first, last, hlast, hfirst⟩

/-- Draining hands out what lies between the places that are found and moves the cursor to the second
of them.  Both places lie within the list that is searched. -/
theorem Finds.drain {t : Timeline} {start finish : Ticks} {first last : Nat}
    (h : t.Finds start finish first last) :
    first ≤ last ∧ t.cursor + last ≤ t.events.length
      ∧ (t.drain start finish).1 = ((t.events.drop t.cursor).take last).drop first
      ∧ (t.drain start finish).2.cursor = t.cursor + last := by
  have hlast := h.ends.le_length
  have hfirst := h.begins.le_length
  have hcursor := t.cursor_le_length
  rw [List.length_drop] at hlast
  rw [List.length_take] at hfirst
  refine ⟨by omega, by omega, ?_, ?_⟩
  · show (t.unread.takeWhile _).dropWhile _ = _
    rw [unread_eq_drop_cursor, h.ends.split_eq.1, h.begins.split_eq.2]
  · show t.events.length - (t.unread.dropWhile _).length = _
    rw [unread_eq_drop_cursor, h.ends.split_eq.2, List.drop_drop, List.length_drop]
    omega

/-! ## Requests -/

/-- What can be asked of a timeline. -/
inductive Request
  | replace (events : List NoteEvent)
  | drain (start finish : Ticks)
  | rewind

/-- Answers a request with the events that are handed out. -/
def serve (t : Timeline) : Request → List NoteEvent × Timeline
  | .replace events => ([], ofEvents events)
  | .drain start finish => t.drain start finish
  | .rewind => ([], t.rewind)

/-- Requests that drain one window after the other. -/
def drains (windows : List (Ticks × Ticks)) : List Request := windows.map fun w => .drain w.1 w.2

end Timeline

/-! ## Lists of unread events -/

/-- A list of events, and those of them that are unread. -/
structure Pass where
  events : List NoteEvent
  unread : List NoteEvent

namespace Pass

open Timeline

/-- Nothing is there to be read. -/
def empty : Pass := ⟨[], []⟩

/-- How a list of unread events answers a request. -/
inductive Serves : Pass → Request → List NoteEvent → Pass → Prop
  | replace (p : Pass) {given ordered : List NoteEvent} (sorts : IsStableSort given ordered) :
    Serves p (.replace given) [] ⟨ordered, ordered⟩
  | drain (p : Pass) (start finish : Ticks) :
    Serves p (.drain start finish)
      (p.unread.filter fun e => decide (start ≤ e.beat) && decide (e.beat < finish))
      ⟨p.events, p.unread.filter fun e => decide (finish ≤ e.beat)⟩
  | rewind (p : Pass) : Serves p .rewind [] ⟨p.events, p.events⟩

/-- How it answers requests one after the other. -/
inductive Runs : Pass → List Request → List (List NoteEvent) → Pass → Prop
  | nil (p : Pass) : Runs p [] [] p
  | cons {p q r : Pass} {request : Request} {answer : List NoteEvent} {requests : List Request}
      {answers : List (List NoteEvent)} (first : Serves p request answer q)
      (rest : Runs q requests answers r) : Runs p (request :: requests) (answer :: answers) r

theorem Serves.unique {p q r : Pass} {request : Request} {answer other : List NoteEvent}
    (h : Serves p request answer q) (h' : Serves p request other r) : answer = other ∧ q = r := by
  cases h with
  | replace sorts =>
    cases h' with
    | replace sorts' => rw [sorts.unique sorts']; exact ⟨rfl, rfl⟩
  | drain => cases h'; exact ⟨rfl, rfl⟩
  | rewind => cases h'; exact ⟨rfl, rfl⟩

theorem Runs.unique {p q r : Pass} {requests : List Request} {answers others : List (List NoteEvent)}
    (h : Runs p requests answers q) (h' : Runs p requests others r) : answers = others ∧ q = r := by
  induction h generalizing others with
  | nil => cases h'; exact ⟨rfl, rfl⟩
  | cons first _ ih =>
    cases h' with
    | cons first' rest' =>
      obtain ⟨rfl, rfl⟩ := first.unique first'
      obtain ⟨rfl, rfl⟩ := ih rest'
      exact ⟨rfl, rfl⟩

end Pass

namespace Timeline

/-- A timeline seen as a list of unread events. -/
def pass (t : Timeline) : Pass := ⟨t.events, t.unread⟩

theorem serves_serve (t : Timeline) (request : Request) :
    t.pass.Serves request (t.serve request).1 (t.serve request).2.pass := by
  cases request with
  | replace events => exact .replace _ (isStableSort_byStart events)
  | drain start finish =>
    have hdrained := Pass.Serves.drain t.pass start finish
    rw [show t.pass.unread = t.unread from rfl, ← fst_drain, ← unread_drain t start finish] at hdrained
    exact hdrained
  | rewind => exact .rewind _

theorem runs_serve (t : Timeline) (requests : List Request) :
    t.pass.Runs requests (Mix.thread serve requests t).1 (Mix.thread serve requests t).2.pass := by
  induction requests generalizing t with
  | nil => exact .nil _
  | cons request rest ih =>
    rw [Mix.thread_cons]
    exact .cons (t.serves_serve request) (ih _)

/-- Draining hands out events that are unread before, and leaves others of them unread. -/
theorem drain_sublist (t : Timeline) (start finish : Ticks) :
    ((t.drain start finish).1 ++ (t.drain start finish).2.unread).Sublist t.unread := by
  have hreached : (t.drain start finish).1.Sublist (t.unread.takeWhile fun e => decide (e.beat < finish)) :=
    List.dropWhile_sublist _
  have happend := hreached.append (List.Sublist.refl (t.drain start finish).2.unread)
  rwa [show (t.drain start finish).2.unread = t.unread.dropWhile _ from rfl,
    List.takeWhile_append_dropWhile] at happend

/-- Until the next rewind, all that is handed out and what is left unread then are events that were
unread, each of them once. -/
theorem flatten_drains_sublist (t : Timeline) (windows : List (Ticks × Ticks)) :
    ((Mix.thread serve (drains windows) t).1.flatten
      ++ (Mix.thread serve (drains windows) t).2.unread).Sublist t.unread := by
  induction windows generalizing t with
  | nil => exact List.Sublist.refl _
  | cons w rest ih =>
    rw [drains, List.map_cons, ← drains, Mix.thread_cons, List.flatten_cons, List.append_assoc]
    exact ((List.Sublist.refl _).append (ih _)).trans (t.drain_sublist w.1 w.2)

/-- Whatever is asked of a timeline, and in whatever order, it answers as a list of unread events does,
which leaves no choice of the answers.  How many events remain is how many are unread, and they are
those from the cursor on.  Every window has its places among them, both of them within the list, and
wherever they are found, draining hands out what lies between them and moves the cursor to the end.
Windows that are drained one after the other, be they apart, overlapping or backward, hand out unread
events, and each of them once. -/
theorem answers_of_requests (requests : List Request) :
    let run := Mix.thread serve requests empty
    Pass.empty.Runs requests run.1 run.2.pass
      ∧ (∀ answers p, Pass.empty.Runs requests answers p → answers = run.1 ∧ p = run.2.pass)
      ∧ run.2.remaining = run.2.pass.unread.length
      ∧ run.2.pass.unread = run.2.events.drop run.2.cursor
      ∧ run.2.remaining + run.2.cursor = run.2.events.length
      ∧ (∀ start finish, ∃ first last, run.2.Finds start finish first last)
      ∧ (∀ start finish first last, run.2.Finds start finish first last →
        first ≤ last ∧ run.2.cursor + last ≤ run.2.events.length
          ∧ (run.2.drain start finish).1 = ((run.2.events.drop run.2.cursor).take last).drop first
          ∧ (run.2.drain start finish).2.cursor = run.2.cursor + last)
      ∧ ∀ windows, ((Mix.thread serve (drains windows) run.2).1.flatten
          ++ (Mix.thread serve (drains windows) run.2).2.unread).Sublist run.2.unread := by
  intro run
  have hruns : Pass.empty.Runs requests run.1 run.2.pass := runs_serve empty requests
  exact ⟨hruns, fun _ _ h => h.unique hruns, rfl, run.2.unread_eq_drop_cursor,
    run.2.remaining_add_cursor, run.2.exists_finds, fun _ _ _ _ h => h.drain,
    run.2.flatten_drains_sublist⟩

end Timeline

end Stave
