import Stave.Proofs.Time.Ticks
import Stave.Time.Timeline

/-!
# Reading a timeline

On a list in the order of starts the events before a tick form a prefix, so that reading up to a tick
is filtering.  A timeline that has been *read to* a tick holds exactly the later events as unread;
draining the window behind that tick hands out the events of the window and reads on to its end.
-/

namespace Stave.Timeline

/-! ## Prefixes of a list in the order of starts -/

section Sorted

variable {l : List NoteEvent}

theorem takeWhile_before (h : l.Pairwise fun a b => a.beat ≤ b.beat) (t : Ticks) :
    (l.takeWhile fun e => decide (e.beat < t)) = l.filter fun e => decide (e.beat < t) := by
  induction l with
  | nil => rfl
  | cons e rest ih =>
    obtain ⟨hfirst, hrest⟩ := List.pairwise_cons.mp h
    by_cases he : e.beat < t
    · simp [he, ih hrest]
    · -- nothing that starts later than `e` is before `t`
      have hnone : ∀ x ∈ rest, ¬ x.beat < t := fun x hx =>
        Ticks.not_lt.mpr (Ticks.le_trans (Ticks.not_lt.mp he) (hfirst x hx))
      simpa [he] using hnone

theorem dropWhile_before (h : l.Pairwise fun a b => a.beat ≤ b.beat) (t : Ticks) :
    (l.dropWhile fun e => decide (e.beat < t)) = l.filter fun e => decide (t ≤ e.beat) := by
  induction l with
  | nil => rfl
  | cons e rest ih =>
    obtain ⟨hfirst, hrest⟩ := List.pairwise_cons.mp h
    by_cases he : e.beat < t
    · have hle : ¬ t ≤ e.beat := fun hle => Ticks.not_lt.mpr hle he
      simp [he, hle, ih hrest]
    · have hle : t ≤ e.beat := Ticks.not_lt.mp he
      have hall : (rest.filter fun x => decide (t ≤ x.beat)) = rest :=
        List.filter_eq_self.mpr fun x hx => decide_eq_true (Ticks.le_trans hle (hfirst x hx))
      simp [he, hle, hall]

/-- What starts before one tick, followed by what starts from there to before a later one. -/
theorem filter_before_append (h : l.Pairwise fun a b => a.beat ≤ b.beat) {p q : Ticks}
    (hpq : p ≤ q) :
    (l.filter fun e => decide (e.beat < p))
        ++ (l.filter fun e => decide (p ≤ e.beat) && decide (e.beat < q))
      = l.filter fun e => decide (e.beat < q) := by
  induction l with
  | nil => rfl
  | cons e rest ih =>
    obtain ⟨hfirst, hrest⟩ := List.pairwise_cons.mp h
    by_cases he : e.beat < p
    · have hq : e.beat < q := by
        rw [Ticks.lt_iff_toNat_lt] at he ⊢
        exact Nat.lt_of_lt_of_le he (Ticks.le_iff_toNat_le.mp hpq)
      have hle : ¬ p ≤ e.beat := fun hle => Ticks.not_lt.mpr hle he
      simp [he, hq, hle, ih hrest]
    · have hnone : (rest.filter fun x => decide (x.beat < p)) = [] := by
        rw [List.filter_eq_nil_iff]
        intro x hx
        simpa using Ticks.not_lt.mpr (Ticks.le_trans (Ticks.not_lt.mp he) (hfirst x hx))
      have hrestEq := ih hrest
      rw [hnone, List.nil_append] at hrestEq
      simp [he, hnone, Ticks.not_lt.mp he, List.filter_cons, hrestEq]

end Sorted

/-! ## Windows -/

/-- Whether exactly the events from `p` on are unread. -/
def ReadTo (t : Timeline) (p : Ticks) : Prop :=
  t.unread = t.events.filter fun e => decide (p ≤ e.beat)

theorem readTo_of_unread_eq {t : Timeline} (h : t.unread = t.events) : t.ReadTo Ticks.zero := by
  rw [ReadTo, h, List.filter_eq_self.mpr]
  intro e _
  simp [Ticks.le_iff_toNat_le]

theorem readTo_ofEvents (events : List NoteEvent) : (ofEvents events).ReadTo Ticks.zero :=
  readTo_of_unread_eq rfl

/-- Events that are in the order of their starts stay where they are. -/
theorem ofEvents_of_pairwise {events : List NoteEvent}
    (h : events.Pairwise fun a b => a.beat ≤ b.beat) :
    ofEvents events = ⟨events, events, h, List.suffix_refl events⟩ := by
  have hsort : byStart events = events := List.mergeSort_of_pairwise (h.imp decide_eq_true)
  rw [ofEvents, Timeline.mk.injEq]
  exact ⟨hsort, hsort⟩

theorem readTo_rewind (t : Timeline) : t.rewind.ReadTo Ticks.zero := readTo_of_unread_eq rfl

theorem pairwise_unread (t : Timeline) : t.unread.Pairwise fun a b => a.beat ≤ b.beat :=
  t.sorted.sublist t.unread_suffix.sublist

/-- Draining a window hands out the unread events that start in it. -/
theorem fst_drain (t : Timeline) (start finish : Ticks) :
    (t.drain start finish).1
      = t.unread.filter fun e => decide (start ≤ e.beat) && decide (e.beat < finish) := by
  -- what has been reached is in the order of starts, as everything unread is
  have hreached : (t.unread.filter fun e => decide (e.beat < finish)).Pairwise
      fun a b => a.beat ≤ b.beat := t.pairwise_unread.sublist List.filter_sublist
  simp only [drain, takeWhile_before t.pairwise_unread, dropWhile_before hreached,
    List.filter_filter]

/-- Draining a window leaves the unread events that start behind it. -/
theorem unread_drain (t : Timeline) (start finish : Ticks) :
    (t.drain start finish).2.unread = t.unread.filter fun e => decide (finish ≤ e.beat) :=
  dropWhile_before t.pairwise_unread finish

/-- Draining the window behind the tick that a timeline is read to hands out the events that start in
it. -/
theorem drain_fst {t : Timeline} {p : Ticks} (h : t.ReadTo p) (q : Ticks) :
    (t.drain p q).1 = t.events.filter fun e => decide (p ≤ e.beat) && decide (e.beat < q) := by
  rw [fst_drain, h, List.filter_filter]
  refine List.filter_congr fun e _ => ?_
  by_cases hp : p ≤ e.beat <;> simp [hp]

/-- Whatever is unread, what draining a window hands out starts in it. -/
theorem beat_mem_of_mem_drain {t : Timeline} {start finish : Ticks} {e : NoteEvent}
    (h : e ∈ (t.drain start finish).1) : start ≤ e.beat ∧ e.beat < finish := by
  rw [fst_drain, List.mem_filter, Bool.and_eq_true, decide_eq_true_eq, decide_eq_true_eq] at h
  exact h.2

/-- Draining the window behind the tick that a timeline is read to reads on to its end. -/
theorem ReadTo.drain {t : Timeline} {p q : Ticks} (h : t.ReadTo p) (hpq : p ≤ q) :
    (t.drain p q).2.ReadTo q := by
  show (t.drain p q).2.unread = t.events.filter _
  rw [unread_drain, h, List.filter_filter]
  refine List.filter_congr fun e _ => ?_
  by_cases hq : q ≤ e.beat
  · simp [hq, Ticks.le_trans hpq hq]
  · simp [hq]

/-! ## Cursors -/

/-- How many events have been read. -/
def cursor (t : Timeline) : Nat := t.events.length - t.unread.length

theorem cursor_rewind (t : Timeline) : t.rewind.cursor = 0 := Nat.sub_self _

/-- The events that a timeline has read are those before the tick that it is read to. -/
theorem ReadTo.cursor_eq {t : Timeline} {p : Ticks} (h : t.ReadTo p) :
    t.cursor = t.events.countP fun e => decide (e.beat < p) := by
  have hsplit := t.events.length_eq_countP_add_countP fun e => decide (e.beat < p)
  have hunread : t.unread.length
      = t.events.countP fun e => decide ¬decide (e.beat < p) = true := by
    rw [h, ← List.countP_eq_length_filter]
    refine List.countP_congr fun e _ => ?_
    rw [decide_eq_true_iff, decide_eq_true_iff, decide_eq_true_iff, Ticks.not_lt]
  rw [cursor, hunread]
  omega

/-! ## Stable order -/

/-- A list holds given events in the order of their starts, and those that start together in the
order in which they were given. -/
structure IsStableSort (events ordered : List NoteEvent) : Prop where
  sorted : ordered.Pairwise fun a b => a.beat ≤ b.beat
  stable : ∀ t : Ticks,
    (ordered.filter fun e => decide (e.beat = t)) = events.filter fun e => decide (e.beat = t)

theorem isStableSort_byStart (events : List NoteEvent) : IsStableSort events (byStart events) := by
  refine ⟨pairwise_byStart events, fun t => ?_⟩
  -- what starts together is sorted already, so that sorting keeps it as a sublist
  have htogether : (events.filter fun e => decide (e.beat = t)).Pairwise
      fun a b => startsBy a b = true := by
    refine List.Pairwise.imp_of_mem (R := fun _ _ => True) ?_ (List.pairwise_of_forall (by simp))
    intro a b ha hb _
    have hab : a.beat = b.beat := by
      rw [of_decide_eq_true (List.mem_filter.mp ha).2, of_decide_eq_true (List.mem_filter.mp hb).2]
    simp [startsBy, hab, Ticks.le_iff_toNat_le]
  have hsub := List.sublist_mergeSort startsBy_trans startsBy_total htogether List.filter_sublist
  have hsub' := hsub.filter fun e => decide (e.beat = t)
  rw [List.filter_filter, List.filter_congr (q := fun e => decide (e.beat = t)) (by simp)] at hsub'
  exact (hsub'.eq_of_length ((List.mergeSort_perm events startsBy).filter _).length_eq.symm).symm

theorem mem_of_starts_together {l l' : List NoteEvent}
    (together : ∀ t : Ticks,
      (l.filter fun e => decide (e.beat = t)) = l'.filter fun e => decide (e.beat = t))
    {e : NoteEvent} (he : e ∈ l) : e ∈ l' := by
  have hat : e ∈ l.filter fun x => decide (x.beat = e.beat) :=
    List.mem_filter.mpr ⟨he, decide_eq_true rfl⟩
  rw [together e.beat] at hat
  exact (List.mem_filter.mp hat).1

/-- Lists in the order of starts that agree on what starts together are the same. -/
theorem eq_of_starts_together {l l' : List NoteEvent} (h : l.Pairwise fun a b => a.beat ≤ b.beat)
    (h' : l'.Pairwise fun a b => a.beat ≤ b.beat)
    (together : ∀ t : Ticks,
      (l.filter fun e => decide (e.beat = t)) = l'.filter fun e => decide (e.beat = t)) :
    l = l' := by
  induction l generalizing l' with
  | nil =>
    refine (List.eq_nil_iff_forall_not_mem.mpr fun e he => ?_).symm
    exact List.not_mem_nil (mem_of_starts_together (fun t => (together t).symm) he)
  | cons a rest ih =>
    cases l' with
    | nil => cases mem_of_starts_together together List.mem_cons_self
    | cons b rest' =>
      -- each of the two heads starts no later than the other
      have hab : a.beat ≤ b.beat := by
        have hb := mem_of_starts_together (fun t => (together t).symm) (List.mem_cons_self (a := b))
        rcases List.mem_cons.mp hb with rfl | hb
        · exact Ticks.le_iff_toNat_le.mpr (Nat.le_refl _)
        · exact List.rel_of_pairwise_cons h hb
      have hba : b.beat ≤ a.beat := by
        have ha := mem_of_starts_together together (List.mem_cons_self (a := a))
        rcases List.mem_cons.mp ha with rfl | ha
        · exact Ticks.le_iff_toNat_le.mpr (Nat.le_refl _)
        · exact List.rel_of_pairwise_cons h' ha
      have hbeat : b.beat = a.beat := Ticks.toNat_injective
        (Nat.le_antisymm (Ticks.le_iff_toNat_le.mp hba) (Ticks.le_iff_toNat_le.mp hab))
      have hhead := together a.beat
      rw [List.filter_cons_of_pos (by simp), List.filter_cons_of_pos (by simp [hbeat])] at hhead
      obtain ⟨rfl, -⟩ := List.cons.inj hhead
      have htails (t : Ticks) : (rest.filter fun e => decide (e.beat = t))
          = rest'.filter fun e => decide (e.beat = t) := by
        have hboth := together t
        rw [List.filter_cons, List.filter_cons] at hboth
        split at hboth
        · exact (List.cons.inj hboth).2
        · exact hboth
      rw [ih h.of_cons h'.of_cons htails]

/-- Events have one stable order. -/
theorem IsStableSort.unique {events ordered other : List NoteEvent} (h : IsStableSort events ordered)
    (h' : IsStableSort events other) : ordered = other :=
  eq_of_starts_together h.sorted h'.sorted fun t => (h.stable t).trans (h'.stable t).symm

/-- Leaving out what starts from some tick on keeps a stable order. -/
theorem IsStableSort.filter_before {events ordered : List NoteEvent}
    (h : IsStableSort events ordered) (p : Ticks) :
    IsStableSort (events.filter fun e => decide (e.beat < p))
      (ordered.filter fun e => decide (e.beat < p)) := by
  have hcomm (t : Ticks) (l : List NoteEvent) :
      ((l.filter fun e => decide (e.beat < p)).filter fun e => decide (e.beat = t))
        = (l.filter fun e => decide (e.beat = t)).filter fun e => decide (e.beat < p) := by
    rw [List.filter_filter, List.filter_filter]
    exact List.filter_congr fun _ _ => Bool.and_comm _ _
  refine ⟨h.sorted.sublist List.filter_sublist, fun t => ?_⟩
  rw [hcomm, hcomm, h.stable t]

end Stave.Timeline
