import Mathlib.Order.Interval.Set.Nat
import Stave.Proofs.Time.Reading

/-!
# Playing in a loop

While a loop is played, the ticks that have passed, counted in rounds of the loop, tell how often an
event has been rendered: once in every full round, and once more when the current round has gone past
its start.  A block handles one end of the loop.  One that reaches past a second end renders the rest
of the round it starts in and the beginning of the round it stops in; the rounds between are
*skipped*.  The law of this module counts rendered and skipped rounds together.
-/

namespace Stave

/-! ## Rounds -/

/-- The rounds of a loop of `length` ticks that a window covers beyond the one it starts in and the
one it stops in. -/
def Window.skipped (length : Ticks) (w : Window) : Nat := w.finish.toNat / length.toNat - 1

theorem Window.skipped_eq_zero_iff {length : Ticks} (h : Ticks.zero < length) (w : Window) :
    w.skipped length = 0 ↔ w.finish.toNat < 2 * length.toNat := by
  have hpos : 0 < length.toNat := Ticks.lt_iff_toNat_lt.mp h
  rw [skipped, Nat.sub_eq_zero_iff_le, Nat.lt_succ_iff.symm, Nat.div_lt_iff_lt_mul hpos]

/-- How many rounds of a loop have reached a beat, from the full rounds and the rest. -/
theorem ncard_rounds {beat length : Nat} (h : beat < length) (total : Nat) :
    {k : Nat | beat + k * length < total}.ncard
      = total / length + if beat < total % length then 1 else 0 := by
  have hpos : 0 < length := Nat.zero_lt_of_lt h
  have hset : {k : Nat | beat + k * length < total}
      = Set.Iio (total / length + if beat < total % length then 1 else 0) := by
    ext k
    have htotal := Nat.div_add_mod' total length
    have hrest := Nat.mod_lt total hpos
    show beat + k * length < total ↔ k < _
    constructor
    · intro hk
      -- a later round would begin behind the total
      by_contra hge
      rw [Nat.not_lt] at hge
      have hmul := Nat.mul_le_mul_right length hge
      rw [Nat.add_mul] at hmul
      split at hmul <;> omega
    · intro hk
      have hmul := Nat.mul_le_mul_right length (Nat.succ_le_of_lt hk)
      rw [Nat.succ_mul, Nat.add_mul] at hmul
      split at hmul <;> omega
  rw [hset, Set.ncard_Iio_nat]

theorem count_filter_eq (l : List NoteEvent) (keep : NoteEvent → Bool) (e : NoteEvent) :
    (l.filter keep).count e = l.count e * if keep e then 1 else 0 := by
  by_cases h : keep e = true
  · rw [List.count_filter h, if_pos h, Nat.mul_one]
  · rw [List.count_eq_zero.mpr fun hmem => h (List.mem_filter.mp hmem).2, if_neg h, Nat.mul_zero]

/-! ## Blocks -/

namespace Scheduler

open Timeline

variable {σ α β : Type} [Scalar α]

/-- What a block of a loop hands out, and where it leaves the timeline and the clock. -/
structure DueLooped (length : Ticks) (s : Scheduler α β) (w : Window)
    (due : List (NoteEvent × Ticks) × Timeline × Transport α) : Prop where
  events_eq : due.2.1.events = s.timeline.events
  readTo : due.2.1.ReadTo due.2.2.position
  position_eq : due.2.2.position.toNat = w.finish.toNat % length.toNat
  /-- The occurrences of an event before the block, in the block, and skipped by it, are those before
  the point of the loop that the block stops at. -/
  count_eq : ∀ e, (due.1.map Prod.fst).count e + s.timeline.events.count e * w.skipped length
      + s.timeline.events.count e * (if e.beat < s.transport.position then 1 else 0)
    = s.timeline.events.count e * (w.finish.toNat / length.toNat
        + if e.beat < due.2.2.position then 1 else 0)

section Due

variable {s : Scheduler α β} {length : Ticks} (hlooped : s.loopLength = some length)
  (hread : s.timeline.ReadTo s.transport.position)
include hlooped hread

theorem dueLooped_of_inside (hforward : (s.transport.move s.blockSize).1.IsForward)
    (hinside : (s.transport.move s.blockSize).1.finish < length) :
    DueLooped length s (s.transport.move s.blockSize).1 s.dueNext := by
  have hsecond : (s.transport.move s.blockSize).2.position
    = (s.transport.move s.blockSize).1.finish := rfl
  have hle : s.transport.position ≤ (s.transport.move s.blockSize).1.finish := hforward
  rw [dueNext_of_inside s hlooped hinside]
  generalize (s.transport.move s.blockSize).1 = w at *
  have hfull : w.finish.toNat / length.toNat = 0 :=
    Nat.div_eq_of_lt (Ticks.lt_iff_toNat_lt.mp hinside)
  refine ⟨rfl, ?_, ?_, fun e => ?_⟩
  · rw [hsecond]
    exact hread.drain hle
  · rw [hsecond, Nat.mod_eq_of_lt (Ticks.lt_iff_toNat_lt.mp hinside)]
  · rw [List.map_map, Function.comp_def, List.map_id', drain_fst hread, count_filter_eq,
      Window.skipped, hfull, hsecond]
    rw [Ticks.le_iff_toNat_le] at hle
    simp only [Bool.and_eq_true, decide_eq_true_eq, Ticks.le_iff_toNat_le, Ticks.lt_iff_toNat_lt]
    -- an event of the window starts either before the block or in it
    by_cases hp : e.beat.toNat < s.transport.position.toNat
    · have hf : e.beat.toNat < w.finish.toNat := by omega
      simp [hp, hf]
    · simp [hp, Nat.not_lt.mp hp]

theorem dueLooped_of_wrapping (hlength : Ticks.zero < length)
    (hposition : s.transport.position < length)
    (hbefore : ∀ e ∈ s.timeline.events, e.beat < length)
    (hwrapping : length ≤ (s.transport.move s.blockSize).1.finish) :
    DueLooped length s (s.transport.move s.blockSize).1 s.dueNext := by
  have hdue := dueNext_of_wrapping s hlooped hwrapping
  generalize (s.transport.move s.blockSize).1 = w at *
  simp only at hdue
  rw [hdue]
  have hle : s.transport.position.toNat ≤ length.toNat :=
    Nat.le_of_lt (Ticks.lt_iff_toNat_lt.mp hposition)
  have hpos : 0 < length.toNat := Ticks.lt_iff_toNat_lt.mp hlength
  rw [Ticks.le_iff_toNat_le] at hwrapping
  refine ⟨rfl, ?_, ?_, fun e => ?_⟩
  · apply (readTo_rewind _).drain
    rw [Ticks.le_iff_toNat_le]
    exact Nat.zero_le _
  · simp only [Transport.seek]
    rw [Ticks.toNat_wrap hlength, Ticks.toNat_sub, Nat.mod_eq_sub_mod hwrapping]
  · have hfull : w.finish.toNat / length.toNat = w.skipped length + 1 :=
      (Nat.sub_add_cancel (Nat.div_pos hwrapping hpos)).symm
    -- rewinding changes what is unread, not the events
    have hevents : ((s.timeline.drain s.transport.position length).2.rewind).events
        = s.timeline.events := rfl
    simp only [Transport.seek]
    rw [List.map_append, List.map_map, List.map_map, Function.comp_def, Function.comp_def,
      List.map_id', List.map_id', List.count_append, drain_fst hread,
      drain_fst (readTo_rewind _), hevents, count_filter_eq, count_filter_eq, hfull]
    by_cases he : e ∈ s.timeline.events
    · -- the rest of the first round, and the events before the block, are one full round
      have hend : e.beat.toNat < length.toNat := Ticks.lt_iff_toNat_lt.mp (hbefore e he)
      simp only [Bool.and_eq_true, decide_eq_true_eq, Ticks.le_iff_toNat_le,
        Ticks.lt_iff_toNat_lt, Ticks.toNat_zero, Nat.zero_le, true_and, hend, and_true]
      by_cases hp : e.beat.toNat < s.transport.position.toNat
      · simp only [hp, Nat.not_le.mpr hp, if_true, if_false, Nat.mul_add]
        omega
      · simp only [hp, Nat.not_lt.mp hp, if_true, if_false, Nat.mul_add]
        omega
    · simp [List.count_eq_zero.mpr he]

end Due

/-! ## Runs -/

/-- What holds of a scheduler that plays given events in a loop, of the calls that it has made, and
of the windows that it has played. -/
structure PlayedLooped (events : List NoteEvent) (length : Ticks) (played : List Window)
    (x : Scheduler α β × σ × List (Call α)) : Prop where
  looped : x.1.loopLength = some length
  events_eq : x.1.timeline.events = byStart events
  readTo : x.1.timeline.ReadTo x.1.transport.position
  /-- The clock stands where the ticks that have passed lead to in the loop. -/
  position_eq : x.1.transport.position.toNat = (played.map Window.ticks).sum % length.toNat
  /-- Rendered and skipped, an event has occurred in every full round, and in the current one when it
  starts before the position. -/
  count_eq : ∀ e, (x.2.2.filterMap Call.rendered?).count e
      + events.count e * (played.map (Window.skipped length)).sum
    = events.count e * ((played.map Window.ticks).sum / length.toNat
        + if e.beat < x.1.transport.position then 1 else 0)

/-- Loads events and starts to play them in a loop. -/
def playLooped (s : Scheduler α β) (events : List NoteEvent) (length : Ticks) : Scheduler α β :=
  ((s.load events).setLoop (some length)).play

theorem playedLooped_playLooped (s : Scheduler α β) (events : List NoteEvent) {length : Ticks}
    (h : Ticks.zero < length) (state : σ) :
    PlayedLooped events length [] (s.playLooped events length, state, []) where
  looped := by simp [playLooped, setLoop, play, h]
  events_eq := rfl
  readTo := readTo_ofEvents events
  position_eq := (Nat.zero_mod _).symm
  count_eq := fun e => by
    have hnone : ¬ e.beat < (s.playLooped events length).transport.position := by
      rw [Ticks.lt_iff_toNat_lt]
      exact Nat.not_lt_zero _
    simp [hnone]

/-- Going on from where `total` ticks have led to in a loop, up to `finish`. -/
theorem add_sub_mod {total length finish : Nat} (h : total % length ≤ finish) :
    total + (finish - total % length) = length * (total / length) + finish := by
  have htotal := Nat.div_add_mod total length
  omega

omit [Scalar α] in
/-- Another window goes on from the point of the loop that the ticks before it lead to. -/
theorem PlayedLooped.sum_ticks_append {events : List NoteEvent} {length : Ticks}
    {played : List Window} {x : Scheduler α β × σ × List (Call α)}
    (h : PlayedLooped events length played x) {w : Window}
    (hstart : w.start = x.1.transport.position) (hforward : w.IsForward) :
    ((played ++ [w]).map Window.ticks).sum
      = length.toNat * ((played.map Window.ticks).sum / length.toNat) + w.finish.toNat := by
  have hle : w.start.toNat ≤ w.finish.toNat := Ticks.le_iff_toNat_le.mp hforward
  rw [hstart, h.position_eq] at hle
  rw [List.map_append, List.sum_append, ← add_sub_mod hle, ← h.position_eq, ← hstart]
  simp [Window.ticks]

theorem PlayedLooped.dueLooped {events : List NoteEvent} {length : Ticks} {played : List Window}
    {s : Scheduler α β} {state : σ} {calls : List (Call α)}
    (h : PlayedLooped events length played (s, state, calls)) (hlength : Ticks.zero < length)
    (hbefore : ∀ e ∈ events, e.beat < length)
    (hforward : (s.transport.move s.blockSize).1.IsForward) :
    DueLooped length s (s.transport.move s.blockSize).1 s.dueNext := by
  by_cases hinside : (s.transport.move s.blockSize).1.finish < length
  · exact dueLooped_of_inside h.looped h.readTo hforward hinside
  · -- between blocks the clock stands within the loop
    have hposition : s.transport.position < length := by
      rw [Ticks.lt_iff_toNat_lt, h.position_eq]
      exact Nat.mod_lt _ (Ticks.lt_iff_toNat_lt.mp hlength)
    refine dueLooped_of_wrapping h.looped h.readTo hlength hposition (fun e he => ?_)
      (Ticks.not_lt.mp hinside)
    rw [h.events_eq, byStart, List.mem_mergeSort] at he
    exact hbefore e he

omit [Scalar α] in
/-- Rendered and skipped, an event occurs once in every round that reaches its start. -/
theorem PlayedLooped.count_rounds {events : List NoteEvent} {length : Ticks} {played : List Window}
    {x : Scheduler α β × σ × List (Call α)} (h : PlayedLooped events length played x)
    (hbefore : ∀ e ∈ events, e.beat < length) (e : NoteEvent) :
    (x.2.2.filterMap Call.rendered?).count e
        + events.count e * (played.map (Window.skipped length)).sum
      = events.count e
        * {k : Nat | e.beat.toNat + k * length.toNat < (played.map Window.ticks).sum}.ncard := by
  by_cases he : e ∈ events
  · rw [h.count_eq e, ncard_rounds (Ticks.lt_iff_toNat_lt.mp (hbefore e he)), ← h.position_eq]
    simp only [Ticks.lt_iff_toNat_lt]
  · -- what was not loaded is not rendered
    have hcount := h.count_eq e
    rw [List.count_eq_zero.mpr he, Nat.zero_mul, Nat.zero_mul] at hcount ⊢
    exact hcount

variable [Add β] [Zero β]

theorem PlayedLooped.act {events : List NoteEvent} {length : Ticks} {p : Performer σ α β}
    {played : List Window} {x : Scheduler α β × σ × List (Call α)} (action : Action α)
    (hlength : Ticks.zero < length) (hbefore : ∀ e ∈ events, e.beat < length)
    (hforward : ∀ w ∈ x.1.window? action, w.IsForward) (h : PlayedLooped events length played x) :
    PlayedLooped events length (played ++ (x.1.window? action).toList)
      (act p.recorded x action) := by
  obtain ⟨s, state, calls⟩ := x
  cases action with
  | play => simpa [window?] using { h with }
  | setTempo bpm => simpa [window?] using { h with }
  | block =>
    rcases Bool.eq_false_or_eq_true s.transport.playing with hplaying | hstopped
    · have hmoves : (s.transport.move s.blockSize).1.IsForward :=
        hforward _ (by rw [window?_of_playing s hplaying]; rfl)
      have hdue := h.dueLooped hlength hbefore hmoves
      obtain ⟨context, tail, after, hblock⟩ := performBlock_recorded s p state calls hplaying
      simp only [Scheduler.act, hblock, window?_of_playing s hplaying, Option.toList_some]
      have hticks := h.sum_ticks_append (s.transport.start_move s.blockSize) hmoves
      generalize (s.transport.move s.blockSize).1 = w at *
      refine ⟨h.looped, hdue.events_eq.trans h.events_eq, hdue.readTo, ?_, fun e => ?_⟩
      · rw [hdue.position_eq, hticks, Nat.mul_add_mod]
      · -- sorting keeps how often an event is there
        have hsort : s.timeline.events.count e = events.count e := by
          rw [show s.timeline.events = byStart events from h.events_eq]
          exact (List.mergeSort_perm events startsBy).count_eq e
        -- the laws of the rounds before the block and of the block add up
        have hold := h.count_eq e
        have hnew := hdue.count_eq e
        rw [hsort] at hnew
        rw [List.filterMap_append, Call.filterMap_rendered?_ofOnset, Window.map_event_onsets,
          List.count_append, List.map_append, List.sum_append, hticks,
          Nat.mul_add_div (Ticks.lt_iff_toNat_lt.mp hlength)]
        simp only [List.map_cons, List.map_nil, List.sum_cons, List.sum_nil, Nat.mul_add,
          Nat.add_zero] at hold hnew ⊢
        omega
    · have hblock := performBlock_of_stopped s p.recorded (state, calls) hstopped
      simpa only [Scheduler.act, hblock, window?_of_stopped s hstopped, Option.toList_none,
        List.append_nil] using h

/-- In a loop every event is rendered once in each round that reaches its start, less the rounds that
blocks skip.  So it is rendered in every round, if there are events at all, exactly when no block
reaches a second end of the loop. -/
theorem rendered_of_run_looped_iff (s : Scheduler α β) (events : List NoteEvent) (length : Ticks)
    (p : Performer σ α β) (state : σ) (actions : List (Action α)) (hlength : Ticks.zero < length)
    (hbefore : ∀ e ∈ events, e.beat < length)
    (hforward : ∀ w ∈ windows p.recorded actions (s.playLooped events length, state, []),
      w.IsForward) :
    let played := windows p.recorded actions (s.playLooped events length, state, [])
    let rendered := (run p.recorded actions
      (s.playLooped events length, state, [])).2.2.filterMap Call.rendered?
    let rounds (e : NoteEvent) :=
      {k : Nat | e.beat.toNat + k * length.toNat < (played.map Window.ticks).sum}.ncard
    (∀ e, rendered.count e + events.count e * (played.map (Window.skipped length)).sum
        = events.count e * rounds e)
      ∧ ((∀ e ∈ events, rendered.count e = events.count e * rounds e)
        ↔ events = [] ∨ ∀ w ∈ played, w.finish.toNat < 2 * length.toNat) := by
  intro played rendered rounds
  have h := run_invariant p.recorded Window.IsForward (PlayedLooped events length)
    (fun _ _ action hw hx => hx.act action hlength hbefore hw) actions _
    (playedLooped_playLooped s events hlength state) hforward
  have hlaw := h.count_rounds hbefore
  refine ⟨hlaw, ?_⟩
  have hskipped : (∀ w ∈ played, w.finish.toNat < 2 * length.toNat)
      ↔ (played.map (Window.skipped length)).sum = 0 := by
    rw [List.sum_eq_zero_iff_forall_eq_nat, List.forall_mem_map]
    exact forall₂_congr fun w _ => (Window.skipped_eq_zero_iff hlength w).symm
  rw [hskipped]
  constructor
  · intro hall
    rcases events.eq_nil_or_concat with hnil | ⟨_, e, hconcat⟩
    · exact Or.inl hnil
    · -- an event that is there and rendered in every round leaves nothing to skip
      have he : e ∈ events := by simp [hconcat]
      have hsum := hlaw e
      rw [hall e he, Nat.add_eq_left, Nat.mul_eq_zero] at hsum
      exact Or.inr (hsum.resolve_left (List.count_pos_iff.mpr he).ne')
  · rintro (hnil | hzero) e he
    · simp [hnil] at he
    · have hsum := hlaw e
      rwa [hzero, Nat.mul_zero, Nat.add_zero] at hsum

/-- A loop of one beat with two strokes, played in blocks of half a beat and, at another tempo, of a
beat and a quarter: no block reaches a second end of the loop, and every round is heard. -/
theorem rendered_of_run_looped_across_tempos :
    let stroke (instrument : String) (beat : Nat) : NoteEvent :=
      { notes := ["C4"], beat := Ticks.ofNat beat, duration := Ticks.beat, lineIndex := 0
        tokenIndex := 0, soft := false, instrument }
    let events := [stroke "kick" 0, stroke "snare" 480]
    let s : Scheduler Float Float32 := Scheduler.new 60 960 1 480
    let p : Performer Unit Float Float32 := Performer.ofRender fun _ _ => [1]
    let actions := [Action.block, .block, .setTempo 150, .block, .block]
    let start := (s.playLooped events Ticks.beat, (), [])
    let rendered := (run p.recorded actions start).2.2.filterMap Call.rendered?
    let total := ((windows p.recorded actions start).map Window.ticks).sum
    Ticks.zero < Ticks.beat
      ∧ (∀ e ∈ events, e.beat < Ticks.beat)
      ∧ (∀ w ∈ windows p.recorded actions start, w.IsForward)
      ∧ total = 3360
      ∧ ∀ e ∈ events, rendered.count e
        = events.count e * {k : Nat | e.beat.toNat + k * Ticks.beat.toNat < total}.ncard := by
  intro stroke events s p actions start rendered total
  have hbefore : ∀ e ∈ events, e.beat < Ticks.beat := by decide
  have hforward : ∀ w ∈ windows p.recorded actions start, w.IsForward := by decide +kernel
  have hshort : ∀ w ∈ windows p.recorded actions start, w.finish.toNat < 2 * Ticks.beat.toNat := by
    decide +kernel
  exact ⟨by decide, hbefore, hforward, by decide +kernel,
    (rendered_of_run_looped_iff s events Ticks.beat p () actions (by decide) hbefore
      hforward).2.mpr (Or.inr hshort)⟩

/-- A loop of a third of a beat with one stroke, played in a block of one beat: the stroke is heard
once, although the block covers three rounds. -/
theorem rendered_once_in_three_rounds :
    let stroke : NoteEvent :=
      { notes := ["C4"], beat := Ticks.zero, duration := Ticks.beat, lineIndex := 0
        tokenIndex := 0, soft := false, instrument := "kick" }
    let length := Ticks.ofNat 320
    let s : Scheduler Float Float32 := Scheduler.new 60 4 1 4
    let p : Performer Unit Float Float32 := Performer.ofRender fun _ _ => [1]
    let start := (s.playLooped [stroke] length, (), [])
    let rendered := (run p.recorded [.block] start).2.2.filterMap Call.rendered?
    let total := ((windows p.recorded [.block] start).map Window.ticks).sum
    Ticks.zero < length
      ∧ (∀ e ∈ [stroke], e.beat < length)
      ∧ (∀ w ∈ windows p.recorded [.block] start, w.IsForward)
      ∧ rendered.count stroke = 1
      ∧ {k : Nat | stroke.beat.toNat + k * length.toNat < total}.ncard = 3 := by
  intro stroke length s p start rendered total
  refine ⟨by decide, by decide, by decide +kernel, by decide +kernel, ?_⟩
  have htotal : total = 960 := by decide +kernel
  rw [htotal, ncard_rounds (by decide)]
  decide

end Scheduler

end Stave
