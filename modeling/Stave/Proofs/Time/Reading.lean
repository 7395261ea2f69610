import Stave.Proofs.Time.Run
import Stave.Proofs.Time.Timeline

/-!
# What a block reads

A block reads the timeline from where the clock stands to where it moves, or, past the end of a loop, to
its end and then from the top.  Either way the timeline is read to where the clock stands afterwards,
as long as the count of ticks has not wrapped around.
-/

namespace Stave.Scheduler

open Timeline

variable {α β : Type} [Scalar α]

/-- Without a loop a block reads its window from the timeline and moves the clock to its end. -/
theorem dueNext_of_once (s : Scheduler α β) (h : s.loopLength = none) :
    s.dueNext =
      ((s.timeline.drain s.transport.position (s.transport.move s.blockSize).1.finish).1.map
          fun e => (e, e.beat - s.transport.position),
        (s.timeline.drain s.transport.position (s.transport.move s.blockSize).1.finish).2,
        (s.transport.move s.blockSize).2) := by
  simp [dueNext, due, h, Transport.move]

/-- A block that stops before the end of the loop reads its window from the timeline. -/
theorem dueNext_of_inside (s : Scheduler α β) {length : Ticks} (h : s.loopLength = some length)
    (hinside : (s.transport.move s.blockSize).1.finish < length) :
    s.dueNext =
      ((s.timeline.drain s.transport.position (s.transport.move s.blockSize).1.finish).1.map
          fun e => (e, e.beat - s.transport.position),
        (s.timeline.drain s.transport.position (s.transport.move s.blockSize).1.finish).2,
        (s.transport.move s.blockSize).2) := by
  have hle : ¬ length ≤ (s.transport.move s.blockSize).1.finish := fun hle =>
    Ticks.not_lt.mpr hle hinside
  simp only [dueNext, due, h, Option.filter, hle, decide_false]
  rfl

/-- A block that reaches the end of the loop reads the timeline to its end, and then from its top to
where the block stops in the loop. -/
theorem dueNext_of_wrapping (s : Scheduler α β) {length : Ticks} (h : s.loopLength = some length)
    (hwrapping : length ≤ (s.transport.move s.blockSize).1.finish) :
    let stop := ((s.transport.move s.blockSize).1.finish - length).wrap length
    let before := s.timeline.drain s.transport.position length
    let after := before.2.rewind.drain Ticks.zero stop
    s.dueNext =
      (before.1.map (fun e => (e, e.beat - s.transport.position))
          ++ after.1.map (fun e => (e, length - s.transport.position + e.beat)),
        after.2, (s.transport.move s.blockSize).2.seek stop) := by
  simp only [dueNext, due, h, Option.filter, hwrapping, decide_true]
  rfl

section

variable (s : Scheduler α β)

theorem playing_dueNext : s.dueNext.2.2.playing = s.transport.playing := by
  rw [dueNext, due]
  split <;> rfl

theorem sampleRate_dueNext : s.dueNext.2.2.sampleRate = s.transport.sampleRate := by
  rw [dueNext, due]
  split <;> rfl

theorem bpm_dueNext : s.dueNext.2.2.bpm = s.transport.bpm := by
  rw [dueNext, due]
  split <;> rfl

theorem framesPlayed_dueNext :
    s.dueNext.2.2.framesPlayed = (s.transport.framesPlayed + s.blockSize) % 2 ^ 64 := by
  rw [← Transport.framesPlayed_move, dueNext, due]
  split <;> rfl

theorem events_dueNext : s.dueNext.2.1.events = s.timeline.events := by
  rw [dueNext, due]
  split <;> rfl

end

variable {s : Scheduler α β}

/-- A block reads on to where it leaves the clock. -/
theorem readTo_dueNext (h : s.timeline.ReadTo s.transport.position)
    (hforward : (s.transport.move s.blockSize).1.IsForward) :
    s.dueNext.2.1.ReadTo s.dueNext.2.2.position := by
  cases hloop : s.loopLength with
  | none =>
    rw [dueNext_of_once s hloop]
    exact h.drain hforward
  | some length =>
    by_cases hinside : (s.transport.move s.blockSize).1.finish < length
    · rw [dueNext_of_inside s hloop hinside]
      exact h.drain hforward
    · -- past the end of the loop the timeline is read anew
      rw [dueNext_of_wrapping s hloop (Ticks.not_lt.mp hinside)]
      apply (readTo_rewind _).drain
      rw [Ticks.le_iff_toNat_le]
      exact Nat.zero_le _

/-- A block of a loop leaves the clock before the end of the loop. -/
theorem position_dueNext_lt {length : Ticks} (hlooped : s.loopLength = some length)
    (hlength : Ticks.zero < length) : s.dueNext.2.2.position < length := by
  by_cases hinside : (s.transport.move s.blockSize).1.finish < length
  · rw [dueNext_of_inside s hlooped hinside]
    exact hinside
  · rw [dueNext_of_wrapping s hlooped (Ticks.not_lt.mp hinside), Transport.seek,
      Ticks.lt_iff_toNat_lt, Ticks.toNat_wrap hlength]
    exact Nat.mod_lt _ (Ticks.lt_iff_toNat_lt.mp hlength)

end Stave.Scheduler
