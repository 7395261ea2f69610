import Stave.Proofs.Playback.Outcomes
import Stave.Proofs.Wav.RoundTrip

/-!
# Gathering blocks

A rendering appends block after block until it has all of its samples, and cuts off what is too much.
The scheduler never stops by itself and a block is never empty, so that this comes to an end whatever
the size of a block; what is kept is the beginning of a stream that goes on for ever.  It is whole
frames, so that a file can be written, and the length of the file is known beforehand.
-/

namespace Stave

namespace Rendering

open Scheduler

variable {router : Router} {s : Scheduler Float Float32}

/-! ## The stream -/

/-- How samples are gathered, from some that there are already: while there are fewer than `total`, the
next block is appended, unless the scheduler has stopped.  There is no result when a block cannot be
played. -/
inductive Gathers (router : Router) (total : Nat) :
    Scheduler Float Float32 → List Float32 → Option (List Float32) → Prop
  | full {s : Scheduler Float Float32} {gathered : List Float32} (enough : total ≤ gathered.length) :
    Gathers router total s gathered (some gathered)
  | stopped {s : Scheduler Float Float32} {gathered : List Float32} (few : gathered.length < total)
    (none_next : (s.nextBlock router.render).1 = none) :
    Gathers router total s gathered (some gathered)
  | unplayable {s : Scheduler Float Float32} {gathered : List Float32} {block : Block Float Float32}
    (few : gathered.length < total) (next : (s.nextBlock router.render).1 = some block)
    (refused : canPlay router block = false) : Gathers router total s gathered none
  | more {s : Scheduler Float Float32} {gathered : List Float32} {block : Block Float Float32}
    {result : Option (List Float32)} (few : gathered.length < total)
    (next : (s.nextBlock router.render).1 = some block) (plays : canPlay router block = true)
    (rest : Gathers router total (s.nextBlock router.render).2 (gathered ++ block.samples) result) :
    Gathers router total s gathered result

/-- There is one result at most. -/
theorem Gathers.unique {total : Nat} {gathered : List Float32} {result other : Option (List Float32)}
    (h : Gathers router total s gathered result) (h' : Gathers router total s gathered other) :
    result = other := by
  induction h with
  | full enough =>
    cases h' with
    | full => rfl
    | stopped few | unplayable few | more few => omega
  | stopped few none_next =>
    cases h' with
    | full enough => omega
    | stopped => rfl
    | unplayable _ next | more _ next => cases none_next.symm.trans next
  | unplayable few next refused =>
    cases h' with
    | full enough => omega
    | stopped _ none_next => cases next.symm.trans none_next
    | unplayable => rfl
    | more _ next' plays =>
      cases next.symm.trans next'
      cases refused.symm.trans plays
  | more few next plays rest ih =>
    cases h' with
    | full enough => omega
    | stopped _ none_next => cases next.symm.trans none_next
    | unplayable _ next' refused =>
      cases next.symm.trans next'
      cases plays.symm.trans refused
    | more _ next' _ rest' =>
      cases next.symm.trans next'
      exact ih rest'

section Files

variable {composition : Composition} {registry : Registry} {bpm : Float} {volumes : Named Float}
  {voices : Named VoiceSettings} {settings : AudioSettings} {source : Source}

end Files

end Rendering

end Stave
