/-!
# Sinks

A sink takes the blocks of live playback.  It may refuse them, and it says how many samples it has
not played yet.
-/

namespace Stave

/-- Why a sink refuses. -/
inductive SinkError
  /-- The queue of commands has no room. -/
  | full
deriving DecidableEq, Repr

/-- The words for an error. -/
def SinkError.message : SinkError → String
  | full => "audio command ring buffer is full"

/-- How a sink with states in `σ` behaves. -/
structure Sink (σ : Type) where
  /-- Takes a block. -/
  send : List Float32 → σ → Except SinkError Unit × σ
  /-- Drops what is waiting and falls silent. -/
  stop : σ → Except SinkError Unit × σ
  /-- Samples that were sent and not played. -/
  buffered : σ → Nat

/-- What a recorder has been sent. -/
structure Captured where
  /-- The blocks, the latest one first. -/
  blocks : List (List Float32)
  stops : Nat

namespace Captured

/-- The recorder before anything is sent. -/
def empty : Captured := ⟨[], 0⟩

/-- All samples in the order in which they were sent. -/
def samples (c : Captured) : List Float32 := c.blocks.reverse.flatten

/-- A sink that keeps everything, plays nothing and never refuses. -/
def sink : Sink Captured :=
  { send := fun block c => (.ok (), { c with blocks := block :: c.blocks })
    stop := fun c => (.ok (), { c with stops := c.stops + 1 })
    buffered := fun _ => 0 }

end Captured

end Stave
