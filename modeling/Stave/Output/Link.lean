import Stave.Output.Player

/-!
# The link to the sound device

Commands travel from the program to the player through a queue of limited size.  A counter that both
sides share says how many samples are still to be played; the program adds to it before it sends, so
that the player can never subtract what has not been added.
-/

namespace Stave

/-- A program and a player with the queue between them. -/
structure Link (β : Type) where
  /-- The commands that the player has not seen, the oldest first. -/
  queue : List (Command β)
  /-- How many commands the queue can hold. -/
  capacity : Nat
  /-- Samples that are added to the counter but not yet in the queue. -/
  departing : Option (List β)
  /-- The shared counter of samples to be played. -/
  counter : Nat
  player : Player β

namespace Link

variable {β : Type} [Scalar β]

/-- A link on which nothing has been sent. -/
def new (capacity : Nat) (player : Player β) : Link β :=
  { queue := [], capacity, departing := none, counter := 0, player }

/-- Puts a command into the queue, if there is room. -/
def push (l : Link β) (command : Command β) : Bool × Link β :=
  if l.queue.length < l.capacity then (true, { l with queue := l.queue ++ [command] })
  else (false, l)

/-- The first step of sending samples: counts them. -/
def announce (l : Link β) (samples : List β) : Link β :=
  { l with counter := l.counter + samples.length, departing := some samples }

/-- Counts samples back for which there was no room. -/
def countBack (l : Link β) : Link β :=
  { l with counter := l.counter - (l.departing.getD []).length, departing := none }

/-- The second step of sending samples: puts them into the queue, or counts them back if it is
full. -/
def deliver (l : Link β) : Bool × Link β :=
  match l.departing with
  | none => (true, l)
  | some samples =>
    match { l with departing := none }.push (.samples samples) with
    | (true, l) => (true, l)
    | (false, _) => (false, l.countBack)

/-- Sends samples, and says whether there was room for them. -/
def send (l : Link β) (samples : List β) : Bool × Link β := (l.announce samples).deliver

/-- Tells the player to drop everything. -/
def halt (l : Link β) : Bool × Link β := l.push .stop

/-- Has the player see the oldest command, if there is one, and subtracts what that drops. -/
def see (l : Link β) : Link β :=
  match l.queue with
  | [] => l
  | command :: rest =>
    let (dropped, player) := l.player.obey command
    { l with queue := rest, counter := l.counter - dropped, player }

/-- Has the player play `count` samples, and subtracts those that it had. -/
def sound (l : Link β) (count : Nat) : List β × Link β :=
  let (output, taken, player) := l.player.play count
  (output, { l with counter := l.counter - taken, player })

/-- Has the player see all commands one after the other and play `count` samples. -/
def pull (l : Link β) (count : Nat) : List β × Link β :=
  (l.queue.foldl (fun l _ => l.see) l).sound count

end Link

end Stave
