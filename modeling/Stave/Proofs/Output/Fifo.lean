import Stave.Output.Link
import Stave.Proofs.Mix.Stream

/-!
# A link is a queue and a limiter

Seen from outside, a link to a player is a queue of commands, a queue of samples and a limiter that
the samples pass.  Where in its memory the player has got to, and when it removes what it has played,
cannot be told from its answers.  A ledger of what was sent and what was taken since the last stop says
that no sample is lost, played twice or played out of order, and that none is played after a stop that
was sent before it.
-/

namespace Stave

namespace Link

/-- What is done at the two ends of a link. -/
inductive Action (β : Type)
  | push (command : Command β)
  | pull (count : Nat)

/-- What comes of it. -/
inductive Answer (β : Type)
  | pushed (accepted : Bool)
  | played (output : List β)

end Link

/-- The queue that a link stands for. -/
structure Fifo (β : Type) where
  /-- The commands that are not obeyed yet, the oldest first. -/
  commands : List (Command β)
  /-- How many commands can wait. -/
  capacity : Nat
  /-- The samples that are to be played, in order. -/
  samples : List β
  limiter : Limiter β
  channels : Nat

namespace Fifo

variable {β : Type} [Scalar β]

/-- A queue in which nothing waits. -/
def new (capacity : Nat) (limiter : Limiter β) (channels : Nat) : Fifo β :=
  { commands := [], capacity, samples := [], limiter, channels }

/-- Has a command wait, if there is room. -/
def push (q : Fifo β) (command : Command β) : Bool × Fifo β :=
  if q.commands.length < q.capacity then (true, { q with commands := q.commands ++ [command] })
  else (false, q)

/-- Puts samples behind the others, or drops them all and forgets a reduction of the level. -/
def obey (q : Fifo β) : Command β → Fifo β
  | .samples samples => { q with samples := q.samples ++ samples }
  | .stop => { q with samples := [], limiter := { q.limiter with gain := Scalar.ofNat 1 } }

/-- The queue when all commands that wait are obeyed. -/
def settled (q : Fifo β) : Fifo β := q.commands.foldl obey { q with commands := [] }

/-- The next `count` samples, or all if there are not so many. -/
def next (q : Fifo β) (count : Nat) : List β := q.samples.take count

/-- Takes the next samples out of the queue and passes them through the limiter, with silence behind
them up to `count`. -/
def play (q : Fifo β) (count : Nat) : List β × Fifo β :=
  let (output, limiter) := q.limiter.process q.channels
    (q.next count ++ List.replicate (count - (q.next count).length) (Scalar.ofNat 0))
  (output, { q with samples := q.samples.drop count, limiter })

/-- Obeys all commands that wait, and then plays. -/
def pull (q : Fifo β) (count : Nat) : List β × Fifo β := q.settled.play count

def act (q : Fifo β) : Link.Action β → Link.Answer β × Fifo β
  | .push command => (.pushed (q.push command).1, (q.push command).2)
  | .pull count => (.played (q.pull count).1, (q.pull count).2)

end Fifo

/-! ## The queue of a link -/

namespace Link

variable {β : Type} [Scalar β]

def act (l : Link β) : Action β → Answer β × Link β
  | .push command => (.pushed (l.push command).1, (l.push command).2)
  | .pull count => (.played (l.pull count).1, (l.pull count).2)

/-- What a link is seen from outside. -/
def fifo (l : Link β) : Fifo β where
  commands := l.queue
  capacity := l.capacity
  samples := l.player.memory.toList.drop l.player.played
  limiter := l.player.limiter
  channels := l.player.channels

omit [Scalar β] in
theorem push_fifo (l : Link β) (command : Command β) :
    l.fifo.push command = ((l.push command).1, (l.push command).2.fifo) := by
  show (if l.queue.length < l.capacity then _ else _) = _
  rw [push]
  split <;> rfl

theorem fifo_see {l : Link β} {command : Command β} {rest : List (Command β)}
    (h : l.queue = command :: rest) :
    l.see.fifo = { l.fifo with commands := rest }.obey command := by
  rw [see, h]
  cases command with
  | samples samples =>
    have hdrop : (l.player.memory.toList ++ samples).drop l.player.played
        = l.player.memory.toList.drop l.player.played ++ samples :=
      List.drop_append_of_le_length (by simpa using l.player.played_le)
    simp [fifo, Fifo.obey, Player.obey, hdrop]
  | stop => rfl

/-- Seeing all commands settles the queue. -/
theorem fifo_seeAll (l : Link β) :
    (l.queue.foldl (fun l _ => l.see) l).fifo = l.fifo.settled := by
  suffices h : ∀ (commands : List (Command β)) (l : Link β), l.queue = commands →
      (commands.foldl (fun l _ => l.see) l).fifo
        = commands.foldl Fifo.obey { l.fifo with commands := [] } from h l.queue l rfl
  intro commands
  induction commands with
  | nil =>
    intro l hqueue
    rw [List.foldl_nil, List.foldl_nil, fifo, hqueue]
  | cons command rest ih =>
    intro l hqueue
    have hsee := fifo_see hqueue
    have hrest : l.see.queue = rest := by
      rw [see, hqueue]
    rw [List.foldl_cons, List.foldl_cons, ih l.see hrest, hsee]
    cases command <;> rfl

end Link

/-! ## Playing -/

namespace Player

variable {β : Type}

/-- Removing what has been played changes nothing of what is still to be played. -/
theorem drop_compact (p : Player β) :
    p.compact.memory.toList.drop p.compact.played = p.memory.toList.drop p.played
      ∧ p.compact.limiter = p.limiter ∧ p.compact.channels = p.channels := by
  rw [compact]
  split
  · exact ⟨rfl, rfl, rfl⟩
  · simp [List.take_of_length_le]

theorem length_unplayed (p : Player β) : (p.memory.toList.drop p.played).length = p.waiting := by
  rw [List.length_drop, Array.length_toList, waiting]

/-- The samples that sound are the next ones in memory, as many of them as there are. -/
theorem sounding_eq (p : Player β) (count : Nat) :
    (p.memory.extract p.played (p.played + min count p.waiting)).toList
      = (p.memory.toList.drop p.played).take count := by
  rw [Array.toList_extract, List.extract_eq_take_drop, Nat.add_sub_cancel_left, ← length_unplayed]
  exact (List.take_eq_take_min ..).symm

end Player

namespace Link

variable {β : Type} [Scalar β]

theorem play_fifo (l : Link β) (count : Nat) :
    l.fifo.play count = ((l.sound count).1, (l.sound count).2.fifo) := by
  have hsounding := l.player.sounding_eq count
  have htaken : ((l.player.memory.toList.drop l.player.played).take count).length
      = min count l.player.waiting := by
    rw [List.length_take, Player.length_unplayed]
  have hdrop : (l.player.memory.toList.drop l.player.played).drop count
      = l.player.memory.toList.drop (l.player.played + min count l.player.waiting) := by
    rw [← List.drop_drop, ← Player.length_unplayed]
    exact List.drop_eq_drop_min ..
  simp only [Fifo.play, Fifo.next, sound, Player.play, fifo, hsounding, htaken, Player.drop_compact, hdrop]

theorem pull_fifo (l : Link β) (count : Nat) :
    l.fifo.pull count = ((l.pull count).1, (l.pull count).2.fifo) := by
  rw [Fifo.pull, ← fifo_seeAll, play_fifo, pull]

/-- A link does what the queue does that it stands for. -/
theorem act_fifo (l : Link β) (action : Action β) :
    l.fifo.act action = ((l.act action).1, (l.act action).2.fifo) := by
  cases action with
  | push command => rw [Fifo.act, push_fifo, act]
  | pull count => rw [Fifo.act, pull_fifo, act]

end Link

/-! ## What is sent and what is taken -/

/-- What has happened since the last stop. -/
structure Ledger (β : Type) where
  /-- The samples that were sent. -/
  sent : List β
  /-- The samples that were taken out of the queue to be played. -/
  taken : List β

namespace Ledger

variable {β : Type}

def empty : Ledger β := ⟨[], []⟩

/-- Notes a command that there was room for. -/
def record (x : Ledger β) : Command β → Ledger β
  | .samples samples => { x with sent := x.sent ++ samples }
  | .stop => empty

variable [Scalar β]

/-- Notes what is done to a queue. -/
def note (x : Ledger β) (q : Fifo β) : Link.Action β → Ledger β
  | .push command => if (q.push command).1 then x.record command else x
  | .pull count => { x with taken := x.taken ++ q.settled.next count }

/-- The queue and the ledger after a run that begins with a queue in which nothing waits. -/
def ofRun (q : Fifo β) (actions : List (Link.Action β)) : Fifo β × Ledger β :=
  actions.foldl (fun x action => ((x.1.act action).2, x.2.note x.1 action)) (q, empty)

/-- Whether what was taken and what is left are, in this order, what was sent. -/
def IsBalanced (x : Ledger β) (q : Fifo β) : Prop := x.sent = x.taken ++ q.settled.samples

end Ledger

namespace Fifo

variable {β : Type} [Scalar β]

theorem commands_settled (q : Fifo β) : q.settled.commands = [] := by
  suffices h : ∀ (commands : List (Command β)) (q : Fifo β), q.commands = [] →
      (commands.foldl obey q).commands = [] from h q.commands _ rfl
  intro commands
  induction commands with
  | nil => exact fun q hq => hq
  | cons command rest ih =>
    intro q hq
    refine ih _ ?_
    cases command <;> exact hq

theorem settled_pull (q : Fifo β) (count : Nat) :
    (q.pull count).2.settled.samples = q.settled.samples.drop count := by
  have hnone : (q.pull count).2.commands = [] := q.commands_settled
  rw [settled, hnone]
  rfl

/-- A command that there is room for is obeyed after those before it. -/
theorem settled_push {q : Fifo β} {command : Command β} (h : (q.push command).1 = true) :
    (q.push command).2.settled = q.settled.obey command := by
  rw [push] at h ⊢
  split at h
  · next hroom =>
    rw [if_pos hroom, settled, List.foldl_append]
    rfl
  · cases h

omit [Scalar β] in
theorem push_of_full {q : Fifo β} {command : Command β} (h : (q.push command).1 = false) :
    (q.push command).2 = q := by
  rw [push] at h ⊢
  split at h
  · cases h
  · next hfull => rw [if_neg hfull]

end Fifo

namespace Ledger

variable {β : Type} [Scalar β]

theorem IsBalanced.note {x : Ledger β} {q : Fifo β} (h : x.IsBalanced q) (action : Link.Action β) :
    (x.note q action).IsBalanced (q.act action).2 := by
  cases action with
  | push command =>
    rw [IsBalanced, Fifo.act, Ledger.note]
    cases hroom : (q.push command).1 with
    | false =>
      rw [if_neg Bool.false_ne_true, Fifo.push_of_full hroom]
      exact h
    | true =>
      rw [if_pos rfl, Fifo.settled_push hroom]
      cases command with
      | samples samples =>
        show x.sent ++ samples = x.taken ++ (q.settled.samples ++ samples)
        rw [h, List.append_assoc]
      | stop => rfl
  | pull count =>
    have htaken := List.take_append_drop count q.settled.samples
    rw [IsBalanced, Fifo.act, Ledger.note, Fifo.settled_pull, Fifo.next, List.append_assoc, htaken]
    exact h

theorem isBalanced_ofRun (q : Fifo β) (hq : q.settled.samples = []) (actions : List (Link.Action β)) :
    (ofRun q actions).1 = (Mix.thread Fifo.act actions q).2
      ∧ (ofRun q actions).2.IsBalanced (ofRun q actions).1 := by
  induction actions using List.reverseRecOn with
  | nil => exact ⟨rfl, hq.symm⟩
  | append_singleton actions action ih =>
    obtain ⟨hstate, hbalanced⟩ := ih
    rw [ofRun, List.foldl_append, ← ofRun, Mix.thread_concat, ← hstate]
    exact ⟨rfl, hbalanced.note action⟩

end Ledger

/-! ## Runs -/

namespace Link

variable {β : Type} [Scalar β]

/-- A link answers in every run what a queue of samples with a limiter behind it answers: a pull first
obeys the commands that wait, and then takes the next samples out of the queue and has them limited,
with silence behind them.  The samples that were taken since the last stop, followed by those that are
left, are those that were sent since. -/
theorem answers_of_run (capacity channels : Nat) (limiter : Limiter β) (actions : List (Action β)) :
    let run := Mix.thread act actions (new capacity (Player.new limiter channels))
    let queue := Fifo.new capacity limiter channels
    let ideal := Mix.thread Fifo.act actions queue
    let ledger := (Ledger.ofRun queue actions).2
    run.1 = ideal.1 ∧ run.2.fifo = ideal.2
      ∧ ledger.sent = ledger.taken ++ ideal.2.settled.samples := by
  intro run queue ideal ledger
  have hview : ideal = (run.1, run.2.fifo) :=
    Mix.thread_view act_fifo actions (new capacity (Player.new limiter channels))
  obtain ⟨hstate, hbalanced⟩ := Ledger.isBalanced_ofRun queue rfl actions
  refine ⟨by rw [hview], by rw [hview], ?_⟩
  rw [← hstate]
  exact hbalanced

end Link

end Stave
