import Mathlib.Algebra.GroupWithZero.Nat
import Mathlib.Algebra.Order.BigOperators.Group.List
import Mathlib.Algebra.Order.Group.Nat
import Stave.Output.Link

/-!
# The counter of what waits

A program and a player take their steps on a link in any order; what the player does with a buffer is
broken up into the commands that it sees and the samples that it then plays.  Whatever the order, the
counter that both share is the number of samples in the queue and of those that the player has not
played, and of those that are being sent.  So it never has less than what is subtracted from it.
-/

namespace Stave.Link

variable {β : Type}

/-- How many samples a command brings. -/
def samplesIn : Command β → Nat
  | .samples samples => samples.length
  | .stop => 0

/-- The samples in the queue. -/
def queued (l : Link β) : Nat := (l.queue.map samplesIn).sum

/-- The samples that are counted but not yet in the queue. -/
def inFlight (l : Link β) : Nat := (l.departing.getD []).length

variable [Scalar β]

/-- The links that a program and a player bring about together.  The program sends one buffer at a
time: it counts the samples and then puts them into the queue, or finds the queue full and counts them
back.  The player sees commands and plays samples. -/
inductive Reached (capacity channels : Nat) (limiter : Limiter β) : Link β → Prop
  | new : Reached capacity channels limiter (Link.new capacity (Player.new limiter channels))
  | announce {l : Link β} (h : Reached capacity channels limiter l) (samples : List β)
      (hidle : l.departing = none) : Reached capacity channels limiter (l.announce samples)
  | deliver {l : Link β} (h : Reached capacity channels limiter l) :
      Reached capacity channels limiter l.deliver.2
  | countBack {l : Link β} (h : Reached capacity channels limiter l) :
      Reached capacity channels limiter l.countBack
  | halt {l : Link β} (h : Reached capacity channels limiter l) :
      Reached capacity channels limiter l.halt.2
  | see {l : Link β} (h : Reached capacity channels limiter l) : Reached capacity channels limiter l.see
  | sound {l : Link β} (h : Reached capacity channels limiter l) (count : Nat) :
      Reached capacity channels limiter (l.sound count).2

/-- A pull is made of such steps. -/
theorem Reached.pull {capacity channels : Nat} {limiter : Limiter β} {l : Link β}
    (h : Reached capacity channels limiter l) (count : Nat) :
    Reached capacity channels limiter (l.pull count).2 := by
  suffices hsee : ∀ commands : List (Command β),
      Reached capacity channels limiter (commands.foldl (fun l _ => l.see) l) from
    (hsee l.queue).sound count
  intro commands
  induction commands generalizing l with
  | nil => exact h
  | cons command rest ih => exact ih h.see

/-! ## The player -/

omit [Scalar β] in
theorem waiting_compact (p : Player β) : p.compact.waiting = p.waiting := by
  rw [Player.compact]
  split
  · rfl
  · simp [Player.waiting]

/-- What a command brings is waiting or was dropped. -/
theorem waiting_obey (p : Player β) (command : Command β) :
    (p.obey command).2.waiting + (p.obey command).1 = p.waiting + samplesIn command := by
  have hle := p.played_le
  cases command with
  | samples samples =>
    simp only [Player.obey, Player.waiting, samplesIn, Array.size_append, List.size_toArray]
    omega
  | stop => simp [Player.obey, Player.waiting, samplesIn]

theorem dropped_le (p : Player β) (command : Command β) : (p.obey command).1 ≤ p.waiting := by
  cases command with
  | samples samples => exact Nat.zero_le _
  | stop => exact Nat.le_refl _

theorem taken_le (p : Player β) (count : Nat) : (p.play count).2.1 ≤ p.waiting := Nat.min_le_right ..

/-- What was waiting is waiting still or was taken. -/
theorem waiting_play (p : Player β) (count : Nat) :
    (p.play count).2.2.waiting + (p.play count).2.1 = p.waiting := by
  have hle := p.played_le
  simp only [Player.play, waiting_compact]
  simp only [Player.waiting]
  omega

/-! ## Steps -/

/-- Whether the counter is what is on its way to be played. -/
def IsCounted (l : Link β) : Prop := l.counter = l.queued + l.player.waiting + l.inFlight

section Program

omit [Scalar β]

theorem IsCounted.announce {l : Link β} (h : l.IsCounted) (samples : List β)
    (hidle : l.departing = none) : (l.announce samples).IsCounted := by
  have hnone : l.inFlight = 0 := by rw [inFlight, hidle]; rfl
  rw [IsCounted, hnone] at h
  show l.counter + samples.length = l.queued + l.player.waiting + samples.length
  omega

theorem IsCounted.countBack {l : Link β} (h : l.IsCounted) : l.countBack.IsCounted := by
  rw [IsCounted] at h
  show l.counter - l.inFlight = l.queued + l.player.waiting + 0
  omega

theorem queued_concat (l : Link β) (command : Command β) :
    queued { l with queue := l.queue ++ [command] } = l.queued + samplesIn command := by
  simp [queued]

theorem IsCounted.deliver {l : Link β} (h : l.IsCounted) : l.deliver.2.IsCounted := by
  rw [Link.deliver]
  split
  · exact h
  · next samples hdeparting =>
    rw [push]
    by_cases hroom : l.queue.length < l.capacity
    · have hflight : l.inFlight = samples.length := by rw [inFlight, hdeparting]; rfl
      have hqueued := l.queued_concat (.samples samples)
      rw [IsCounted, hflight] at h
      rw [if_pos hroom]
      show l.counter = queued { l with queue := l.queue ++ [.samples samples] } + l.player.waiting + 0
      rw [hqueued, samplesIn]
      omega
    · rw [if_neg hroom]
      exact h.countBack

theorem IsCounted.halt {l : Link β} (h : l.IsCounted) : l.halt.2.IsCounted := by
  rw [Link.halt, push]
  split
  · have hqueued := l.queued_concat .stop
    show l.counter = queued { l with queue := l.queue ++ [.stop] } + l.player.waiting + l.inFlight
    rw [hqueued, h, samplesIn, Nat.add_zero]
  · exact h

end Program

omit [Scalar β] in
theorem queued_cons {l : Link β} {command : Command β} {rest : List (Command β)}
    (h : l.queue = command :: rest) : l.queued = samplesIn command + (rest.map samplesIn).sum := by
  rw [queued, h, List.map_cons, List.sum_cons]

theorem IsCounted.see {l : Link β} (h : l.IsCounted) : l.see.IsCounted := by
  rw [Link.see]
  split
  · exact h
  · next command rest hqueue =>
    have hobey := waiting_obey l.player command
    have hdropped := dropped_le l.player command
    rw [IsCounted, queued_cons hqueue] at h
    show l.counter - (l.player.obey command).1
      = (rest.map samplesIn).sum + (l.player.obey command).2.waiting + l.inFlight
    omega

theorem IsCounted.sound {l : Link β} (h : l.IsCounted) (count : Nat) :
    (l.sound count).2.IsCounted := by
  have hplay := waiting_play l.player count
  rw [IsCounted] at h
  show l.counter - (l.player.play count).2.1
    = l.queued + (l.player.play count).2.2.waiting + l.inFlight
  omega

theorem Reached.isCounted {capacity channels : Nat} {limiter : Limiter β} {l : Link β}
    (h : Reached capacity channels limiter l) : l.IsCounted := by
  induction h with
  | new => rfl
  | announce _ samples hidle ih => exact ih.announce samples hidle
  | deliver _ ih => exact ih.deliver
  | countBack _ ih => exact ih.countBack
  | halt _ ih => exact ih.halt
  | see _ ih => exact ih.see
  | sound _ count ih => exact ih.sound count

/-! ## The counter -/

/-- Whether no sample is left to be played, wherever it may be. -/
structure IsSilent (l : Link β) : Prop where
  queue : ∀ samples, .samples samples ∈ l.queue → samples = []
  player : l.player.waiting = 0
  departing : ∀ samples ∈ l.departing, samples = []

omit [Scalar β] in
theorem queued_eq_zero_iff (l : Link β) :
    l.queued = 0 ↔ ∀ samples, .samples samples ∈ l.queue → samples = [] := by
  rw [queued, List.sum_eq_zero_iff, List.forall_mem_map]
  constructor
  · intro h samples hmem
    exact List.length_eq_zero_iff.mp (h _ hmem)
  · intro h command hmem
    cases command with
    | samples samples => exact List.length_eq_zero_iff.mpr (h samples hmem)
    | stop => rfl

omit [Scalar β] in
theorem inFlight_eq_zero_iff (l : Link β) :
    l.inFlight = 0 ↔ ∀ samples ∈ l.departing, samples = [] := by
  cases h : l.departing <;> simp [inFlight, h]

/-- In whatever order the steps are taken, the counter is the number of samples in the queue and in the
player, and of those that are between the two steps of being sent.  It is never less than what is
subtracted from it next, and it is zero exactly when nothing is left to be played. -/
theorem counter_of_reached {capacity channels : Nat} {limiter : Limiter β} {l : Link β}
    (h : Reached capacity channels limiter l) :
    (l.departing = none → l.counter = l.queued + l.player.waiting)
      ∧ (∀ samples ∈ l.departing,
          l.counter = l.queued + l.player.waiting + samples.length ∧ samples.length ≤ l.counter)
      ∧ (∀ command ∈ l.queue.head?, (l.player.obey command).1 ≤ l.counter)
      ∧ (∀ count, (l.player.play count).2.1 ≤ l.counter)
      ∧ (l.counter = 0 ↔ l.IsSilent)
      ∧ ∀ count, Reached capacity channels limiter (l.pull count).2 := by
  have hcounted : l.counter = l.queued + l.player.waiting + l.inFlight := h.isCounted
  refine ⟨fun hidle => ?_, fun samples hsamples => ?_, fun command _ => ?_, fun count => ?_, ?_, h.pull⟩
  · rw [hcounted, inFlight, hidle]
    rfl
  · have hflight : l.inFlight = samples.length := by rw [inFlight, Option.mem_def.mp hsamples]; rfl
    omega
  · have := dropped_le l.player command
    omega
  · have := taken_le l.player count
    omega
  · constructor
    · intro hzero
      exact ⟨l.queued_eq_zero_iff.mp (by omega), by omega, l.inFlight_eq_zero_iff.mp (by omega)⟩
    · intro hsilent
      have hqueued := l.queued_eq_zero_iff.mpr hsilent.queue
      have hflight := l.inFlight_eq_zero_iff.mpr hsilent.departing
      have hplayer := hsilent.player
      omega

/-- Three samples are sent and one of them is played; two more are counted, with room for them in the
queue, when the player has been stopped but has not seen it. -/
theorem counter_of_reached_between_steps :
    let limiter := Limiter.standard 48000
    let start : Link Float32 := new 2 (Player.new limiter 1)
    let l := (((start.announce [1, 2, 3]).deliver.2.pull 1).2.halt.2.announce [4, 5])
    Reached 2 1 limiter l ∧ l.departing = some [4, 5] ∧ l.counter = 4 ∧ l.player.waiting = 2
      ∧ l.counter = l.queued + l.player.waiting + 2
      ∧ (∀ command ∈ l.queue.head?, (l.player.obey command).1 ≤ l.counter)
      ∧ (∀ count, (l.player.play count).2.1 ≤ l.counter) ∧ (l.counter = 0 ↔ l.IsSilent) := by
  intro limiter start l
  have hreached : Reached 2 1 limiter l :=
    (((Reached.new.announce [1, 2, 3] rfl).deliver.pull 1).halt.announce [4, 5] rfl)
  obtain ⟨-, hbetween, hdropped, htaken, hzero, -⟩ := counter_of_reached hreached
  exact ⟨hreached, rfl, rfl, rfl, (hbetween [4, 5] rfl).1, hdropped, htaken, hzero⟩

end Stave.Link
