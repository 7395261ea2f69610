import Mathlib.Algebra.GroupWithZero.Nat
import Stave.Time.Scheduler

/-!
# Runs of a scheduler

A run starts playing, changes the tempo and plays blocks, in any order.  What leaves a scheduler is
the calls that it makes of its performer; `Performer.recorded` notes them in the state of the
performer, so that a statement about the events that were rendered or noticed is one about that list.
`Scheduler.run_invariant` lifts what one action preserves to whole runs.
-/

namespace Stave

/-! ## Moving the clock -/

namespace Transport

variable {α : Type} [Scalar α] (t : Transport α) (frames : Nat)

theorem start_move : (t.move frames).1.start = t.position := rfl

theorem position_move : (t.move frames).2.position = (t.move frames).1.finish := rfl

theorem framesPlayed_move :
    (t.move frames).2.framesPlayed = (t.framesPlayed + frames) % 2 ^ 64 := by
  show (t.played + UInt64.ofNat frames).toNat = _
  rw [UInt64.toNat_add, UInt64.toNat_ofNat', Nat.add_mod_mod]
  rfl

end Transport

/-! ## Calls -/

/-- A call that a scheduler makes of its performer. -/
inductive Call (α : Type)
  | notice (onset : Onset α)
  | render (event : NoteEvent) (context : Conditions α)

namespace Call

variable {α : Type}

/-- The event that a call has rendered. -/
def rendered? : Call α → Option NoteEvent
  | render event _ => some event
  | notice _ => none

/-- The event that a call has noticed. -/
def noticed? : Call α → Option NoteEvent
  | notice onset => some onset.event
  | render _ _ => none

/-- The calls for one event. -/
def ofOnset (context : Conditions α) (onset : Onset α) : List (Call α) :=
  [notice onset, render onset.event context]

theorem filterMap_rendered?_ofOnset (context : Conditions α) (onsets : List (Onset α)) :
    (onsets.flatMap (ofOnset context)).filterMap rendered? = onsets.map Onset.event := by
  induction onsets with
  | nil => rfl
  | cons onset rest ih =>
    rw [List.flatMap_cons, List.filterMap_append, ih]
    rfl

theorem filterMap_noticed?_ofOnset (context : Conditions α) (onsets : List (Onset α)) :
    (onsets.flatMap (ofOnset context)).filterMap noticed? = onsets.map Onset.event := by
  induction onsets with
  | nil => rfl
  | cons onset rest ih =>
    rw [List.flatMap_cons, List.filterMap_append, ih]
    rfl

end Call

namespace Performer

variable {σ α β : Type}

/-- A performer that notes the calls made of it. -/
def recorded (p : Performer σ α β) : Performer (σ × List (Call α)) α β where
  notice onset x := (p.notice onset x.1, x.2 ++ [.notice onset])
  render event context x :=
    ((p.render event context x.1).1, (p.render event context x.1).2,
      x.2 ++ [.render event context])

theorem perform_cons [Add β] [Zero β] (p : Performer σ α β) (context : Conditions α)
    (onset : Onset α) (rest : List (Onset α)) (sounding : List β) (state : σ) :
    p.perform context (onset :: rest) sounding state
      = p.perform context rest
          (Mix.overlay sounding (Mix.sampleCount onset.frame context.channels)
            (p.render onset.event context (p.notice onset state)).1)
          (p.render onset.event context (p.notice onset state)).2 := rfl

/-- Every event is noticed and then rendered, one after the other. -/
theorem perform_recorded [Add β] [Zero β] (p : Performer σ α β) (context : Conditions α)
    (onsets : List (Onset α)) (sounding : List β) (state : σ) (calls : List (Call α)) :
    p.recorded.perform context onsets sounding (state, calls)
      = ((p.perform context onsets sounding state).1, (p.perform context onsets sounding state).2,
          calls ++ onsets.flatMap (Call.ofOnset context)) := by
  induction onsets generalizing sounding state calls with
  | nil => simp [perform]
  | cons onset rest ih =>
    rw [perform_cons, perform_cons, ih]
    simp [recorded, Call.ofOnset]

end Performer

/-! ## Actions -/

/-- What is done to a scheduler while it plays. -/
inductive Action (α : Type)
  | play
  | setTempo (bpm : α)
  | block

namespace Scheduler

variable {σ α β : Type} [Scalar α]

/-- The window that an action plays, if it is a block and the clock is running. -/
def window? (s : Scheduler α β) : Action α → Option Window
  | .block => (s.transport.advance s.blockSize).1
  | _ => none

theorem window?_of_stopped (s : Scheduler α β) (h : s.transport.playing = false) :
    s.window? .block = none := by
  simp [window?, Transport.advance, h]

theorem window?_of_playing (s : Scheduler α β) (h : s.transport.playing = true) :
    s.window? .block = some (s.transport.move s.blockSize).1 := by
  simp [window?, Transport.advance, h]

variable [Add β] [Zero β]

/-- What an action does to a scheduler and the state of its performer. -/
def act (p : Performer σ α β) (x : Scheduler α β × σ) : Action α → Scheduler α β × σ
  | .play => (x.1.play, x.2)
  | .setTempo bpm => (x.1.setTempo bpm, x.2)
  | .block => (x.1.performBlock p x.2).2

/-- Takes several actions one after the other. -/
def run (p : Performer σ α β) (actions : List (Action α)) (x : Scheduler α β × σ) :
    Scheduler α β × σ :=
  actions.foldl (act p) x

/-- The windows of the blocks of a run. -/
def windows (p : Performer σ α β) : List (Action α) → Scheduler α β × σ → List Window
  | [], _ => []
  | action :: rest, x => (x.1.window? action).toList ++ windows p rest (act p x action)

/-- What every action preserves, given the windows played before it, holds of every run. -/
theorem run_invariant (p : Performer σ α β) (Allowed : Window → Prop)
    (Inv : List Window → Scheduler α β × σ → Prop)
    (step : ∀ played x action, (∀ w ∈ x.1.window? action, Allowed w) → Inv played x →
      Inv (played ++ (x.1.window? action).toList) (act p x action))
    (actions : List (Action α)) (x : Scheduler α β × σ) (initial : Inv [] x)
    (hallowed : ∀ w ∈ windows p actions x, Allowed w) :
    Inv (windows p actions x) (run p actions x) := by
  suffices h : ∀ played, Inv played x → Inv (played ++ windows p actions x) (run p actions x) from
    h [] initial
  clear initial
  induction actions generalizing x with
  | nil =>
    intro played h
    simpa [windows, run] using h
  | cons action rest ih =>
    intro played h
    rw [windows] at hallowed ⊢
    rw [run, List.foldl_cons, ← List.append_assoc]
    have hfirst : ∀ w ∈ x.1.window? action, Allowed w := fun w hw =>
      hallowed w (List.mem_append_left _ (Option.mem_toList.mpr hw))
    exact ih (act p x action) (fun w hw => hallowed w (List.mem_append_right _ hw)) _
      (step played x action hfirst h)

/-! ## Blocks -/

theorem performBlock_of_stopped (s : Scheduler α β) (p : Performer σ α β) (state : σ)
    (h : s.transport.playing = false) : s.performBlock p state = (none, s, state) := by
  simp [performBlock, Transport.advance, h]

/-- The events of the next block of a playing scheduler, and the timeline and clock behind it. -/
def dueNext (s : Scheduler α β) : List (NoteEvent × Ticks) × Timeline × Transport α :=
  { s with transport := (s.transport.move s.blockSize).2 }.due (s.transport.move s.blockSize).1

/-- A block moves timeline and clock behind its events, and the calls for them are added to those
made before. -/
theorem performBlock_recorded (s : Scheduler α β) (p : Performer σ α β) (state : σ)
    (calls : List (Call α)) (h : s.transport.playing = true) :
    ∃ context tail after,
      (s.performBlock p.recorded (state, calls)).2
        = ({ s with timeline := s.dueNext.2.1, transport := s.dueNext.2.2, tail }, after,
            calls ++ ((s.transport.move s.blockSize).1.onsets context s.dueNext.1).flatMap
              (Call.ofOnset context)) := by
  simp only [performBlock, Transport.advance, h, if_true, Performer.perform_recorded, dueNext]
  exact ⟨_, _, _, rfl⟩

end Scheduler

/-! ## Windows -/

namespace Window

/-- Whether the count of ticks has not wrapped around in a window. -/
def IsForward (w : Window) : Prop := w.start ≤ w.finish

instance (w : Window) : Decidable w.IsForward := inferInstanceAs (Decidable (w.start ≤ w.finish))

/-- The ticks that a window covers. -/
def ticks (w : Window) : Nat := w.finish.toNat - w.start.toNat

theorem map_event_onsets {α : Type} [Scalar α] (w : Window) (context : Conditions α)
    (events : List (NoteEvent × Ticks)) :
    (w.onsets context events).map Onset.event = events.map Prod.fst := by
  simp [onsets, Function.comp_def]

end Window

end Stave
