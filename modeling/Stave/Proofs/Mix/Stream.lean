import Mathlib.Data.List.Induction
import Stave.Mix.Stream

/-!
# What a machine makes

A machine that is fed another item makes one more thing, from the state in which the items before have
left it.  A machine that answers every item as another one does, seen through a view of its states,
makes the same of all items.
-/

namespace Stave.Mix

variable {σ β : Type}

theorem thread_concat {α : Type} (step : σ → α → β × σ) (items : List α) (item : α) (start : σ) :
    thread step (items ++ [item]) start
      = ((thread step items start).1 ++ [(step (thread step items start).2 item).1],
          (step (thread step items start).2 item).2) := by
  simp only [thread, List.foldl_append, List.foldl_cons, List.foldl_nil, Array.toList_push]

theorem thread_cons {α : Type} (step : σ → α → β × σ) (item : α) (items : List α) (start : σ) :
    thread step (item :: items) start
      = ((step start item).1 :: (thread step items (step start item).2).1,
          (thread step items (step start item).2).2) := by
  induction items using List.reverseRecOn with
  | nil => rfl
  | append_singleton items last ih =>
    rw [← List.cons_append, thread_concat, thread_concat, ih, List.cons_append]

/-- More items are fed to the machine as the items before have left it. -/
theorem thread_append {α : Type} (step : σ → α → β × σ) (items more : List α) (start : σ) :
    thread step (items ++ more) start
      = ((thread step items start).1 ++ (thread step more (thread step items start).2).1,
          (thread step more (thread step items start).2).2) := by
  induction more using List.reverseRecOn with
  | nil => simp [thread]
  | append_singleton more item ih =>
    rw [← List.append_assoc, thread_concat, ih, thread_concat, List.append_assoc]

/-- One thing is made of each item. -/
theorem length_thread {α : Type} (step : σ → α → β × σ) (items : List α) (start : σ) :
    (thread step items start).1.length = items.length := by
  induction items using List.reverseRecOn with
  | nil => rfl
  | append_singleton items item ih =>
    rw [thread_concat, List.length_append, List.length_append, ih]
    rfl

theorem length_generate (step : σ → Nat → β × σ) (count : Nat) (start : σ) :
    (generate step count start).length = count := by
  rw [generate, run, length_thread, List.length_range]

/-- What holds of one step seen through a view of the states holds of all. -/
theorem thread_view {α τ : Type} {step : σ → α → β × σ} {seen : τ → α → β × τ} {view : σ → τ}
    (h : ∀ state item, seen (view state) item = ((step state item).1, view (step state item).2))
    (items : List α) (start : σ) :
    thread seen items (view start)
      = ((thread step items start).1, view (thread step items start).2) := by
  induction items using List.reverseRecOn with
  | nil => rfl
  | append_singleton items item ih =>
    rw [thread_concat, thread_concat, ih, h]

theorem run_succ (step : σ → Nat → β × σ) (count : Nat) (start : σ) :
    run step (count + 1) start
      = ((run step count start).1 ++ [(step (run step count start).2 count).1],
          (step (run step count start).2 count).2) := by
  rw [run, List.range_succ, thread_concat]
  rfl

end Stave.Mix
