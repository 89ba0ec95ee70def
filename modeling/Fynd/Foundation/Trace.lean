import Mathlib.Data.List.Basic

/-!
# Traces of a step function

A trace lists the steps a run takes, each with the state it starts from. An
invariant of the initial state that every listed step keeps holds in every state
the run reaches. When one condition on a step and its starting state decides
whether the step keeps the invariant, the invariant holds along the whole run
exactly when every listed step meets that condition.
-/

namespace Fynd.Foundation

open List

variable {State Step : Type*}

/-- The steps of a run from one state to another, each with its starting state. -/
inductive Trace (step : State → Step → State) : State → List (State × Step) → State → Prop
  | nil (state : State) : Trace step state [] state
  | cons {state final : State} {action : Step} {rest : List (State × Step)} :
      Trace step (step state action) rest final →
        Trace step state ((state, action) :: rest) final

/-- The trace of running a fixed list of steps. -/
def traceFold (step : State → Step → State) : State → List Step → List (State × Step)
  | _, [] => []
  | state, action :: rest => (state, action) :: traceFold step (step state action) rest

namespace Trace

variable {step : State → Step → State} {start middle final : State}
  {first second listed : List (State × Step)}

/-- A fold leaves the trace of its steps. -/
theorem fold (step : State → Step → State) (start : State) (actions : List Step) :
    Trace step start (traceFold step start actions) (actions.foldl step start) := by
  induction actions generalizing start with
  | nil => exact .nil start
  | cons action rest ih => exact .cons (ih (step start action))

theorem step_mem_of_mem_traceFold {entry : State × Step} {actions : List Step}
    (member : entry ∈ traceFold step start actions) : entry.2 ∈ actions := by
  induction actions generalizing start with
  | nil => simp [traceFold] at member
  | cons action rest ih =>
    obtain rfl | later := mem_cons.mp member
    · simp
    · exact mem_cons_of_mem _ (ih later)

theorem length_traceFold (actions : List Step) :
    (traceFold step start actions).length = actions.length := by
  induction actions generalizing start with
  | nil => rfl
  | cons action rest ih => exact congrArg (· + 1) ih

/-- The trace of two runs in a row. -/
theorem traceFold_append (first second : List Step) :
    traceFold step start (first ++ second) =
      traceFold step start first ++ traceFold step (first.foldl step start) second := by
  induction first generalizing start with
  | nil => rfl
  | cons action rest ih => exact congrArg _ ih

theorem mem_traceFold_of_prefix {early actions : List Step} (begins : early <+: actions)
    {entry : State × Step} (member : entry ∈ traceFold step start early) :
    entry ∈ traceFold step start actions := by
  obtain ⟨tail, rfl⟩ := begins
  rw [traceFold_append]
  exact mem_append_left _ member

/-- Two traces in a row are one. -/
theorem append (left : Trace step start first middle) (right : Trace step middle second final) :
    Trace step start (first ++ second) final := by
  induction left with
  | nil => exact right
  | cons _ ih => exact .cons (ih right)

/-- **Invariant rule.** What holds at the start and survives every listed step holds
before and after every listed step, and at the end. -/
theorem invariant (trace : Trace step start listed final) (holds : State → Prop)
    (initial : holds start)
    (kept : ∀ entry ∈ listed, holds entry.1 → holds (step entry.1 entry.2)) :
    (∀ entry ∈ listed, holds entry.1 ∧ holds (step entry.1 entry.2)) ∧ holds final := by
  induction trace with
  | nil => exact ⟨by simp, initial⟩
  | @cons state final action rest _ ih =>
    have next := kept (state, action) (by simp) initial
    obtain ⟨along, ending⟩ := ih next fun entry member => kept entry (mem_cons_of_mem _ member)
    refine ⟨fun entry member => ?_, ending⟩
    obtain rfl | later := mem_cons.mp member
    · exact ⟨initial, next⟩
    · exact along entry later

/-- **Exact condition along a run.** If a condition on each step decides whether the
step keeps what holds before it, then the invariant holds after every listed step
exactly when every listed step meets the condition. -/
theorem invariant_iff {assumed holds : State → Prop} {condition : State → Step → Prop}
    (trace : Trace step start listed final) (initial : holds start)
    (background : ∀ entry ∈ listed, assumed entry.1)
    (decides : ∀ entry ∈ listed, assumed entry.1 → holds entry.1 →
      (holds (step entry.1 entry.2) ↔ condition entry.1 entry.2)) :
    (∀ entry ∈ listed, holds (step entry.1 entry.2)) ↔
      ∀ entry ∈ listed, condition entry.1 entry.2 := by
  induction trace with
  | nil => simp
  | @cons state final action rest _ ih =>
    have here := decides (state, action) (by simp) (background _ (by simp)) initial
    rw [forall_mem_cons, forall_mem_cons, here]
    refine and_congr_right fun met => ?_
    exact ih (here.mpr met) (fun entry member => background entry (mem_cons_of_mem _ member))
      fun entry member => decides entry (mem_cons_of_mem _ member)

end Trace

end Fynd.Foundation
