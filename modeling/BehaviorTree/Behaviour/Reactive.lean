/-
  BehaviorTree.Behaviour.Reactive: nodes that look at every child again on each tick.

  Like the nodes that run their children in order, but each tick starts from the first
  child. A child that was left running is abandoned as soon as the tick ends at a child
  before it.
-/

import BehaviorTree.Behaviour.Ordered

namespace BehaviorTree

variable {ρ μ σ : Type}

/-- Forgets the child that was left running, and abandons it if it comes after `current`. -/
def Cell.preempt (cell : Cell ρ σ) (children : List (Behaviour ρ μ σ)) (depth current : Nat) :
    Run ρ μ σ Unit := do
  match ← cell.take depth with
  | .child index =>
    if current < index then
      match children[index]? with
      | some child => child.reset depth true
      | none => throw (.noSuchChild children.length index)
  | _ => pure ()

namespace Behaviour

/-- Ticks the children from the given place on. -/
def reactiveFrom (cell : Cell ρ σ) (pass : Verdict) (children : List (Behaviour ρ μ σ))
    (depth : Nat) : (index : Nat) → List (Behaviour ρ μ σ) → Run ρ μ σ Status
  | _, [] => do
    cell.forget depth
    return pass.status
  | index, child :: rest => do
    let status ← child.tick
    if ← Run.returning then
      cell.preempt children depth index
      return status
    else if status = pass.status then reactiveFrom cell pass children depth (index + 1) rest
    else
      cell.preempt children depth index
      if status.isRunning then cell.keep depth (.child index)
      return status

/-- Ticks the children in order while they end with `pass`, always from the first. -/
def reactive (cell : Cell ρ σ) (pass : Verdict) (children : List (Behaviour ρ μ σ)) :
    Behaviour ρ μ σ where
  tick := do
    let depth ← Run.depth
    reactiveFrom cell pass children depth 0 children
  reset := cell.resetChild children

/-- A sequence that looks at its earlier children again on each tick. -/
def reactiveSequence (cell : Cell ρ σ) : List (Behaviour ρ μ σ) → Behaviour ρ μ σ :=
  reactive cell .success

/-- A selector that looks at its earlier children again on each tick. -/
def reactiveSelector (cell : Cell ρ σ) : List (Behaviour ρ μ σ) → Behaviour ρ μ σ :=
  reactive cell .failure

end Behaviour

end BehaviorTree
