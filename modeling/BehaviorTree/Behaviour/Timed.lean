/-
  BehaviorTree.Behaviour.Timed: nodes that bound or put off the run of one child.

  Time is the sum of the deltas of the run's ticks, starting from zero.
-/

import BehaviorTree.Behaviour.Leaf

namespace BehaviorTree.Behaviour

variable {ρ μ σ : Type}

/-- Fails, and abandons the child, when the child is still running once the duration has passed. The
child is ticked first, so that an end on the last tick counts. -/
def timeout (cell : Cell ρ σ) (duration : Duration) (child : Behaviour ρ μ σ) :
    Behaviour ρ μ σ where
  tick := do
    let depth ← Run.depth
    let time := (← cell.read depth).time + (← Run.delta)
    let status ← child.tick
    if status.isTerminal then
      cell.forget depth
      return status
    else if duration.length ≤ time then
      cell.forget depth
      child.reset depth true
      return .failure
    else
      cell.keep depth (.elapsed time)
      return .running
  reset depth fire := do
    match ← cell.take depth with
    | .elapsed _ => child.reset depth fire
    | _ => pure ()

/-- The waiting time is over, or is now: the time of the tick is added up and kept. -/
def release (cell : Cell ρ σ) (duration : Duration) (depth : Nat) : Run ρ μ σ Bool := do
  match ← cell.read depth with
  | .released => return true
  | slot =>
    let time := slot.time + (← Run.delta)
    let passed := decide (duration.length ≤ time)
    cell.keep depth (if passed then .released else .elapsed time)
    return passed

/-- Running until the duration has passed, and the child from then on. -/
def delay (cell : Cell ρ σ) (duration : Duration) (child : Behaviour ρ μ σ) :
    Behaviour ρ μ σ where
  tick := do
    let depth ← Run.depth
    if ← release cell duration depth then
      let status ← child.tick
      if status.isTerminal then cell.forget depth
      return status
    else return .running
  reset depth fire := do
    match ← cell.take depth with
    | .released => child.reset depth fire
    | _ => pure ()

end BehaviorTree.Behaviour
