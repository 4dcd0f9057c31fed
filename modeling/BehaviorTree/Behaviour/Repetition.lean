/-
  BehaviorTree.Behaviour.Repetition: nodes that run one child again and again.

  A tick runs the child once at most, and between two iterations the node is running. A
  request to return early ends the node with the child's status.
-/

import BehaviorTree.Behaviour.Result

namespace BehaviorTree

variable {ρ μ σ : Type}

/-- Abandons the child if an iteration was left running; the count is forgotten in any case. -/
def Cell.resetIteration (cell : Cell ρ σ) (child : Behaviour ρ μ σ) (depth : Nat) (fire : Bool) :
    Run ρ μ σ Unit := do
  match ← cell.take depth with
  | .iterations _ true => child.reset depth fire
  | _ => pure ()

namespace Behaviour

/-- Ticks the child `goal` times at most, until an iteration ends with something other than `goOn`.
`spent` says whether so many iterations are enough. -/
def iterate (cell : Cell ρ σ) (goOn : Verdict) (spent : UInt32 → Bool) (child : Behaviour ρ μ σ) :
    Behaviour ρ μ σ where
  tick := do
    let depth ← Run.depth
    let status ← child.tick
    if ← Run.returning then
      cell.forget depth
      return status
    if status.isRunning then
      cell.keep depth (.iterations (← cell.read depth).count true)
      return .running
    if status ≠ goOn.status then
      cell.forget depth
      return status
    let count := (← cell.read depth).count + 1
    if spent count then
      cell.forget depth
      return status
    cell.keep depth (.iterations count false)
    return .running
  reset := cell.resetIteration child

/-- Runs the child until it fails, at most `count` times. -/
def repeatTimes (cell : Cell ρ σ) (count : UInt32) (child : Behaviour ρ μ σ) : Behaviour ρ μ σ :=
  iterate cell .success (count ≤ ·) child

/-- Runs the child until it succeeds, at most `retries` times more than once. -/
def retry (cell : Cell ρ σ) (retries : UInt32) (child : Behaviour ρ μ σ) : Behaviour ρ μ σ :=
  iterate cell .failure (retries < ·) child

/-- Runs the child until it ends with `target`, and succeeds then. -/
def repeatUntil (cell : Cell ρ σ) (target : Verdict) (child : Behaviour ρ μ σ) :
    Behaviour ρ μ σ where
  tick := do
    let status ← child.tick
    cell.note (← Run.depth) status
    if ← Run.returning then return status
    return if status = target.status then .success else .running
  reset := cell.resetStarted child

end Behaviour

end BehaviorTree
