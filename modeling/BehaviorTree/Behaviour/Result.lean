/-
  BehaviorTree.Behaviour.Result: nodes that change or withhold the result of one child.

  Each remembers whether it left its child running, so that a reset reaches the child
  exactly then.
-/

import BehaviorTree.Behaviour.Leaf

namespace BehaviorTree

variable {ρ μ σ : Type}

namespace Cell

/-- Remembers whether the child was left running. -/
def note (cell : Cell ρ σ) (depth : Nat) (status : Status) : Run ρ μ σ Unit :=
  cell.keep depth (if status.isRunning then .started else .idle)

/-- Abandons the child if it was left running. -/
def resetStarted (cell : Cell ρ σ) (child : Behaviour ρ μ σ) (depth : Nat) (fire : Bool) :
    Run ρ μ σ Unit := do
  match ← cell.read depth with
  | .started =>
    cell.forget depth
    child.reset depth fire
  | _ => pure ()

end Cell

namespace Behaviour

/-- Swaps success and failure. -/
def invert (cell : Cell ρ σ) (child : Behaviour ρ μ σ) : Behaviour ρ μ σ where
  tick := do
    let status ← child.tick
    cell.note (← Run.depth) status
    return status.invert
  reset := cell.resetStarted child

/-- Ends with the given verdict, whatever the child ends with. -/
def force (cell : Cell ρ σ) (verdict : Verdict) (child : Behaviour ρ μ σ) : Behaviour ρ μ σ where
  tick := do
    let status ← child.tick
    cell.note (← Run.depth) status
    return if status.isRunning then .running else verdict.status
  reset := cell.resetStarted child

/-- The child may be ticked: its run is in progress, or the predicate holds. -/
def admits (cell : Cell ρ σ) (holds : Predicate μ σ) (depth : Nat) : Run ρ μ σ Bool := do
  match ← cell.read depth with
  | .started => return true
  | _ => Run.test holds

/-- Runs the child only if the predicate holds at the start of the run. -/
def guard (cell : Cell ρ σ) (holds : Predicate μ σ) (child : Behaviour ρ μ σ) :
    Behaviour ρ μ σ where
  tick := do
    let depth ← Run.depth
    if ← admits cell holds depth then
      let status ← child.tick
      cell.note depth status
      return status
    else return .failure
  reset := cell.resetStarted child

end Behaviour

end BehaviorTree
