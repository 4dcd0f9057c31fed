/-
  BehaviorTree.Behaviour.Ordered: nodes that run their children one after the other.

  `inOrder pass` goes on to the next child while children end with `pass`, and ends with
  the first other result. The running child is remembered, and the next tick resumes it.
  A request to return early ends the node with the child's status.
-/

import BehaviorTree.Behaviour.Leaf

namespace BehaviorTree

variable {ρ μ σ : Type}

/-- Abandons the child that was left running. -/
def Cell.resetChild (cell : Cell ρ σ) (children : List (Behaviour ρ μ σ)) (depth : Nat)
    (fire : Bool) : Run ρ μ σ Unit := do
  match ← cell.take depth with
  | .child index => match children[index]? with
    | some child => child.reset depth fire
    | none => throw (.noSuchChild children.length index)
  | _ => pure ()

namespace Behaviour

/-- Ticks the children from the given place on. -/
def inOrderFrom (cell : Cell ρ σ) (pass : Verdict) (depth : Nat) :
    (index : Nat) → List (Behaviour ρ μ σ) → Run ρ μ σ Status
  | _, [] => do
    cell.forget depth
    return pass.status
  | index, child :: rest => do
    let status ← child.tick
    if ← Run.returning then
      cell.forget depth
      return status
    else if status.isRunning then
      cell.keep depth (.child index)
      return .running
    else if status = pass.status then inOrderFrom cell pass depth (index + 1) rest
    else
      cell.forget depth
      return status

/-- Ticks the children in order while they end with `pass`, from the one that was left running. -/
def inOrder (cell : Cell ρ σ) (pass : Verdict) (children : List (Behaviour ρ μ σ)) :
    Behaviour ρ μ σ where
  tick := do
    let depth ← Run.depth
    let start := (← cell.read depth).child?.getD 0
    inOrderFrom cell pass depth start (children.drop start)
  reset := cell.resetChild children

/-- Succeeds when every child does, fails with the first that fails. -/
def sequence (cell : Cell ρ σ) : List (Behaviour ρ μ σ) → Behaviour ρ μ σ := inOrder cell .success

/-- Succeeds with the first child that succeeds, fails when every child does. -/
def selector (cell : Cell ρ σ) : List (Behaviour ρ μ σ) → Behaviour ρ μ σ := inOrder cell .failure

end Behaviour

end BehaviorTree
