/-
  BehaviorTree.Behaviour.Choice: a node that runs one of its children.

  The child is chosen at the start of a run and kept until the run ends. Whoever chooses
  outlives the runs, and is told when the chosen child is done.
-/

import BehaviorTree.Behaviour.Ordered

namespace BehaviorTree

/-- Whoever chooses a child. -/
structure Chooser (ρ μ σ : Type) where
  /-- The child to run among `count`, if there is one to run. -/
  pick : (count : Nat) → Run ρ μ σ (Option Nat)
  /-- The chosen child is done. -/
  complete : (index : Nat) → Run ρ μ σ Unit

variable {ρ μ σ : Type}

namespace Behaviour

/-- The child of the run in progress, or else a new choice. -/
def choose (cell : Cell ρ σ) (chooser : Chooser ρ μ σ) (count depth : Nat) :
    Run ρ μ σ (Option Nat) := do
  match (← cell.read depth).child? with
  | some index => return some index
  | none => chooser.pick count

/-- Ticks the chosen child. -/
def tickChosen (cell : Cell ρ σ) (chooser : Chooser ρ μ σ) (children : List (Behaviour ρ μ σ))
    (depth index : Nat) : Run ρ μ σ Status := do
  match children[index]? with
  | none => throw (.noSuchChild children.length index)
  | some child =>
    let status ← child.tick
    if status.isRunning then
      cell.keep depth (.child index)
    else
      cell.forget depth
      chooser.complete index
    return status

/-- Runs one child per run, and fails when none is chosen. -/
def selectOne (cell : Cell ρ σ) (chooser : Chooser ρ μ σ) (children : List (Behaviour ρ μ σ)) :
    Behaviour ρ μ σ where
  tick := do
    let depth ← Run.depth
    match ← choose cell chooser children.length depth with
    | some index => tickChosen cell chooser children depth index
    | none => return .failure
  reset := cell.resetChild children

end Behaviour

end BehaviorTree
