/-
  BehaviorTree.Behaviour.Call: a node that runs another tree.

  The tree is looked up at the start of a run and kept until the run ends, and so is the
  state made for it. Each tick enters the tree one call level deeper, if the recursion
  guard admits it. A request to return early that the tree does not consume goes on to the
  caller.
-/

import BehaviorTree.Behaviour.Leaf

namespace BehaviorTree

/-- A tree as its callers see it. -/
structure Callee (ρ μ σ : Type) where
  name : String
  root : Behaviour ρ μ σ

/-- Makes the state for a called tree from the caller's state. -/
abbrev StateMaker (μ σ : Type) := Option σ → μ → σ × μ

variable {ρ μ σ : Type}

namespace Run

/-- Runs an action with another state, and puts the caller's state back afterwards. -/
def withState {α : Type} (state : Option σ) (action : Run ρ μ σ α) : Run ρ μ σ α := do
  let before := (← Run.context).state
  Run.onContext ({ · with state })
  let result ← action
  Run.onContext ({ · with state := before })
  return result

/-- The recursion guard refused a call: the refusal is reported, traced and kept. -/
def refuse (o : Overflow) : Run ρ μ σ Unit := do
  Run.report (.refused o)
  Run.trace Tag.subtreeOverflow (UInt64.ofNat o.depth) (UInt64.ofNat o.limit)
  Run.onContext (·.recordOverflow o)

end Run

namespace Behaviour

/-- The state made for a called tree, if the call makes one. -/
def stateFor : Option (StateMaker μ σ) → Run ρ μ σ (Option σ)
  | none => return none
  | some make => do
    let caller := (← Run.context).state
    some <$> Run.consult (make caller)

/-- The tree to run and the state made for it: those of the run in progress, or else a tree looked
up afresh, with `true`, and kept. -/
def callTarget (cell : Cell ρ σ) (resolve : Run ρ μ σ (Option TreeId))
    (makeState : Option (StateMaker μ σ)) (depth : Nat) :
    Run ρ μ σ (Option (TreeId × Option σ × Bool)) := do
  match ← cell.read depth with
  | .call tree state => return some (tree, state, false)
  | _ =>
    match ← resolve with
    | none =>
      Run.report (.noTree depth)
      return none
    | some tree =>
      let state ← stateFor makeState
      cell.keep depth (.call tree state)
      return some (tree, state, true)

/-- Tells that a tree is entered, at the start of its run. -/
def announceCall (name : String) (fresh : Bool) (depth : Nat) : Run ρ μ σ Unit := do
  if fresh then
    Run.report (.entering name (depth + 1))
    Run.trace Tag.subtreeEnter (UInt64.ofNat (depth + 1)) 0

/-- Ends the run if its result is terminal. -/
def finishCall (cell : Cell ρ σ) (name : String) (depth : Nat) (status : Status) :
    Run ρ μ σ Unit := do
  if status.isTerminal then
    Run.report (.finished name (depth + 1) status)
    Run.trace Tag.subtreeExit (UInt64.ofNat (depth + 1)) status.code
    cell.forget depth

/-- Ticks a tree that has just been entered, and leaves it. -/
def runCallee (cell : Cell ρ σ) (callee : Callee ρ μ σ) (ownState fresh : Bool) (state : Option σ)
    (depth : Nat) : Run ρ μ σ Status := do
  announceCall callee.name fresh depth
  let status ← if ownState then Run.withState state callee.root.tick else callee.root.tick
  Run.onContext (·.leave)
  finishCall cell callee.name depth status
  return status

/-- Runs the tree that `resolve` finds. -/
def call (cell : Cell ρ σ) (resolve : Run ρ μ σ (Option TreeId))
    (makeState : Option (StateMaker μ σ)) (callee : TreeId → Callee ρ μ σ) :
    Behaviour ρ μ σ where
  tick := do
    let depth ← Run.depth
    match ← callTarget cell resolve makeState depth with
    | none => return .failure
    | some (tree, state, fresh) =>
      match ← Run.enter (callee tree).name with
      | some o =>
        Run.refuse o
        cell.forget depth
        return .failure
      | none => runCallee cell (callee tree) makeState.isSome fresh state depth
  reset depth fire := do
    match ← cell.take depth with
    | .call tree _ => (callee tree).root.reset (depth + 1) fire
    | _ => pure ()

end Behaviour

end BehaviorTree
