/-
  BehaviorTree.Behaviour.Concurrent: nodes that run their children side by side.

  Each tick visits the children in order. `parallel` stops as soon as its policy is
  decided, `race` at the first child that ends, `join` only when all have ended; a request
  to return early stops all three. Children that are running when the node stops are
  abandoned.
-/

import BehaviorTree.Behaviour.Leaf

namespace BehaviorTree

/-- What makes a parallel node succeed. -/
inductive ParallelPolicy where
  /-- Every child succeeds; one failure is enough to fail. -/
  | all
  /-- One child succeeds; it takes every child to fail. -/
  | one
  deriving DecidableEq

/-- The result of a single child that decides the node. -/
def ParallelPolicy.decisive : ParallelPolicy → Verdict
  | all => .failure
  | one => .success

/-- What makes a join succeed, once all its children have ended. -/
inductive JoinPolicy where
  | all
  | any
  deriving DecidableEq

/-- The policy is met by `succeeded` successes out of `count`. -/
def JoinPolicy.met : JoinPolicy → (succeeded count : Nat) → Bool
  | all, succeeded, count => succeeded = count
  | any, succeeded, _ => 0 < succeeded

/-- The answer of a join whose children have all ended. -/
def JoinPolicy.result (policy : JoinPolicy) (states : List ChildState) : Status :=
  .ofBool (policy.met (states.count (.finished .success)) states.length)

/-- What a tick of the child leaves. -/
def ChildState.after (s : Status) : ChildState := if s.isRunning then .running else .finished s

variable {ρ μ σ : Type}

namespace Behaviour

/-- A child and what is remembered of it. -/
abbrev Tracked (ρ μ σ : Type) := Behaviour ρ μ σ × ChildState

/-- Abandons the children that are running. -/
def abort (depth : Nat) (fire : Bool) : List (Tracked ρ μ σ) → Run ρ μ σ Unit
  | [] => pure ()
  | (child, .running) :: rest => do
    child.reset depth fire
    abort depth fire rest
  | _ :: rest => abort depth fire rest

/-- Abandons the children that were left running. -/
def resetTracked (cell : Cell ρ σ) (children : List (Behaviour ρ μ σ)) (depth : Nat)
    (fire : Bool) : Run ρ μ σ Unit := do
  match ← cell.take depth with
  | .children states => abort depth fire (children.zip states)
  | _ => pure ()

/-- Keeps the states if a child is running. -/
def keepRunning (cell : Cell ρ σ) (depth : Nat) (states : List ChildState)
    (otherwise : Status) : Run ρ μ σ Status := do
  if ChildState.running ∈ states then
    cell.keep depth (.children states)
    return .running
  else return otherwise

/-- Ticks each child that has not ended, until `stop` holds of a result or a return is requested:
then the running children are abandoned and the result is the answer. Otherwise the answer is what
is now known of the children. `seen` are the children visited so far. -/
def visit (stop : Status → Bool) (depth : Nat) (seen : List (Tracked ρ μ σ)) :
    List (Tracked ρ μ σ) → Run ρ μ σ (Status ⊕ List ChildState)
  | [] => return .inr (seen.map (·.2))
  | (child, .finished s) :: rest => visit stop depth (seen ++ [(child, .finished s)]) rest
  | (child, _) :: rest => do
    let status ← child.tick
    let seen := seen ++ [(child, ChildState.after status)]
    if (← Run.returning) || stop status then
      abort depth true (seen ++ rest)
      return .inl status
    else visit stop depth seen rest

/-- Visits the children and goes on with those that are running. `otherwise` is the answer when none
is. -/
def visitAll (cell : Cell ρ σ) (stop : Status → Bool) (otherwise : List ChildState → Status)
    (children : List (Behaviour ρ μ σ)) : Run ρ μ σ Status := do
  let depth ← Run.depth
  let states := (← cell.take depth).childStates children.length
  match ← visit stop depth [] (children.zip states) with
  | .inl status => return status
  | .inr states => keepRunning cell depth states (otherwise states)

/-- Ticks every child that has not ended, and ends when the policy is decided. -/
def parallel (cell : Cell ρ σ) (policy : ParallelPolicy) (children : List (Behaviour ρ μ σ)) :
    Behaviour ρ μ σ where
  tick := visitAll cell (· = policy.decisive.status) (fun _ => policy.decisive.flip.status) children
  reset := resetTracked cell children

/-- Ticks every child that has not ended, and ends when all have. -/
def join (cell : Cell ρ σ) (policy : JoinPolicy) (children : List (Behaviour ρ μ σ)) :
    Behaviour ρ μ σ where
  tick := visitAll cell (fun _ => false) policy.result children
  reset := resetTracked cell children

/-- Ticks the children until one ends or requests a return; the others that are running are
abandoned then. -/
def raceFrom (cell : Cell ρ σ) (depth : Nat) (seen : List (Tracked ρ μ σ)) :
    List (Tracked ρ μ σ) → Run ρ μ σ Status
  | [] => do
    cell.keep depth (.children (seen.map (·.2)))
    return .running
  | (child, _) :: rest => do
    let status ← child.tick
    if status.isTerminal || (← Run.returning) then
      abort depth true (seen ++ (child, .finished status) :: rest)
      return status
    else raceFrom cell depth (seen ++ [(child, .running)]) rest

/-- Ends with the first child that ends; without children it fails. -/
def race (cell : Cell ρ σ) (children : List (Behaviour ρ μ σ)) : Behaviour ρ μ σ where
  tick := do
    if children.isEmpty then return .failure
    else
      let depth ← Run.depth
      let states := (← cell.take depth).childStates children.length
      raceFrom cell depth [] (children.zip states)
  reset := resetTracked cell children

end Behaviour

end BehaviorTree
