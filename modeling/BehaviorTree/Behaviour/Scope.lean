/-
  BehaviorTree.Behaviour.Scope: nodes that bracket the run of one child.

  `scope` tells its hooks when a run starts and when it ends, and is where requests to
  return early end. `localScope` gives the child an overlay of its own on the board, which
  lives as long as the run.
-/

import BehaviorTree.Behaviour.Leaf

namespace BehaviorTree

/-- What a scope calls. -/
structure Hooks (μ σ : Type) where
  /-- At the start of a run. -/
  onEnter : Callback μ σ Unit := .done ()
  /-- At the end of a run, with its result, or with `running` when the run is abandoned. -/
  onExit : Status → μ → μ := fun _ m => m

namespace Behaviour

variable {ρ μ σ : Type}

/-- Starts a run, unless one is in progress. -/
def openScope (cell : Cell ρ σ) (host : Host ρ μ σ) (hooks : Hooks μ σ) (depth : Nat) :
    Run ρ μ σ Unit := do
  match ← cell.read depth with
  | .started => pure ()
  | _ =>
    cell.keep depth .started
    Run.trace Tag.scopeEnter (UInt64.ofNat depth) 0
    hooks.onEnter.run host

/-- The result of a scope whose child answered `ticked`: a request to return early that came up from
the child decides it, and a child that is running then is abandoned. -/
def settleReturn (child : Behaviour ρ μ σ) (depth : Nat) (ticked : Status) : Run ρ μ σ Status := do
  match ← Run.takeReturn with
  | none => return ticked
  | some requested =>
    Run.report (.returnConsumed depth requested)
    if ticked.isRunning then child.reset depth true
    return requested

/-- Ends the run if its result is terminal. -/
def closeScope (cell : Cell ρ σ) (hooks : Hooks μ σ) (depth : Nat) (status : Status) :
    Run ρ μ σ Unit := do
  if status.isTerminal then
    cell.forget depth
    Run.trace Tag.scopeExit (UInt64.ofNat depth) status.code
    Run.remember (hooks.onExit status)

/-- Brackets the child's run, and is where a request to return early from below ends. -/
def scope (cell : Cell ρ σ) (host : Host ρ μ σ) (hooks : Hooks μ σ) (child : Behaviour ρ μ σ) :
    Behaviour ρ μ σ where
  tick := do
    let depth ← Run.depth
    openScope cell host hooks depth
    let ticked ← child.tick
    let status ← settleReturn child depth ticked
    closeScope cell hooks depth status
    return status
  reset depth fire := do
    match ← cell.read depth with
    | .started =>
      cell.forget depth
      child.reset depth fire
      if fire then Run.remember (hooks.onExit .running)
    | _ => pure ()

/-- Ticks the child over an overlay, which takes its plain writes. -/
def localScope (cell : Cell ρ σ) (child : Behaviour ρ μ σ) : Behaviour ρ μ σ where
  tick := do
    let depth ← Run.depth
    let slot ← cell.take depth
    Run.onContext fun c => { c with layers := c.layers.push slot.board }
    let status ← child.tick
    let layers := (← Run.context).layers
    Run.onContext fun c => { c with layers := { c.layers with overlays := c.layers.overlays.tail } }
    if status.isRunning then cell.keep depth (.overlay layers.innermost)
    return status
  reset depth fire := do
    match ← cell.take depth with
    | .overlay _ => child.reset depth fire
    | _ => pure ()

end Behaviour

end BehaviorTree
