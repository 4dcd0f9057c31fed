/-
  BehaviorTree.Behaviour.Leaf: nodes without children.

  Timed leaves add the deltas of their ticks up from zero and compare the sum with a
  duration. `Condition` and `WaitUntil` may ask their predicate less often than every
  tick: an answer is kept, and the predicate is asked again once the time since the answer
  has reached an interval. `Condition` forgets its answer only when it is reset,
  `WaitUntil` also when it succeeds.
-/

import BehaviorTree.Callback

namespace BehaviorTree

/-- Finite and not negative. -/
structure Duration where
  length : Float32
  length_ok : length.isFinite = true ∧ 0 ≤ length

namespace Duration

/-- No time at all. -/
def none : Duration := ⟨0, by decide⟩

/-- Refuses a length that is negative or not finite. -/
def check (use : DurationUse) (length : Float32) : Except Fault Duration :=
  if h : length.isFinite = true ∧ 0 ≤ length then .ok ⟨length, h⟩
  else .error (.badDuration use length)

end Duration

variable {ρ μ σ : Type}

/-- A result that tells whether a test holds. -/
def Status.ofBool (holds : Bool) : Status := if holds then .success else .failure

/-- A node that remembers nothing has nothing to abandon. -/
def Behaviour.ofTick (tick : Run ρ μ σ Status) : Behaviour ρ μ σ := ⟨tick, fun _ _ => pure ()⟩

/-- A leaf that remembers something forgets it when its run is abandoned. -/
def Cell.leaf (cell : Cell ρ σ) (tick : (depth : Nat) → Run ρ μ σ Status) : Behaviour ρ μ σ where
  tick := do tick (← Run.depth)
  reset depth _ := cell.forget depth

namespace Behaviour

/-! ## Predicates asked now and then -/

/-- The kept answer, while the time since it was given has not reached `every`. Keeps the longer
time then. -/
def keptAnswer (cell : Cell ρ σ) (every : Duration) (depth : Nat) : Run ρ μ σ (Option Bool) := do
  match ← cell.read depth with
  | .answered answer since =>
    let since := since + (← Run.delta)
    if every.length ≤ since then return none
    cell.keep depth (.answered answer since)
    return some answer
  | _ => return none

/-- Success or failure as the predicate says. Without an interval it is asked on every tick. -/
def condition (cell : Cell ρ σ) (holds : Predicate μ σ) (every : Duration) : Behaviour ρ μ σ :=
  cell.leaf fun depth => do
    if 0 < every.length then
      match ← keptAnswer cell every depth with
      | some answer => return .ofBool answer
      | none =>
        let answer ← Run.test holds
        cell.keep depth (.answered answer 0)
        return .ofBool answer
    else return .ofBool (← Run.test holds)

/-- Running until the predicate holds. -/
def waitUntil (cell : Cell ρ σ) (holds : Predicate μ σ) (every : Duration) : Behaviour ρ μ σ :=
  cell.leaf fun depth => do
    if (← keptAnswer cell every depth).isSome then return .running
    if ← Run.test holds then
      cell.forget depth
      return .success
    else
      cell.keep depth (.answered false 0)
      return .running

/-! ## Time -/

/-- Running until the duration has passed. -/
def wait (cell : Cell ρ σ) (duration : Duration) : Behaviour ρ μ σ :=
  cell.leaf fun depth => do
    let time := (← cell.read depth).time + (← Run.delta)
    if duration.length ≤ time then
      cell.forget depth
      return .success
    else
      cell.keep depth (.elapsed time)
      return .running

/-- Running for one tick. -/
def pause (cell : Cell ρ σ) : Behaviour ρ μ σ :=
  cell.leaf fun depth => do
    match ← cell.read depth with
    | .started => cell.forget depth; return .success
    | _ => cell.keep depth .started; return .running

/-! ## Callbacks and early returns -/

/-- Runs a callback on every tick. -/
def action (host : Host ρ μ σ) (body : Callback μ σ Status) : Behaviour ρ μ σ :=
  .ofTick (body.run host)

/-- Runs a callback on every tick, and is told of every reset. -/
def custom (host : Host ρ μ σ) (body : Callback μ σ Status)
    (onReset : (depth : Nat) → (fire : Bool) → μ → μ) : Behaviour ρ μ σ where
  tick := body.run host
  reset depth fire := Run.remember (onReset depth fire)

/-- Ends at once, and asks the nearest enclosing scope to finish with the same verdict. -/
def earlyReturn (verdict : Verdict) : Behaviour ρ μ σ :=
  .ofTick do
    Run.requestReturn verdict.status
    Run.trace Tag.earlyReturn (UInt64.ofNat (← Run.depth)) verdict.status.code
    return verdict.status

end Behaviour

end BehaviorTree
