/-
  BehaviorTree.Status: what a node reports for a tick.

  A status is `running` or terminal; the terminal ones are a type of their own,
  `Verdict`, for the nodes that may only be built with one. `Status.verdict?` and
  `Verdict.status` go between the two.
-/

namespace BehaviorTree

/-- What a node reports for a tick. -/
inductive Status where
  | running
  | success
  | failure
  deriving DecidableEq, Inhabited

/-- A status that ends a run. -/
inductive Verdict where
  | success
  | failure
  deriving DecidableEq, Inhabited

namespace Verdict

/-- The verdict as a status. -/
def status : Verdict → Status
  | success => .success
  | failure => .failure

/-- The other verdict. -/
def flip : Verdict → Verdict
  | success => failure
  | failure => success

@[simp] theorem flip_flip (v : Verdict) : v.flip.flip = v := by cases v <;> rfl

end Verdict

namespace Status

def isRunning : Status → Bool
  | running => true
  | _ => false

def isSuccess : Status → Bool
  | success => true
  | _ => false

def isFailure : Status → Bool
  | failure => true
  | _ => false

/-- Terminal statuses end a run. -/
def isTerminal (s : Status) : Bool := !s.isRunning

/-- Swaps the two terminal statuses. -/
def invert : Status → Status
  | running => running
  | success => failure
  | failure => success

/-- The number that trace events carry. -/
def code : Status → UInt64
  | running => 0
  | success => 1
  | failure => 2

def name : Status → String
  | running => "Running"
  | success => "Success"
  | failure => "Failure"

/-- The verdict of a terminal status. -/
def verdict? : Status → Option Verdict
  | running => none
  | success => some .success
  | failure => some .failure

@[simp] theorem verdict?_status (v : Verdict) : v.status.verdict? = some v := by cases v <;> rfl

@[simp] theorem isTerminal_status (v : Verdict) : v.status.isTerminal = true := by cases v <;> rfl

@[simp] theorem invert_invert (s : Status) : s.invert.invert = s := by cases s <;> rfl

@[simp] theorem invert_status (v : Verdict) : v.status.invert = v.flip.status := by cases v <;> rfl

end Status

end BehaviorTree
