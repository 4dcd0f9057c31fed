/-
  BehaviorTree.Fault: misuse that stops the program.

  The first group is found while nodes are built, the second while a tree runs. The last
  two bound the machine itself: `nestingLimit` stops ticks started inside ticks at a fixed
  nesting, and `callLimit` would stop a call below the depth that its tick allows.
-/

import BehaviorTree.Decimal

namespace BehaviorTree

/-- What a duration is for. -/
inductive DurationUse where
  | wait
  | timeout
  | delay
  | conditionInterval
  | waitUntilInterval
  deriving DecidableEq

def DurationUse.label : DurationUse → String
  | wait => "Wait"
  | timeout => "Timeout"
  | delay => "Delay"
  | conditionInterval => "Condition interval"
  | waitUntilInterval => "WaitUntil interval"

/-- Misuse that stops the program. -/
inductive Fault where
  | badDuration (use : DurationUse) (value : Float32)
  | noIterations
  | openReturn
  | openForce
  | openTarget
  | badWeight
  | weightCount (weights children : Nat)
  | typeMismatch (id : UInt64)
  | noSuchChild (children index : Nat)
  | nestingLimit
  | callLimit
  deriving DecidableEq

def Fault.message : Fault → String
  | badDuration use value =>
    use.label ++ " duration must be finite and non-negative, got " ++ Decimal.text value
  | noIterations => "Repeat count must be at least 1"
  | openReturn => "Return status must be terminal"
  | openForce => "forced status must be terminal"
  | openTarget => "RepeatUntil target must be terminal"
  | badWeight => "weights must be finite and non-negative"
  | weightCount weights children =>
    "assertion `left == right` failed: one weight is required per child\n  left: " ++
      weights.repr ++ "\n right: " ++ children.repr
  | typeMismatch id =>
    "blackboard type mismatch for key id=" ++ id.toNat.repr ++
      " (stored type differs from requested)"
  | noSuchChild children index =>
    "index out of bounds: the len is " ++ children.repr ++ " but the index is " ++ index.repr
  | nestingLimit => "ticks are nested too deeply"
  | callLimit => "a call is nested deeper than its tick allows"

end BehaviorTree
