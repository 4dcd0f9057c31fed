/-
  BehaviorTree.Limits: how deep a tree may call other trees.

  `maxCallDepth` bounds the nesting of calls; `stackCapacity` bounds the frames of a call
  stack, or is `none` to run without one. Both must be at least 1 (`Limits.Valid`); of two
  violations the depth is reported (`Limits.check`).
-/

namespace BehaviorTree

/-- The recursion limits of a tree. -/
structure Limits where
  maxCallDepth : UInt64 := 64
  stackCapacity : Option UInt64 := some 64
  deriving DecidableEq

/-- Why limits are refused. -/
inductive LimitsError where
  | noDepth
  | noCapacity
  deriving DecidableEq

namespace LimitsError

/-- The setting at fault. -/
def field : LimitsError → String
  | noDepth => "max_call_depth"
  | noCapacity => "call_stack_capacity"

def reason : LimitsError → String
  | noDepth => "must be at least 1"
  | noCapacity => "must be at least 1 when set"

def message (e : LimitsError) : String :=
  "invalid tree config: `" ++ e.field ++ "` " ++ e.reason

end LimitsError

namespace Limits

/-- A tree can run under these limits. -/
def Valid (l : Limits) : Prop := l.maxCallDepth ≠ 0 ∧ l.stackCapacity ≠ some 0

instance (l : Limits) : Decidable l.Valid := inferInstanceAs (Decidable (_ ∧ _))

/-- Accepts valid limits and names what is wrong with others. -/
def check (l : Limits) : Except LimitsError { l : Limits // l.Valid } :=
  if hd : l.maxCallDepth = 0 then .error .noDepth
  else if hc : l.stackCapacity = some 0 then .error .noCapacity
  else .ok ⟨l, hd, hc⟩

theorem default_valid : ({} : Limits).Valid := by decide

end Limits

end BehaviorTree
