/-
  BehaviorTree.Context: what a tick carries through the tree.

  Timing, the board under its overlays, the caller's state, the recursion guard, and the
  two things that travel upwards: a pending request to return early and the first refused
  call. `depth` counts calls of other trees, not the nesting of nodes.
-/

import BehaviorTree.Board.Layers
import BehaviorTree.CallStack
import BehaviorTree.Status

namespace BehaviorTree

/-- The state of a tick in progress; `σ` is the type of the callers' states. -/
structure Context (σ : Type) where
  tick : UInt64 := 0
  delta : Float32 := 0
  layers : Layers := {}
  state : Option σ := none
  stack : Option CallStack := none
  maxDepth : Nat := UInt64.size - 1
  depth : Nat := 0
  returnRequest : Option Status := none
  overflow : Option Overflow := none

namespace Context

variable {σ : Type}

/-- Enters a call of `tree`, one level deeper, unless a limit forbids it. The depth limit is looked
at before the stack. -/
def enter (c : Context σ) (tree : String) : Except Overflow (Context σ) :=
  if c.maxDepth < c.depth + 1 then .error ⟨tree, c.depth + 1, c.maxDepth, .maxDepth⟩
  else match c.stack with
    | none => .ok { c with depth := c.depth + 1 }
    | some stack => match stack.push ⟨tree, c.depth + 1⟩ with
      | .ok stack => .ok { c with depth := c.depth + 1, stack := some stack }
      | .error o => .error o

/-- Leaves a call. -/
def leave (c : Context σ) : Context σ :=
  { c with stack := c.stack.map (·.pop.2), depth := c.depth - 1 }

/-- Keeps the first refused call of a tick. -/
def recordOverflow (c : Context σ) (o : Overflow) : Context σ :=
  { c with overflow := some (c.overflow.getD o) }

theorem leave_enter {c d : Context σ} {tree : String} (h : c.enter tree = .ok d) :
    d.leave = c := by
  unfold enter at h
  split at h
  · cases h
  · split at h
    · next hs => cases h; cases c; simp_all [leave]
    · next s hs =>
      split at h
      · next t ht => cases h; cases c; simp_all [leave, CallStack.pop_push ht]
      · cases h

end Context

end BehaviorTree
