/-
  BehaviorTree.Node: trees as data.

  A node says what it does; a tree is a root with a name and limits. Calls of other trees
  go through handles: a strong handle keeps its tree available, a weak one does not.
-/

import BehaviorTree.Behaviour.Call
import BehaviorTree.Behaviour.Concurrent
import BehaviorTree.Behaviour.Reactive
import BehaviorTree.Behaviour.Repetition
import BehaviorTree.Behaviour.Scope
import BehaviorTree.Behaviour.Timed
import BehaviorTree.Limits
import BehaviorTree.Stage

namespace BehaviorTree

/-- A reference to a tree. -/
inductive Handle where
  | strong (tree : TreeId)
  | weak (tree : TreeId)
  deriving DecidableEq

/-- Where a calling node finds its tree. -/
inductive Source (μ : Type) where
  | fixed (handle : Handle)
  /-- Asked at the start of each run. -/
  | provided (provide : μ → Option TreeId × μ)

/-- A node with all that is below it. -/
inductive Node (μ σ : Type) where
  | action (body : Callback μ σ Status)
  | custom (body : Callback μ σ Status) (onReset : (depth : Nat) → (fire : Bool) → μ → μ)
  | condition (holds : Predicate μ σ) (every : Duration)
  | waitUntil (holds : Predicate μ σ) (every : Duration)
  | wait (duration : Duration)
  | pause
  | earlyReturn (verdict : Verdict)
  | invert (child : Node μ σ)
  | force (verdict : Verdict) (child : Node μ σ)
  | guard (holds : Predicate μ σ) (child : Node μ σ)
  | repeatTimes (count : UInt32) (child : Node μ σ)
  | repeatUntil (target : Verdict) (child : Node μ σ)
  | retry (retries : UInt32) (child : Node μ σ)
  | timeout (duration : Duration) (child : Node μ σ)
  | delay (duration : Duration) (child : Node μ σ)
  | scope (hooks : Hooks μ σ) (child : Node μ σ)
  | localScope (child : Node μ σ)
  | sequence (children : List (Node μ σ))
  | selector (children : List (Node μ σ))
  | reactiveSequence (children : List (Node μ σ))
  | reactiveSelector (children : List (Node μ σ))
  | parallel (policy : ParallelPolicy) (children : List (Node μ σ))
  | join (policy : JoinPolicy) (children : List (Node μ σ))
  | race (children : List (Node μ σ))
  | selectOne (policy : Policy μ) (children : List (Node μ σ))
  | call (source : Source μ) (makeState : Option (StateMaker μ σ))

/-- A named root and the limits that its ticks run under. -/
structure Tree (μ σ : Type) where
  name : String
  root : Node μ σ
  limits : { l : Limits // l.Valid } := ⟨{}, Limits.default_valid⟩

/-! ## Checked construction -/

namespace Node

variable {μ σ : Type}

/-- Refuses a count of zero. -/
def repeatTimes? (count : UInt32) (child : Node μ σ) : Except Fault (Node μ σ) :=
  if count = 0 then .error .noIterations else .ok (repeatTimes count child)

/-- The verdict of a status that has to be terminal. -/
def verdict (fault : Fault) (s : Status) : Except Fault Verdict :=
  match s.verdict? with
  | some v => .ok v
  | none => .error fault

def earlyReturn? (s : Status) : Except Fault (Node μ σ) :=
  earlyReturn <$> verdict .openReturn s

def force? (s : Status) (child : Node μ σ) : Except Fault (Node μ σ) :=
  (force · child) <$> verdict .openForce s

def repeatUntil? (s : Status) (child : Node μ σ) : Except Fault (Node μ σ) :=
  (repeatUntil · child) <$> verdict .openTarget s

end Node

end BehaviorTree
