/-
  BehaviorTree.Slot: what a node remembers, at one call depth, between two ticks of a run.

  `idle` means that nothing is remembered: the next tick starts a fresh run. A `Cell` is a
  node's own memory, one slot per call depth, seen inside whatever keeps the memories of
  all nodes.
-/

import BehaviorTree.Board
import BehaviorTree.DepthSlots
import BehaviorTree.Status

namespace BehaviorTree

/-- Trees are named by their number in a system. -/
abbrev TreeId := Nat

/-- What a node that runs its children side by side remembers of one child. -/
inductive ChildState where
  | idle
  | running
  | finished (status : Status)
  deriving DecidableEq

/-- What a node remembers of a run in progress. -/
inductive Slot (σ : Type) where
  | idle
  /-- A run has started; for a node with one child that is told its end, the child is running. -/
  | started
  /-- The child that is running. -/
  | child (index : Nat)
  /-- The time that has passed. -/
  | elapsed (time : Float32)
  /-- The waiting time is over. -/
  | released
  /-- The last answer of a predicate, and the time since it was asked. -/
  | answered (answer : Bool) (since : Float32)
  /-- The iterations that are done, and whether the next is running. -/
  | iterations (count : UInt32) (childRunning : Bool)
  /-- The overlay of a running child. -/
  | overlay (board : Board)
  /-- The children that run side by side. -/
  | children (states : List ChildState)
  /-- The tree that is being run, and the state made for it. -/
  | call (tree : TreeId) (state : Option σ)

namespace Slot

variable {σ : Type}

instance : Inhabited (Slot σ) := ⟨idle⟩

theorem default_eq : (default : Slot σ) = idle := rfl

/-- The running child. -/
def child? : Slot σ → Option Nat
  | child index => some index
  | _ => none

/-- The time that has passed, none at the start of a run. -/
def time : Slot σ → Float32
  | elapsed t => t
  | _ => 0

/-- The iterations that are done. -/
def count : Slot σ → UInt32
  | iterations n _ => n
  | _ => 0

/-- The overlay, empty at the start of a run. -/
def board : Slot σ → Board
  | overlay b => b
  | _ => {}

/-- The states of `n` children, all idle at the start of a run. -/
def childStates : Slot σ → (n : Nat) → List ChildState
  | children states, n => if states.length = n then states else List.replicate n .idle
  | _, n => List.replicate n .idle

theorem length_childStates (slot : Slot σ) (n : Nat) : (slot.childStates n).length = n := by
  unfold childStates
  split
  · split <;> simp_all
  · simp

end Slot

/-- One slot per call depth, kept somewhere in `ρ`. -/
structure Cell (ρ σ : Type) where
  get : ρ → (depth : Nat) → Slot σ
  set : ρ → (depth : Nat) → Slot σ → ρ
  reset : ρ → (depth : Nat) → ρ

end BehaviorTree
