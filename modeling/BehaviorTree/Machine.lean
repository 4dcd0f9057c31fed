/-
  BehaviorTree.Machine: the world that nodes act on, and what a node is to its parent.

  A machine holds the context of the tick in progress, the memory of the callbacks, the
  run states of the nodes, and what went out: diagnostics and recorded events. A `Run`
  changes the machine and answers, or stops with a fault; the machine at the fault is
  kept. A `Behaviour` is all that a parent sees of a child: how it is ticked, and how a
  run of it is abandoned.

  The type parameters: `ρ` for the run states, `μ` for the memory of the callbacks, `σ`
  for the states of the callers.
-/

import BehaviorTree.Context
import BehaviorTree.Diagnostic
import BehaviorTree.Slot
import BehaviorTree.Trace.Emission

namespace BehaviorTree

/-- The world that nodes act on. -/
structure Machine (ρ μ σ : Type) where
  context : Context σ
  memory : μ
  runs : ρ
  journal : Array Diagnostic := #[]
  heard : Array TraceEvent := #[]

/-- An action on the machine. -/
abbrev Run (ρ μ σ α : Type) := EStateM Fault (Machine ρ μ σ) α

/-- A test that may use the memory of the callbacks, and nothing else. -/
abbrev Predicate (μ σ : Type) := Context σ → μ → Bool × μ

/-- What a node is to its parent. -/
structure Behaviour (ρ μ σ : Type) where
  /-- Runs for one tick. -/
  tick : Run ρ μ σ Status
  /-- Abandons the run at a depth, together with whatever is active below. With the flag set, scopes
  that are left are told. -/
  reset : (depth : Nat) → (fire : Bool) → Run ρ μ σ Unit

namespace Run

variable {ρ μ σ α : Type}

/-! ## The context -/

def context : Run ρ μ σ (Context σ) := fun m => .ok m.context m

def onContext (f : Context σ → Context σ) : Run ρ μ σ Unit :=
  fun m => .ok () { m with context := f m.context }

/-- The depth of the call in progress. -/
def depth : Run ρ μ σ Nat := fun m => .ok m.context.depth m

/-- The time since the previous tick. -/
def delta : Run ρ μ σ Float32 := fun m => .ok m.context.delta m

/-- The pending request to return early. -/
def returnRequest : Run ρ μ σ (Option Status) := fun m => .ok m.context.returnRequest m

/-- A request to return early is pending. -/
def returning : Run ρ μ σ Bool := fun m => .ok m.context.returnRequest.isSome m

/-- Asks the nearest enclosing scope to finish. -/
def requestReturn (s : Status) : Run ρ μ σ Unit := onContext ({ · with returnRequest := some s })

/-- Takes the pending request away. -/
def takeReturn : Run ρ μ σ (Option Status) := fun m =>
  .ok m.context.returnRequest { m with context := { m.context with returnRequest := none } }

/-- Takes the first refused call away. -/
def takeOverflow : Run ρ μ σ (Option Overflow) := fun m =>
  .ok m.context.overflow { m with context := { m.context with overflow := none } }

/-- Enters a call of `tree`, or says why not. -/
def enter (tree : String) : Run ρ μ σ (Option Overflow) := fun m =>
  match m.context.enter tree with
  | .ok context => .ok none { m with context }
  | .error o => .ok (some o) m

/-! ## Memory and output -/

/-- Lets a callback use its memory. -/
def consult (f : μ → α × μ) : Run ρ μ σ α := fun m =>
  .ok (f m.memory).1 { m with memory := (f m.memory).2 }

/-- Lets a callback change its memory. -/
def remember (f : μ → μ) : Run ρ μ σ Unit := fun m => .ok () { m with memory := f m.memory }

def test (p : Predicate μ σ) : Run ρ μ σ Bool := fun m =>
  .ok (p m.context m.memory).1 { m with memory := (p m.context m.memory).2 }

def report (d : Diagnostic) : Run ρ μ σ Unit := fun m =>
  .ok () { m with journal := m.journal.push d }

/-- Sends out what a sink let through. -/
def deliver : Option Delivery → Run ρ μ σ Unit
  | none => pure ()
  | some (.recorded e) => fun m => .ok () { m with heard := m.heard.push e }
  | some (.logged e) => report (.event e)

/-- Emits an event of the current tick. -/
def trace (tag : String) (a b : UInt64) : Run ρ μ σ Unit := fun m =>
  let (root, outcome) := m.context.layers.root.emit { tick := m.context.tick, tag, a, b }
  let m := { m with context := { m.context with layers := { m.context.layers with root } } }
  match outcome with
  | .ok delivery => deliver delivery m
  | .error fault => .error fault m

end Run

namespace Cell

variable {ρ μ σ : Type} (cell : Cell ρ σ)

/-- What is remembered at a depth. -/
def read (depth : Nat) : Run ρ μ σ (Slot σ) := fun m => .ok (cell.get m.runs depth) m

/-- Remembers `slot` at a depth. -/
def keep (depth : Nat) (slot : Slot σ) : Run ρ μ σ Unit := fun m =>
  .ok () { m with runs := cell.set m.runs depth slot }

/-- Forgets what is remembered at a depth. -/
def forget (depth : Nat) : Run ρ μ σ Unit := fun m =>
  .ok () { m with runs := cell.reset m.runs depth }

/-- Forgets what is remembered at a depth, and tells what it was. -/
def take (depth : Nat) : Run ρ μ σ (Slot σ) := fun m =>
  .ok (cell.get m.runs depth) { m with runs := cell.reset m.runs depth }

end Cell

end BehaviorTree
