/-
  BehaviorTree.Proofs.Trial: a node on trial, over children that are anything at all.

  The children are behaviours of which only the parent's view is known. Each is given a seat:
  what the node asks of it is written down, with the child's number and the call depth
  (`Behaviour.seat`). The node is then put to the test, tick by tick and reset by reset, at
  whatever depths, and the world around it changes in between (`Behaviour.follow`). What is
  observed is all there is, but for what the node itself remembers (`Behaviour.observed`).
-/

import BehaviorTree.Behaviour.Leaf

namespace BehaviorTree

variable {κ κ' ρ ρ' μ σ α : Type}

/-! ## What a node on trial acts on -/

/-- What a node asks of one of its children. -/
inductive Errand where
  | tick (child depth : Nat)
  | reset (child depth : Nat) (fire : Bool)
  deriving DecidableEq

/-- The run states of the children, what the node itself remembers, and what it has asked of the children. -/
structure Trial (κ ρ : Type) where
  below : ρ
  own : κ
  errands : List Errand := []

/-- The node itself remembers something else. -/
def Trial.view (f : κ → κ') (t : Trial κ ρ) : Trial κ' ρ := ⟨t.below, f t.own, t.errands⟩

/-- The machine with run states of another kind. -/
def Machine.withRuns (m : Machine ρ μ σ) (runs : ρ') : Machine ρ' μ σ :=
  ⟨m.context, m.memory, runs, m.journal, m.heard⟩

/-- What comes of a run, with run states of another kind. -/
def Run.mapRuns (f : ρ → ρ') :
    EStateM.Result Fault (Machine ρ μ σ) α → EStateM.Result Fault (Machine ρ' μ σ) α
  | .ok x m => .ok x (m.withRuns (f m.runs))
  | .error e m => .error e (m.withRuns (f m.runs))

/-- Work of the children, which know nothing of the node. -/
def Run.below (a : Run ρ μ σ α) : Run (Trial κ ρ) μ σ α := fun m =>
  Run.mapRuns (fun below => { m.runs with below }) (a (m.withRuns m.runs.below))

/-- Writes down what is asked of a child. -/
def Run.asks (errand : Errand) : Run (Trial κ ρ) μ σ Unit := fun m =>
  .ok () { m with runs := { m.runs with errands := m.runs.errands ++ [errand] } }

namespace Behaviour

/-- The child with this number. -/
def seat (number : Nat) (child : Behaviour ρ μ σ) : Behaviour (Trial κ ρ) μ σ where
  tick := do
    Run.asks (.tick number (← Run.depth))
    child.tick.below
  reset depth fire := do
    Run.asks (.reset number depth fire)
    (child.reset depth fire).below

/-- The children in their order. -/
def seats (children : List (Behaviour ρ μ σ)) : List (Behaviour (Trial κ ρ) μ σ) :=
  children.zipIdx.map fun child => child.1.seat child.2

end Behaviour

/-- A node's own slots, kept somewhere in what the node remembers. -/
def Trial.cell (get : κ → DepthSlots (Slot σ)) (put : κ → DepthSlots (Slot σ) → κ) : Cell (Trial κ ρ) σ where
  get t depth := (get t.own).get depth
  set t depth slot := { t with own := put t.own ((get t.own).set depth slot) }
  reset t depth := { t with own := put t.own ((get t.own).reset depth) }

/-- The slots of a node that remembers nothing else. -/
def Trial.slots : Cell (Trial (DepthSlots (Slot σ)) ρ) σ := Trial.cell id fun _ slots => slots

/-! ## The trial -/

/-- One step of a trial. -/
inductive Turn (ρ μ σ : Type) where
  /-- The node is ticked, at the depth of the call in progress. -/
  | tick
  | reset (depth : Nat) (fire : Bool)
  /-- The world around the node does something: another call is in progress, a return is requested or taken, a
  callback remembers something, other nodes use the children's trees. -/
  | aside (change : Run ρ μ σ Unit)

namespace Behaviour

/-- Takes the turns in their order, and tells what the ticks answered. -/
def follow (node : Behaviour (Trial κ ρ) μ σ) : List (Turn ρ μ σ) → Run (Trial κ ρ) μ σ (List Status)
  | [] => return []
  | .tick :: rest => do
    let status ← node.tick
    return status :: (← node.follow rest)
  | .reset depth fire :: rest => do
    node.reset depth fire
    node.follow rest
  | .aside change :: rest => do
    change.below
    node.follow rest

/-- All that is seen of a node which remembers nothing yet: the answers or the fault, and at the end the context,
the callbacks' memory, the run states of the children, what was put out, and every errand of a child. -/
def observed (node : Behaviour (Trial κ ρ) μ σ) (fresh : κ) (turns : List (Turn ρ μ σ)) (m : Machine ρ μ σ) :
    EStateM.Result Fault (Machine (Trial Unit ρ) μ σ) (List Status) :=
  Run.mapRuns (Trial.view fun _ => ()) (node.follow turns (m.withRuns { below := m.runs, own := fresh }))

/-- Ticks and resets end at the call depth at which they started. -/
structure Level (child : Behaviour ρ μ σ) : Prop where
  tick : ∀ m status m', child.tick m = .ok status m' → m'.context.depth = m.context.depth
  reset : ∀ depth fire m m', child.reset depth fire m = .ok () m' → m'.context.depth = m.context.depth

end Behaviour

end BehaviorTree
