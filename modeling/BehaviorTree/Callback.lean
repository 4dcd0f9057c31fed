/-
  BehaviorTree.Callback: the language of the functions that users hang into a tree.

  A callback is a program over the operations that a tick offers: look at the context and
  at its own memory, write to the board, ask for an early return, take pending requests,
  emit events, and tick or reset whole trees. `Callback.run` is its meaning; what ticking
  and resetting a tree means is left to a `Host`.
-/

import BehaviorTree.Machine

namespace BehaviorTree

/-- A layer of the board. -/
inductive Reach where
  /-- The layer some steps outwards from the innermost one. -/
  | layer (steps : Nat)
  | root

/-- A change of one layer. -/
inductive Edit where
  | set (t : ValueType) (id : UInt64) (x : t.Carrier)
  | remove (t : ValueType) (id : UInt64)
  | setObj (t : ObjType) (id : UInt64) (x : t.Carrier)
  | removeObj (id : UInt64)
  | clear

def Edit.apply : Edit → Board → Board
  | set t id x, b => b.set t id x
  | remove t id, b => b.remove t id
  | setObj t id x, b => b.setObj t id x
  | removeObj id, b => { b with objects := b.objects.erase id }
  | clear, _ => {}

def Edit.applyAt (e : Edit) : Reach → Layers → Layers
  | .layer steps, l => l.onLayer steps e.apply
  | .root, l => l.onRoot e.apply

/-- A program over the operations that a tick offers to its callbacks. -/
inductive Callback (μ σ α : Type) where
  | done (result : α)
  | look (next : Context σ → μ → Callback μ σ α)
  | remember (f : μ → μ) (next : Callback μ σ α)
  | edit (reach : Reach) (e : Edit) (next : Callback μ σ α)
  | setGlobal (t : ValueType) (id : UInt64) (x : t.Carrier) (next : Callback μ σ α)
  | requestReturn (s : Status) (next : Callback μ σ α)
  | takeReturn (next : Option Status → Callback μ σ α)
  | takeOverflow (next : Option Overflow → Callback μ σ α)
  | trace (tag : String) (a b : UInt64) (next : Callback μ σ α)
  | tickTree (tree : TreeId) (delta : Float32) (next : Status → Callback μ σ α)
  | resetTree (tree : TreeId) (fire : Bool) (next : Callback μ σ α)

/-- What callbacks can do to whole trees. -/
structure Host (ρ μ σ : Type) where
  tickTree : TreeId → (delta : Float32) → Run ρ μ σ Status
  resetTree : TreeId → (fire : Bool) → Run ρ μ σ Unit

namespace Callback

variable {ρ μ σ α β : Type}

/-- The effect of a callback on the machine. -/
def run (host : Host ρ μ σ) : Callback μ σ α → Run ρ μ σ α
  | done result => pure result
  | look next => fun m => run host (next m.context m.memory) m
  | remember f next => do Run.remember f; run host next
  | edit reach e next => do
    Run.onContext fun c => { c with layers := e.applyAt reach c.layers }
    run host next
  | setGlobal t id x next => do
    Run.onContext fun c => { c with layers := c.layers.setGlobal t id x }
    run host next
  | requestReturn s next => do Run.requestReturn s; run host next
  | takeReturn next => do run host (next (← Run.takeReturn))
  | takeOverflow next => do run host (next (← Run.takeOverflow))
  | trace tag a b next => do Run.trace tag a b; run host next
  | tickTree tree delta next => do run host (next (← host.tickTree tree delta))
  | resetTree tree fire next => do host.resetTree tree fire; run host next

/-- One callback after the other. -/
protected def bind : Callback μ σ α → (α → Callback μ σ β) → Callback μ σ β
  | done result, k => k result
  | look next, k => look fun c m => (next c m).bind k
  | remember f next, k => remember f (next.bind k)
  | edit reach e next, k => edit reach e (next.bind k)
  | setGlobal t id x next, k => setGlobal t id x (next.bind k)
  | requestReturn s next, k => requestReturn s (next.bind k)
  | takeReturn next, k => takeReturn fun s => (next s).bind k
  | takeOverflow next, k => takeOverflow fun o => (next o).bind k
  | trace tag a b next, k => trace tag a b (next.bind k)
  | tickTree tree delta next, k => tickTree tree delta fun s => (next s).bind k
  | resetTree tree fire next, k => resetTree tree fire (next.bind k)

instance : Monad (Callback μ σ) where
  pure := done
  bind := Callback.bind

/-- Asks a predicate, which may use the memory. -/
def ask (p : Predicate μ σ) : Callback μ σ Bool :=
  look fun c m => remember (fun _ => (p c m).2) (done (p c m).1)

end Callback

end BehaviorTree
