/-
  BehaviorTree.Stage: where a system of trees runs.

  A stage says what the run states are: anything that holds a store. It also says what
  happens around the behaviour of each node, so that a run can be watched from outside
  without a second account of what the nodes do. On the plain stage the run states are
  the store itself and nothing happens around the nodes.
-/

import BehaviorTree.Behaviour.Choice
import BehaviorTree.Store

namespace BehaviorTree

/-- Who chooses among the children of a choosing node. -/
inductive Policy (μ : Type) where
  | picker (initial : Picker)
  | custom (pick : (count : Nat) → μ → Option Nat × μ) (complete : (index : Nat) → μ → μ)

/-- Run states that hold a store, and what happens around each node. -/
structure Stage (ρ μ σ : Type) where
  store : ρ → Store σ
  onStore : (Store σ → Store σ) → ρ → ρ
  watch : Address → Behaviour ρ μ σ → Behaviour ρ μ σ
  store_onStore : ∀ f r, store (onStore f r) = f (store r)

namespace Stage

variable {ρ μ σ : Type} (stage : Stage ρ μ σ)

/-- The run states are the store, and nothing happens around the nodes. -/
def plain : Stage (Store σ) μ σ where
  store := id
  onStore f := f
  watch _ b := b
  store_onStore _ _ := rfl

/-- Changes the store. -/
def modifyStore (f : Store σ → Store σ) : Run ρ μ σ Unit := fun m =>
  .ok () { m with runs := stage.onStore f m.runs }

/-- The slots of the node at an address. -/
def cell (site : Address) : Cell ρ σ where
  get r depth := (Store.cell site).get (stage.store r) depth
  set r depth slot := stage.onStore (fun s => (Store.cell site).set s depth slot) r
  reset r depth := stage.onStore (fun s => (Store.cell site).reset s depth) r

/-- Who chooses for the node at an address. -/
def chooser (site : Address) : Policy μ → Chooser ρ μ σ
  | .picker initial => {
      pick := fun count m =>
        let (index, p) := ((stage.store m.runs).pickerAt site initial).pick count
        .ok index { m with runs := stage.onStore (·.setPicker site p) m.runs }
      complete := fun index m =>
        let p := ((stage.store m.runs).pickerAt site initial).complete index
        .ok () { m with runs := stage.onStore (·.setPicker site p) m.runs } }
  | .custom pick complete => {
      pick := fun count => Run.consult (pick count)
      complete := fun index => Run.remember (complete index) }

end Stage

end BehaviorTree
