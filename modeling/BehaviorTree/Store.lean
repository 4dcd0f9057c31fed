/-
  BehaviorTree.Store: what a system of trees remembers between ticks.

  Nodes have addresses: the number of their tree, and the places of the children on the
  way down to them. Each node has a slot per call depth, and a choosing node also has a
  picker, which resets leave alone. Each tree has a count of its ticks and the first
  refused call of the last one. Three lists say what is in use: the trees that are `held`
  from outside, the trees that a tick in progress is `running`, and the nodes that are
  `kept` from outside though their trees may be gone.
-/

import Std.Data.ExtTreeMap
import BehaviorTree.Random.Picker
import BehaviorTree.Slot
import BehaviorTree.CallStack

namespace BehaviorTree

/-- The way from a node up to its tree: the node's place among its siblings first, the number of the
tree last. -/
abbrev Address := List Nat

/-- What is known of the ticks of a tree. -/
structure Progress where
  ticks : UInt64 := 0
  /-- The first refused call of the last tick. -/
  overflow : Option Overflow := none
  /-- A tick is using the tree's call stack. -/
  busy : Bool := false

/-- What a system of trees remembers between ticks. -/
structure Store (σ : Type) where
  slots : Std.ExtTreeMap Address (DepthSlots (Slot σ)) := ∅
  /-- No slot at this depth or a deeper one was ever written. -/
  height : Nat := 0
  pickers : Std.ExtTreeMap Address Picker := ∅
  trees : Std.ExtTreeMap TreeId Progress := ∅
  held : List TreeId := []
  running : List TreeId := []
  kept : List Address := []

namespace Store

variable {σ : Type}

instance : Inhabited (Store σ) := ⟨{}⟩

/-- The slots of the node at an address. -/
def slotsAt (s : Store σ) (site : Address) : DepthSlots (Slot σ) := s.slots.getD site {}

/-- What the node at an address remembers. -/
def cell (site : Address) : Cell (Store σ) σ where
  get s depth := (s.slotsAt site).get depth
  set s depth slot :=
    { s with
      slots := s.slots.insert site ((s.slotsAt site).set depth slot)
      height := max s.height (depth + 1) }
  reset s depth := { s with slots := s.slots.modify site (·.reset depth) }

/-- The picker of the node at an address, at first `initial`. -/
def pickerAt (s : Store σ) (site : Address) (initial : Picker) : Picker :=
  s.pickers.getD site initial

def setPicker (s : Store σ) (site : Address) (p : Picker) : Store σ :=
  { s with pickers := s.pickers.insert site p }

/-- What is known of the ticks of a tree. -/
def progress (s : Store σ) (tree : TreeId) : Progress := s.trees.getD tree {}

def onProgress (s : Store σ) (tree : TreeId) (f : Progress → Progress) : Store σ :=
  { s with trees := s.trees.insert tree (f (s.progress tree)) }

end Store

end BehaviorTree
