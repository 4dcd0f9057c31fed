/-
  BehaviorTree.Board.Layers: a board seen through any number of overlays.

  Reading looks at the overlays from the innermost outwards and at the root last. A plain
  write goes to the innermost layer. A global write goes to the root and takes the key
  out of every overlay, so that the new value shows through all of them.
-/

import BehaviorTree.Board

namespace BehaviorTree

/-- A root board under overlays, innermost overlay first. -/
structure Layers where
  overlays : List Board := []
  root : Board := {}

namespace Layers

instance : Inhabited Layers := ⟨{}⟩

/-- All layers, innermost first. -/
def boards (l : Layers) : List Board := l.overlays ++ [l.root]

/-- The layer that plain writes reach. -/
def innermost (l : Layers) : Board := l.overlays.headD l.root

def onRoot (l : Layers) (f : Board → Board) : Layers := { l with root := f l.root }

/-- Changes the layer `n` steps outwards; the root is the last there is. -/
def onLayer (l : Layers) (n : Nat) (f : Board → Board) : Layers :=
  if n < l.overlays.length then { l with overlays := l.overlays.modify n f } else l.onRoot f

theorem onLayer_near {l : Layers} {n : Nat} (near : n < l.overlays.length) (f : Board → Board) :
    l.onLayer n f = { l with overlays := l.overlays.modify n f } := if_pos near

theorem onLayer_far {l : Layers} {n : Nat} (far : ¬ n < l.overlays.length) (f : Board → Board) :
    l.onLayer n f = l.onRoot f := if_neg far

theorem length_onLayer {l : Layers} {n : Nat} (f : Board → Board) :
    (l.onLayer n f).overlays.length = l.overlays.length := by
  by_cases near : n < l.overlays.length
  · rw [onLayer_near near]
    exact List.length_modify ..
  · rw [onLayer_far near]
    rfl

def onInnermost (l : Layers) (f : Board → Board) : Layers := l.onLayer 0 f

/-- Puts a new innermost overlay in place. -/
def push (l : Layers) (b : Board) : Layers := { l with overlays := b :: l.overlays }

/-- Takes the innermost overlay off; the root stays. -/
def pop? (l : Layers) : Option (Board × Layers) :=
  match l.overlays with
  | [] => none
  | b :: outer => some (b, { l with overlays := outer })

/-! ## Reading and writing through the layers -/

def get? (l : Layers) (t : ValueType) (id : UInt64) : Option t.Carrier :=
  l.boards.findSome? (·.get? t id)

def contains (l : Layers) (t : ValueType) (id : UInt64) : Bool :=
  l.boards.any (·.contains t id)

/-- The object under `id` in the first of `boards` that has one. -/
def firstObj (t : ObjType) (id : UInt64) : List Board → Except Fault (Option t.Carrier)
  | [] => .ok none
  | b :: outer => match b.getObj t id with
    | .ok none => firstObj t id outer
    | found => found

def getObj (l : Layers) (t : ObjType) (id : UInt64) : Except Fault (Option t.Carrier) :=
  firstObj t id l.boards

def set (l : Layers) (t : ValueType) (id : UInt64) (x : t.Carrier) : Layers :=
  l.onInnermost (·.set t id x)

def setGlobal (l : Layers) (t : ValueType) (id : UInt64) (x : t.Carrier) : Layers :=
  { overlays := l.overlays.map (·.remove t id), root := l.root.set t id x }

end Layers

end BehaviorTree
