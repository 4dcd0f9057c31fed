/-
  BehaviorTree.Proofs.Unroll: recursive trees, with a copy of each for each call depth.

  In the unrolled system every tree has one copy for each call depth up to a last one. The
  copies have the names of their trees, and a call goes from the copies at one depth to those
  at the next. No copy is used at two depths, so its nodes need one slot each: ticks and resets
  of the unrolled system are those of any system, but that they use a scalar in place of the
  slots for all depths (`Store.scalar`).
-/

import BehaviorTree.Proofs.Copies

namespace BehaviorTree

variable {μ σ : Type}

/-- One slot for the node at an address, whatever the depth. -/
def Store.scalar (site : Address) : Cell (Store σ) σ where
  get s _ := (cell site).get s 0
  set s depth slot := { (cell site).set s 0 slot with height := max s.height (depth + 1) }
  reset s _ := (cell site).reset s 0

namespace System

variable (sys : System μ σ)

/-! ## Copies -/

/-- The number of a tree's copy for a call depth. -/
def copyAt (depth : Nat) (tree : TreeId) : TreeId := tree + sys.trees.size * depth

/-- The tree that has this copy. -/
def original (copy : TreeId) : TreeId := copy % sys.trees.size

/-- The copies for one call depth. Their calls go to those for the next. The last ones have none to go to: their
calls are refused, under the name of the tree that they would go to. -/
def copiesAt (last depth : Nat) : List (Tree μ σ) :=
  sys.trees.toList.map (·.mapTrees (sys.copyAt (min (depth + 1) last)))

/-- A copy of each tree for each call depth up to the last one. -/
def unrolled (last : Nat) : System μ σ := ⟨((List.range (last + 1)).flatMap (sys.copiesAt last)).toArray⟩

/-- What is held from outside: all copies of the trees that are there before the first tick. -/
def heldCopies (last : Nat) (held : List TreeId) : List TreeId :=
  ((List.range sys.trees.size).filter (sys.alive ({ held } : Store σ))).flatMap fun tree =>
    (List.range (last + 1)).map (sys.copyAt · tree)

/-! ## Resets with scalars -/

/-- Abandons the run of a tree's root, and of what it calls, at most so many levels deep. -/
def scalarResetRoot : (levels : Nat) → TreeId → (depth : Nat) → (fire : Bool) → Run (Store σ) μ σ Unit
  | 0, _, _, _ => throw .callLimit
  | levels + 1, tree, depth, fire =>
    (sys.rootOf { sys.resetLinks .plain (scalarResetRoot levels) with cell := Store.scalar } tree).reset depth fire

/-- Abandons the run of a tree's root, and of all that it calls. -/
def scalarResetAt (tree : TreeId) (depth : Nat) (fire : Bool) : Run (Store σ) μ σ Unit := fun m =>
  sys.scalarResetRoot (m.runs.height - depth + 1) tree depth fire m

/-- Abandons what top-level ticks of a tree left in progress. -/
def scalarReset (tree : TreeId) (fire : Bool) : Run (Store σ) μ σ Unit := sys.scalarResetAt tree 0 fire

/-! ## Ticks with scalars -/

/-- What a tick needs of the system, given how to tick the trees below. -/
def scalarLinks (host : Host (Store σ) μ σ) (below : TreeId → Run (Store σ) μ σ Status) : Links (Store σ) μ σ :=
  { sys.tickLinks .plain host below with
    cell := Store.scalar
    callee := fun tree => ⟨sys.nameOf tree, ⟨below tree, sys.scalarResetAt tree⟩⟩ }

/-- Ticks a tree's root in the context in place, at most so many levels deep. -/
def scalarTickRoot (host : Host (Store σ) μ σ) : (levels : Nat) → TreeId → Run (Store σ) μ σ Status
  | 0, _ => throw .callLimit
  | levels + 1, tree => inUse .plain tree (sys.rootOf (sys.scalarLinks host (scalarTickRoot host levels)) tree).tick

/-- Ticks a tree's root in the context in place. -/
def scalarTickHere (host : Host (Store σ) μ σ) (tree : TreeId) : Run (Store σ) μ σ Status := fun m =>
  sys.scalarTickRoot host (m.context.maxDepth - m.context.depth + 1) tree m

/-- Ticks a tree in a context of its own, over the layers of the context in place. -/
def scalarTickFresh (host : Host (Store σ) μ σ) (tree : TreeId) (tick : UInt64) (delta : Float32)
    (state : Option σ) : Run (Store σ) μ σ Status := do
  let outer ← Run.context
  Run.onContext fun _ => sys.freshContext tree tick delta state outer.layers
  let status ← sys.scalarTickHere host tree
  let inner ← Run.context
  Run.onContext fun _ => { outer with layers := inner.layers }
  Stage.plain.modifyStore (·.onProgress tree ({ · with overflow := inner.overflow }))
  return status

/-- Ticks a tree, of which this was known before. -/
def scalarTickAfter (before : Progress) (host : Host (Store σ) μ σ) (tree : TreeId) (delta : Float32)
    (state : Option σ) : Run (Store σ) μ σ Status := do
  if (sys.limitsOf tree).stackCapacity.isNone then
    sys.scalarTickFresh host tree before.ticks delta state
  else if before.busy then
    Run.report (.reentrantTick (sys.nameOf tree))
    return .failure
  else
    Stage.plain.modifyStore (·.onProgress tree ({ · with busy := true }))
    let status ← sys.scalarTickFresh host tree before.ticks delta state
    Stage.plain.modifyStore (·.onProgress tree ({ · with busy := false }))
    return status

/-- A top-level tick, which counts also when it is refused. -/
def scalarTickWith (host : Host (Store σ) μ σ) (tree : TreeId) (delta : Float32) (state : Option σ) :
    Run (Store σ) μ σ Status := do
  let before := (← get).runs.progress tree
  Stage.plain.modifyStore (·.onProgress tree ({ · with ticks := before.ticks + 1 }))
  sys.scalarTickAfter before host tree delta state

/-- How callbacks tick and reset trees, with so many ticks inside ticks left. -/
def scalarHost : (nesting : Nat) → Host (Store σ) μ σ
  | 0 => ⟨fun _ _ => throw .nestingLimit, sys.scalarReset⟩
  | nesting + 1 => ⟨fun tree delta => sys.scalarTickWith (scalarHost nesting) tree delta none, sys.scalarReset⟩

/-- Ticks a tree: a top-level tick over the layers in place. -/
def scalarTick (tree : TreeId) (delta : Float32) (state : Option σ) : Run (Store σ) μ σ Status :=
  sys.scalarTickWith (sys.scalarHost nestingBound) tree delta state

end System

end BehaviorTree
