/-
  BehaviorTree.System: trees that call one another.

  A system is a table of trees. The references between trees may form cycles, so neither
  ticks nor resets follow the structure of a tree alone. They go down by levels:
  - a tick may go as many calls deep as its context allows, which `tickRoot` counts down;
    the recursion guard refuses a call before the levels run out;
  - a reset goes from a call to the tree that it was running one depth further down, and
    forgets the call on the way, so the height of the store bounds it (`reset`).
  Ticks that callbacks start inside ticks have a fixed bound of their own (`nestingBound`).

  A tree that only weak handles refer to is gone. `alive` tells which trees are not: those
  held from outside or used by a tick in progress, and those that a strong handle or an
  unfinished call refers to, in such a tree, in a node that is kept from outside, or in a
  tree that is there for this reason itself.
-/

import BehaviorTree.Node.Behaviour

namespace BehaviorTree

/-- A table of trees. -/
structure System (μ σ : Type) where
  trees : Array (Tree μ σ)

namespace System

variable {ρ μ σ : Type} (sys : System μ σ)

/-! ## Which trees are available -/

/-- The trees that a call node refers to strongly: by its handle, and by its unfinished calls. -/
def targets (s : Store σ) (site : Address) (source : Source μ) : List TreeId :=
  let fixed := match source with
    | .fixed (.strong tree) => [tree]
    | _ => []
  let unfinished := (s.slotsAt site).cells.toList.filterMap fun
    | .call tree _ => some tree
    | _ => none
  fixed ++ unfinished

/-- The calls in the node at an address, with their addresses. -/
def callsBelow (site : Address) : List (Address × Source μ) :=
  match site.getLast? with
  | none => []
  | some tree => match sys.trees[tree]? with
    | none => []
    | some t => (t.root.calls [tree]).filter fun (caller, _) => site.isSuffixOf caller

/-- The trees that the node at an address refers to strongly, with all that is below it. -/
def owned (s : Store σ) (site : Address) : List TreeId :=
  (sys.callsBelow site).flatMap fun (caller, source) => targets s caller source

/-- A tree is used from outside the trees. -/
def anchored (s : Store σ) (tree : TreeId) : Bool := s.held.contains tree || s.running.contains tree

/-- Lets go of trees that nothing refers to, `rounds` times. -/
def prune (s : Store σ) : (rounds : Nat) → List TreeId → List TreeId
  | 0, trees => trees
  | rounds + 1, trees =>
    let referred := (trees.map ([·]) ++ s.kept).flatMap (sys.owned s)
    prune s rounds (trees.filter fun tree => anchored s tree || referred.contains tree)

/-- The tree is still available through weak handles. -/
def alive (s : Store σ) (tree : TreeId) : Bool :=
  anchored s tree || (sys.prune s sys.trees.size (List.range sys.trees.size)).contains tree

variable (stage : Stage ρ μ σ)

/-- The tree that a call starts with. -/
def resolve : Source μ → Run ρ μ σ (Option TreeId)
  | .fixed (.strong tree) => pure (some tree)
  | .fixed (.weak tree) => fun m =>
    .ok (if sys.alive (stage.store m.runs) tree then some tree else none) m
  | .provided provide => Run.consult provide

/-! ## Resets -/

/-- The name of a tree. -/
def nameOf (tree : TreeId) : String :=
  match sys.trees[tree]? with
  | some t => t.name
  | none => ""

/-- The behaviour of the root of a tree; a number that names no tree stands for one that fails. -/
def rootOf (links : Links ρ μ σ) (tree : TreeId) : Behaviour ρ μ σ :=
  match sys.trees[tree]? with
  | some t => t.root.behaviour links [tree]
  | none => .ofTick (pure .failure)

/-- What a reset needs of the system: the resets of the trees below. -/
def resetLinks (below : TreeId → (depth : Nat) → (fire : Bool) → Run ρ μ σ Unit) :
    Links ρ μ σ where
  cell := stage.cell
  chooser := stage.chooser
  watch := stage.watch
  host := ⟨fun _ _ => throw .callLimit, fun _ _ => throw .callLimit⟩
  resolve _ := throw .callLimit
  callee tree := ⟨sys.nameOf tree, ⟨throw .callLimit, below tree⟩⟩

/-- Abandons the run of a tree's root at a depth, and of what it calls, at most so many levels
deep. -/
def resetRoot : (levels : Nat) → TreeId → (depth : Nat) → (fire : Bool) → Run ρ μ σ Unit
  | 0, _, _, _ => throw .callLimit
  | levels + 1, tree, depth, fire =>
    (sys.rootOf (sys.resetLinks stage (resetRoot levels)) tree).reset depth fire

/-- Abandons the run of a tree's root at a depth, and of all that it calls. -/
def resetAt (tree : TreeId) (depth : Nat) (fire : Bool) : Run ρ μ σ Unit := fun m =>
  sys.resetRoot stage ((stage.store m.runs).height - depth + 1) tree depth fire m

/-- Abandons what top-level ticks of a tree left in progress. -/
def reset (tree : TreeId) (fire : Bool) : Run ρ μ σ Unit :=
  sys.resetAt stage tree 0 fire

/-! ## Ticks -/

/-- Runs an action, with a tree in use meanwhile. -/
def inUse {α : Type} (tree : TreeId) (action : Run ρ μ σ α) : Run ρ μ σ α := do
  stage.modifyStore fun s => { s with running := tree :: s.running }
  let result ← action
  stage.modifyStore fun s => { s with running := s.running.tail }
  return result

/-- What a tick needs of the system, given how to tick the trees below. -/
def tickLinks (host : Host ρ μ σ) (below : TreeId → Run ρ μ σ Status) :
    Links ρ μ σ where
  cell := stage.cell
  chooser := stage.chooser
  watch := stage.watch
  host
  resolve := sys.resolve stage
  callee tree := ⟨sys.nameOf tree, ⟨below tree, sys.resetAt stage tree⟩⟩

/-- Ticks a tree's root in the context in place, at most so many levels deep. -/
def tickRoot (host : Host ρ μ σ) : (levels : Nat) → TreeId → Run ρ μ σ Status
  | 0, _ => throw .callLimit
  | levels + 1, tree =>
    inUse stage tree (sys.rootOf (sys.tickLinks stage host (tickRoot host levels)) tree).tick

/-- Ticks a tree's root in the context in place. -/
def tickHere (host : Host ρ μ σ) (tree : TreeId) : Run ρ μ σ Status := fun m =>
  sys.tickRoot stage host (m.context.maxDepth - m.context.depth + 1) tree m

/-- The limits of a tree. -/
def limitsOf (tree : TreeId) : Limits :=
  match sys.trees[tree]? with
  | some t => t.limits
  | none => {}

/-- The context that a top-level tick starts in. -/
def freshContext (tree : TreeId) (tick : UInt64) (delta : Float32) (state : Option σ)
    (layers : Layers) : Context σ :=
  let limits := sys.limitsOf tree
  { tick, delta, layers, state
    stack := limits.stackCapacity.map fun capacity => { capacity := capacity.toNat }
    maxDepth := limits.maxCallDepth.toNat }

/-- Ticks a tree in a context of its own, over the layers of the context in place. -/
def tickFresh (host : Host ρ μ σ) (tree : TreeId) (tick : UInt64) (delta : Float32)
    (state : Option σ) : Run ρ μ σ Status := do
  let outer ← Run.context
  Run.onContext fun _ => sys.freshContext tree tick delta state outer.layers
  let status ← sys.tickHere stage host tree
  let inner ← Run.context
  Run.onContext fun _ => { outer with layers := inner.layers }
  stage.modifyStore (·.onProgress tree ({ · with overflow := inner.overflow }))
  return status

/-- Ticks a tree, of which this was known before. The tick is refused while an earlier one is using the
tree's call stack. -/
def tickAfter (before : Progress) (host : Host ρ μ σ) (tree : TreeId) (delta : Float32) (state : Option σ) :
    Run ρ μ σ Status := do
  if (sys.limitsOf tree).stackCapacity.isNone then
    sys.tickFresh stage host tree before.ticks delta state
  else if before.busy then
    Run.report (.reentrantTick (sys.nameOf tree))
    return .failure
  else
    stage.modifyStore (·.onProgress tree ({ · with busy := true }))
    let status ← sys.tickFresh stage host tree before.ticks delta state
    stage.modifyStore (·.onProgress tree ({ · with busy := false }))
    return status

/-- A top-level tick, which counts also when it is refused. -/
def tickWith (host : Host ρ μ σ) (tree : TreeId) (delta : Float32) (state : Option σ) :
    Run ρ μ σ Status := do
  let before := (stage.store (← get).runs).progress tree
  stage.modifyStore (·.onProgress tree ({ · with ticks := before.ticks + 1 }))
  sys.tickAfter stage before host tree delta state

/-- How callbacks tick and reset trees, with so many ticks inside ticks left. -/
def nestedHost : (nesting : Nat) → Host ρ μ σ
  | 0 => ⟨fun _ _ => throw .nestingLimit, fun tree fire => sys.reset stage tree fire⟩
  | nesting + 1 =>
    ⟨fun tree delta => sys.tickWith stage (nestedHost nesting) tree delta none,
      fun tree fire => sys.reset stage tree fire⟩

/-- How many ticks may be in progress inside one another. -/
def nestingBound : Nat := 1000000

/-- What callbacks can do to the trees of the system. -/
def host : Host ρ μ σ := sys.nestedHost stage nestingBound

/-- Ticks a tree: a top-level tick over the layers in place. -/
def tick (tree : TreeId) (delta : Float32) (state : Option σ) : Run ρ μ σ Status :=
  sys.tickWith stage (sys.host stage) tree delta state

end System

end BehaviorTree
