/-
  BehaviorTree.Proofs.Upkeep.Trees: callbacks, nodes and trees keep up what they are made of.

  A callback keeps a property up if the ticks and resets that it starts do, and a node does if its
  children do (`node_tends`). What nodes do to the layers must not matter then. If nothing of the
  context matters, all else follows, over all trees and however deep ticks are nested (`Upheld`).
-/

import BehaviorTree.Proofs.Place
import BehaviorTree.Proofs.Upkeep.Behaviours

namespace BehaviorTree

variable {ρ μ σ α : Type} {sys : System μ σ} {stage : Stage ρ μ σ} {U : Upkeep stage} {links : Links ρ μ σ}
  {host : Host ρ μ σ}

namespace Upkeep

/-- Nodes may do to the layers what they like, and put out events. -/
structure Open (U : Upkeep stage) : Prop where
  layered : U.Layered
  mismatch : ∀ id, U.Allows (.typeMismatch id)

/-- Ticks and resets that callbacks start keep it up. -/
structure Hosts (U : Upkeep stage) (host : Host ρ μ σ) : Prop where
  tick : ∀ tree delta, U.Keeps (host.tickTree tree delta)
  reset : ∀ tree fire, U.Keeps (host.resetTree tree fire)

theorem Open.tells (opened : U.Open) (tags : List String) : U.Tells tags := opened.layered.tells opened.mismatch tags

theorem Open.callback (opened : U.Open) (hosts : U.Hosts host) (body : Callback μ σ α) :
    U.Keeps (body.run host) := by
  induction body with
  | done x => exact .pure x
  | look next ih => exact fun m => ih m.context m.memory m
  | remember f next ih => exact Keeps.remember.bind fun _ => ih
  | edit reach e next ih => exact opened.layered.onContext.bind fun _ => ih
  | setGlobal t id x next ih => exact opened.layered.onContext.bind fun _ => ih
  | requestReturn s next ih => exact Keeps.requestReturn.bind fun _ => ih
  | takeReturn next ih => exact Keeps.takeReturn.bind ih
  | takeOverflow next ih => exact Keeps.takeOverflow.bind ih
  | trace tag x y next ih => exact (opened.layered.trace opened.mismatch).bind fun _ => ih
  | tickTree tree delta next ih => exact (hosts.tick tree delta).bind ih
  | resetTree tree fire next ih => exact (hosts.reset tree fire).bind fun _ => ih

theorem Keeps.resolve {source : Source μ} : U.Keeps (sys.resolve stage source) := by
  rcases source with (tree | tree) | provide
  · exact .pure _
  · exact .reading
  · exact .consult

/-- Whoever chooses among so many children keeps it up, and names one of them or else is found out. -/
structure Chooses (U : Upkeep stage) (chooser : Chooser ρ μ σ) (count : Nat) : Prop where
  picks : U.Yields (fun found => ∀ i, found = some i → U.Permits count i) (chooser.pick count)
  completes : ∀ i, U.Keeps (chooser.complete i)

/-- A node, without what happens around it. -/
theorem Open.node_tends (opened : U.Open) {ticking : Prop} (node : Node μ σ) {site : Address}
    (own : U.Owns (links.cell site) node.children.length) (hosts : ticking → U.Hosts links.host)
    (chooses : ∀ policy children, node = .selectOne policy children →
      U.Chooses (links.chooser site policy) children.length)
    (calls : ∀ source makeState, node = .call source makeState →
      U.Tends ticking (.call (links.cell site) (links.resolve source) makeState links.callee))
    (below : ∀ i (child : Node μ σ), node.children[i]? = some child →
      U.Tends ticking (child.behaviour links (i :: site))) :
    ∃ b, node.behaviour links site = links.watch site b ∧ U.Tends ticking b := by
  have one : ∀ child : Node μ σ, node.children[0]? = some child →
      U.Tends ticking (child.behaviour links (0 :: site)) := below 0
  have several : ∀ b ∈ Node.behaviours links site 0 node.children, U.Tends ticking b := Node.forall_behaviours below
  have among : U.Owns (links.cell site) (Node.behaviours links site 0 node.children).length := by
    rwa [Node.behaviours_length]
  rw [Node.behaviour.eq_def]
  refine ⟨_, rfl, ?_⟩
  cases node
  case action => exact .ofTick fun t => opened.callback (hosts t) _
  case custom => exact .custom fun t => opened.callback (hosts t) _
  case condition => exact own.condition
  case waitUntil => exact own.waitUntil
  case wait => exact own.wait
  case pause => exact own.pause
  case earlyReturn => exact .earlyReturn (opened.tells _)
  case invert child => exact own.invert (one child rfl)
  case force child => exact own.force (one child rfl)
  case guard child => exact own.guard (one child rfl)
  case repeatTimes child | retry child => exact own.iterate (one child rfl)
  case repeatUntil child => exact own.repeatUntil (one child rfl)
  case timeout child => exact own.timeout (one child rfl)
  case delay child => exact own.delay (one child rfl)
  case scope hooks child => exact own.scope (one child rfl) (opened.tells _) fun t => opened.callback (hosts t) _
  case localScope child => exact own.localScope (one child rfl) opened.layered
  case sequence | selector => exact among.inOrder several
  case reactiveSequence | reactiveSelector => exact among.reactive several
  case parallel => exact among.parallel several
  case join => exact among.join several
  case race => exact among.race several
  case selectOne policy children =>
    have chosen := chooses policy children rfl
    refine among.selectOne ?_ chosen.completes several
    rw [Node.behaviours_length]
    exact chosen.picks
  case call source makeState => exact calls source makeState rfl

theorem Keeps.inUse {a : Run ρ μ σ α} {tree : TreeId} (work : U.Keeps a) : U.Keeps (System.inUse stage tree a) :=
  .bind (.modifyStore (fun _ _ => rfl) fun _ => rfl) fun _ => work.bind fun _ =>
    .bind (.modifyStore (fun _ _ => rfl) fun _ => rfl) fun _ => .pure _

/-! ## If nothing of the context matters -/

/-- What nodes do by themselves keeps it up, and so does what happens around them. -/
structure Upheld (U : Upkeep stage) (sys : System μ σ) : Prop where
  unbound : U.Unbound
  allows : ∀ {e}, (∀ count i, e ≠ .noSuchChild count i) → U.Allows e
  owns : ∀ {site node}, sys.nodeAt site = some node → U.Owns (stage.cell site) node.children.length
  chooses : ∀ {site policy children}, sys.nodeAt site = some (.selectOne policy children) →
    U.Chooses (stage.chooser site policy) children.length
  watched : ∀ {site b}, U.Tends True b → U.Tends True (stage.watch site b)

/-- What the nodes find around them keeps it up. -/
structure Around (U : Upkeep stage) (links : Links ρ μ σ) : Prop where
  cell : links.cell = stage.cell
  chooser : links.chooser = stage.chooser
  watch : links.watch = stage.watch
  host : U.Hosts links.host
  resolve : ∀ source, U.Keeps (links.resolve source)
  callee : ∀ tree, U.Tends True (links.callee tree).root

namespace Upheld

variable (upheld : U.Upheld sys)
include upheld

theorem opened : U.Open := ⟨upheld.unbound.layered, fun id => upheld.allows (by simp)⟩

theorem node (around : U.Around links) (node : Node μ σ) :
    ∀ site, sys.nodeAt site = some node → U.Tends True (node.behaviour links site) := by
  intro site here
  induction here using System.nodeAt_upward with
  | step site node here below =>
  have own : U.Owns (links.cell site) node.children.length := around.cell ▸ upheld.owns here
  obtain ⟨b, same, tends⟩ := upheld.opened.node_tends node own (fun _ => around.host)
    (fun policy children is => around.chooser ▸ upheld.chooses (is ▸ here))
    (fun source makeState _ => own.call upheld.unbound (upheld.opened.tells _) (fun _ => around.resolve source) around.callee)
    below
  rw [same, around.watch]
  exact upheld.watched tends

theorem rootOf (around : U.Around links) (tree : TreeId) : U.Tends True (sys.rootOf links tree) := by
  unfold System.rootOf
  cases ht : sys.trees[tree]? with
  | none => exact .ofTick fun _ => .pure _
  | some t => exact upheld.node around t.root [tree] (sys.nodeAt_root ht)

theorem resets {below : TreeId → (depth : Nat) → (fire : Bool) → Run ρ μ σ Unit}
    (h : ∀ tree d fire, U.Keeps (below tree d fire)) : U.Around (sys.resetLinks stage below) where
  cell := rfl
  chooser := rfl
  watch := rfl
  host := ⟨fun _ _ => .throw (upheld.allows (by simp)), fun _ _ => .throw (upheld.allows (by simp))⟩
  resolve _ := .throw (upheld.allows (by simp))
  callee tree := ⟨fun _ => .throw (upheld.allows (by simp)), h tree⟩

theorem resetRoot (levels : Nat) (tree : TreeId) (d : Nat) (fire : Bool) :
    U.Keeps (sys.resetRoot stage levels tree d fire) := by
  induction levels generalizing tree d fire with
  | zero => exact .throw (upheld.allows (by simp))
  | succ levels ih => exact (upheld.rootOf (upheld.resets ih) tree).reset d fire

theorem resetAt (tree : TreeId) (d : Nat) (fire : Bool) : U.Keeps (sys.resetAt stage tree d fire) :=
  fun m => upheld.resetRoot ((stage.store m.runs).height - d + 1) tree d fire m

theorem ticks (hosts : U.Hosts host) {below : TreeId → Run ρ μ σ Status} (h : ∀ tree, U.Keeps (below tree)) :
    U.Around (sys.tickLinks stage host below) where
  cell := rfl
  chooser := rfl
  watch := rfl
  host := hosts
  resolve _ := .resolve
  callee tree := ⟨fun _ => h tree, upheld.resetAt tree⟩

theorem tickRoot (hosts : U.Hosts host) (levels : Nat) (tree : TreeId) :
    U.Keeps (sys.tickRoot stage host levels tree) := by
  induction levels generalizing tree with
  | zero => exact .throw (upheld.allows (by simp))
  | succ levels ih => exact .inUse ((upheld.rootOf (upheld.ticks hosts ih) tree).tick trivial)

theorem tickHere (hosts : U.Hosts host) (tree : TreeId) : U.Keeps (sys.tickHere stage host tree) :=
  fun m => upheld.tickRoot hosts (m.context.maxDepth - m.context.depth + 1) tree m

theorem tickWith (hosts : U.Hosts host) (tree : TreeId) (delta : Float32) (state : Option σ) :
    U.Keeps (sys.tickWith stage host tree delta state) := by
  have noted : ∀ f : Progress → Progress, U.Keeps (stage.modifyStore (μ := μ) (·.onProgress tree f)) :=
    fun f => .modifyStore (fun _ _ => rfl) fun _ => rfl
  have fresh : ∀ tick, U.Keeps (sys.tickFresh stage host tree tick delta state) := fun tick =>
    Keeps.reading.bind fun _ => upheld.unbound.onContext.bind fun _ => (upheld.tickHere hosts tree).bind fun _ =>
      Keeps.reading.bind fun _ => upheld.unbound.onContext.bind fun _ => (noted _).bind fun _ => .pure _
  refine Keeps.reading.bind fun m => (noted _).bind fun _ => ?_
  refine Keeps.ite (fresh _) (Keeps.ite (Keeps.report.bind fun _ => .pure _) ?_)
  exact (noted _).bind fun _ => (fresh _).bind fun _ => (noted _).bind fun _ => .pure _

/-- Callbacks may tick and reset trees. -/
theorem nestedHost (nesting : Nat) : U.Hosts (sys.nestedHost stage nesting) := by
  induction nesting with
  | zero => exact ⟨fun _ _ => .throw (upheld.allows (by simp)), fun tree fire => upheld.resetAt tree 0 fire⟩
  | succ nesting ih =>
    exact ⟨fun tree delta => upheld.tickWith ih tree delta none, fun tree fire => upheld.resetAt tree 0 fire⟩

/-- Top-level ticks. -/
theorem tick (tree : TreeId) (delta : Float32) (state : Option σ) : U.Keeps (sys.tick stage tree delta state) :=
  upheld.tickWith (upheld.nestedHost System.nestingBound) tree delta state

end Upheld

end Upkeep

end BehaviorTree
