/-
  BehaviorTree.Proofs.Conduct.Trees: nodes with all that is below keep to a conduct.

  If the callbacks of a system keep to a conduct, and its scopes do, then every node does, in
  ticks and in resets, as far down as its calls go. Scopes are left to the conduct: it may look
  at their hooks, or treat them as the other nodes (`Upheld.plain`).
-/

import BehaviorTree.Proofs.Conduct.Several
import BehaviorTree.Proofs.Place

namespace BehaviorTree

variable {ρ μ σ : Type} {sys : System μ σ} {stage : Stage ρ μ σ} {C : Conduct sys stage} {p : Place}
  {links : Links ρ μ σ}

/-- No scope. -/
def Node.Bare : Node μ σ → Prop
  | .scope _ _ => False
  | _ => True

namespace Conduct

/-- What the callbacks of a node do is as it should be; hooks of scopes are looked at elsewhere. -/
def Suits (C : Conduct sys stage) (p : Place) : Node μ σ → Prop
  | .action body => ∀ host, C.Heeds True p (body.run host)
  | .custom body onReset =>
    (∀ host, C.Heeds True p (body.run host)) ∧ ∀ depth fire x, C.spares x (onReset depth fire x)
  | .condition holds _ | .waitUntil holds _ | .guard holds _ => ∀ c x, C.spares x (holds c x).2
  | .selectOne (.custom pick complete) _ =>
    (∀ count x, C.spares x (pick count x).2) ∧ ∀ i x, C.spares x (complete i x)
  | .call source makeState =>
    (∀ provide, source = .provided provide → ∀ x, C.spares x (provide x).2) ∧
      ∀ make, makeState = some make → ∀ s x, C.spares x (make s x).2
  | _ => True

/-- The callbacks and the scopes of the system keep to the conduct, and what happens around its nodes does. -/
structure Upheld (C : Conduct sys stage) : Prop where
  suits : ∀ {p node}, sys.nodeAt p.site = some node → C.Suits p node
  owns : ∀ {p node}, sys.nodeAt p.site = some node → node.Bare → C.Owns p
  watched : ∀ {p node b}, sys.nodeAt p.site = some node → node.Bare → C.Fares p b →
    C.Fares p (stage.watch p.site b)
  scope : ∀ {p hooks child b} host, sys.nodeAt p.site = some (.scope hooks child) → C.Fares (p.inside 0) b →
    C.Fares p (stage.watch p.site (.scope (stage.cell p.site) host hooks b))

/-- Nothing happens around the nodes, and scopes are as other nodes. -/
theorem Upheld.plain (suits : ∀ {p node}, sys.nodeAt p.site = some node → C.Suits p node) (owns : ∀ p, C.Owns p)
    (watch : ∀ site b, stage.watch site b = b)
    (hooks : ∀ {p hooks child}, sys.nodeAt p.site = some (.scope hooks child) →
      (∀ host, C.Heeds True p (hooks.onEnter.run host)) ∧ ∀ st x, C.spares x (hooks.onExit st x)) : C.Upheld where
  suits := suits
  owns _ _ := owns _
  watched _ _ h := by rwa [watch]
  scope host here child := by
    rw [watch]
    exact (owns _).scope (child.inside here (Nat.succ_pos 0)) ((hooks here).1 host) (hooks here).2

/-- What the nodes find around them keeps to the conduct. -/
structure Around (C : Conduct sys stage) (links : Links ρ μ σ) : Prop where
  cell : links.cell = stage.cell
  chooser : links.chooser = stage.chooser
  watch : links.watch = stage.watch
  resolve : ∀ {p source makeState}, sys.nodeAt p.site = some (.call source makeState) →
    C.LooksUp p source (links.resolve source)
  callee : ∀ tree d, C.Fares ⟨[tree], d + 1⟩ (links.callee tree).root

/-! ## Nodes -/

theorem chooser_heeds {policy : Policy μ} {children : List (Node μ σ)}
    (suits : C.Suits p (.selectOne policy children)) :
    (∀ count, C.Heeds True p ((stage.chooser p.site policy).pick count)) ∧
      ∀ i, C.Heeds True p ((stage.chooser p.site policy).complete i) := by
  cases policy with
  | picker initial => exact ⟨fun _ => .store fun _ _ _ => rfl, fun _ => .store fun _ _ _ => rfl⟩
  | custom pick complete => exact ⟨fun _ => .consult fun _ => suits.1 _ _, fun _ => .remember fun _ => suits.2 _ _⟩

theorem Upheld.node (u : C.Upheld) (around : C.Around links) (node : Node μ σ) :
    ∀ site, sys.nodeAt site = some node → ∀ d, C.Fares ⟨site, d⟩ (node.behaviour links site) := by
  intro site here d
  induction here using System.nodeAt_upward with
  | step site node here below =>
  have one : ∀ child : Node μ σ, node.children[0]? = some child → C.Fares ⟨site, d⟩ (child.behaviour links (0 :: site)) :=
    fun child hc => (below 0 child hc).inside here (List.getElem?_eq_some_iff.mp hc).1
  have several : C.FaresAll ⟨site, d⟩ (Node.behaviours links site 0 node.children) :=
    Node.forall_behaviours fun i child hc => (below i child hc).inside here (List.getElem?_eq_some_iff.mp hc).1
  have suits := u.suits (p := ⟨site, d⟩) here
  have bare : node.Bare → ∀ b, (C.Owns ⟨site, d⟩ → C.Fares ⟨site, d⟩ b) → C.Fares ⟨site, d⟩ (stage.watch site b) :=
    fun bare b fares => u.watched (p := ⟨site, d⟩) here bare (fares (u.owns here bare))
  rw [Node.behaviour.eq_def, around.watch, around.cell]
  cases node
  case scope hooks child => exact u.scope (p := ⟨site, d⟩) links.host here (below 0 child rfl)
  all_goals refine bare trivial _ fun own => ?_
  case action => exact .ofTick (suits _)
  case custom => exact .custom (suits.1 _) suits.2
  case condition => exact own.condition suits
  case waitUntil => exact own.waitUntil suits
  case wait => exact own.wait
  case pause => exact own.pause
  case earlyReturn => exact .earlyReturn
  case invert child => exact own.invert (one child rfl)
  case force child => exact own.force (one child rfl)
  case guard child => exact own.guard (one child rfl) suits
  case repeatTimes child | retry child => exact own.iterate (one child rfl)
  case repeatUntil child => exact own.repeatUntil (one child rfl)
  case timeout child => exact own.timeout (one child rfl)
  case delay child => exact own.delay (one child rfl)
  case localScope child => exact own.localScope (one child rfl)
  case sequence | selector => exact own.inOrder several
  case reactiveSequence | reactiveSelector => exact own.reactive several
  case parallel => exact own.parallel several
  case join => exact own.join several
  case race => exact own.race several
  case selectOne =>
    rw [around.chooser]
    obtain ⟨picks, completes⟩ := chooser_heeds suits
    exact own.selectOne picks completes several
  case call => exact own.call here suits.2 (around.resolve here) fun tree => around.callee tree d

/-! ## Resets -/

theorem Upheld.rootOf (u : C.Upheld) (around : C.Around links) (tree : TreeId) (d : Nat) :
    C.Fares ⟨[tree], d⟩ (sys.rootOf links tree) := by
  unfold System.rootOf
  cases ht : sys.trees[tree]? with
  | none => exact .ofTick (.pure _)
  | some t => exact u.node around t.root [tree] (sys.nodeAt_root ht) d

/-- What abandoned runs find around them. -/
theorem Around.resets {below : TreeId → (depth : Nat) → (fire : Bool) → Run ρ μ σ Unit}
    (h : ∀ tree d fire, C.Heeds False ⟨[tree], d⟩ (below tree d fire)) : C.Around (sys.resetLinks stage below) where
  cell := rfl
  chooser := rfl
  watch := rfl
  resolve _ := ⟨.throw _, fun _ _ _ h => by cases h⟩
  callee tree d := ⟨.throw _, h tree (d + 1)⟩

theorem Upheld.resetRoot (u : C.Upheld) (levels : Nat) (tree : TreeId) (d : Nat) (fire : Bool) :
    C.Heeds False ⟨[tree], d⟩ (sys.resetRoot stage levels tree d fire) := by
  induction levels generalizing tree d fire with
  | zero => exact .throw _
  | succ levels ih => exact (u.rootOf (.resets ih) tree d).reset fire

theorem Upheld.resetAt (u : C.Upheld) (tree : TreeId) (d : Nat) (fire : Bool) :
    C.Heeds False ⟨[tree], d⟩ (sys.resetAt stage tree d fire) :=
  fun m ready => u.resetRoot ((stage.store m.runs).height - d + 1) tree d fire m ready

/-! ## Ticks -/

theorem Heeds.inUse {α : Type} {tree : TreeId} {a : Run ρ μ σ α} (h : C.Heeds True p a) :
    C.Heeds True p (System.inUse stage tree a) :=
  Heeds.bind (.store fun _ _ _ => rfl) fun _ => h.bind fun _ => Heeds.bind (.store fun _ _ _ => rfl) fun _ => .pure _

theorem Upheld.looksUp (u : C.Upheld) {source : Source μ} {makeState : Option (StateMaker μ σ)}
    (here : sys.nodeAt p.site = some (.call source makeState)) : C.LooksUp p source (sys.resolve stage source) := by
  rcases source with (tree | tree) | provide
  · exact ⟨.pure _, fun _ _ _ h => by cases h; rfl⟩
  · refine ⟨.reading, fun m found m' h => ?_⟩
    simp only [System.resolve, EStateM.Result.ok.injEq, ite_eq_iff] at h
    simp only [Source.Names]
    grind
  · refine ⟨.consult ((u.suits here).1 provide rfl), fun m found m' h => ⟨m.memory, ?_⟩⟩
    exact (Run.consult_eq_ok.mp h).1

/-- What ticks find around them. -/
theorem Around.ticks (u : C.Upheld) (host : Host ρ μ σ) {below : TreeId → Run ρ μ σ Status}
    (h : ∀ tree d, C.Heeds True ⟨[tree], d⟩ (below tree)) : C.Around (sys.tickLinks stage host below) where
  cell := rfl
  chooser := rfl
  watch := rfl
  resolve := u.looksUp
  callee tree d := ⟨h tree (d + 1), u.resetAt tree (d + 1)⟩

theorem Upheld.tickRoot (u : C.Upheld) (host : Host ρ μ σ) (levels : Nat) (tree : TreeId) (d : Nat) :
    C.Heeds True ⟨[tree], d⟩ (sys.tickRoot stage host levels tree) := by
  induction levels generalizing tree d with
  | zero => exact .throw _
  | succ levels ih => exact (u.rootOf (.ticks u host ih) tree d).tick.inUse

/-- Every node, in a tick in progress. -/
theorem Upheld.inTick (u : C.Upheld) (host : Host ρ μ σ) (levels : Nat) {site : Address} {node : Node μ σ}
    (here : sys.nodeAt site = some node) (d : Nat) :
    C.Fares ⟨site, d⟩ (node.behaviour (sys.tickLinks stage host (sys.tickRoot stage host levels)) site) :=
  u.node (.ticks u host (u.tickRoot host levels)) node site here d

/-- Every node, in a reset in progress. -/
theorem Upheld.inReset (u : C.Upheld) (levels : Nat) {site : Address} {node : Node μ σ}
    (here : sys.nodeAt site = some node) (d : Nat) :
    C.Fares ⟨site, d⟩ (node.behaviour (sys.resetLinks stage (sys.resetRoot stage levels)) site) :=
  u.node (.resets (u.resetRoot levels)) node site here d

end Conduct

end BehaviorTree
