/-
  BehaviorTree.Proofs.Lending.Trees: nodes and trees see the states in force.

  A node that is no call passes on to its children the state that it sees itself, and to ticks that
  its callbacks start it passes none on. A call passes on the state that it lends, or its own if it
  lends none. So every tick of a tree that sees the state in force tells of nodes that do
  (`tickRoot_lends`), and a tick in a context of its own sees the state that it is given
  (`tickWith_lends`). Resets see no states, and tell of no stays.
-/

import BehaviorTree.Proofs.Lending.Calls

namespace BehaviorTree

open Recorded (scene add)

namespace System

variable {μ σ : Type} {sys : System μ σ} {given : Option σ} {ticking : Prop} {o : Outlook μ σ}
  {links : Links (Recorded μ σ) μ σ} {host : Host (Recorded μ σ) μ σ}

/-- Ticks that callbacks start see the states in force, where none is lent to them. -/
def HostLends (sys : System μ σ) (given : Option σ) (host : Host (Recorded μ σ) μ σ) : Prop :=
  ∀ o : Outlook μ σ, (∀ tree, sys.stateAt given [tree] o.stays = none) → (sys.lending given o).Hosts host

/-- What the nodes find around them: called trees see the states in force, and so do ticks that callbacks start. -/
structure LendsOn (sys : System μ σ) (given : Option σ) (ticking : Prop) (links : Links (Recorded μ σ) μ σ) : Prop where
  cell : links.cell = Stage.recording.cell
  chooser : links.chooser = Stage.recording.chooser
  watch : links.watch = Stage.recording.watch
  host : ticking → sys.HostLends given links.host
  resolve : ticking → ∀ source, links.resolve source = sys.resolve .recording source
  callee : ∀ o tree, (sys.lending given o).Tends (ticking ∧ o.state = sys.stateAt given [tree] o.stays)
    (links.callee tree).root

theorem node_lends (around : sys.LendsOn given ticking links) (node : Node μ σ) :
    ∀ site o, sys.nodeAt site = some node →
    (sys.lending given o).Tends (ticking ∧ o.state = sys.stateAt given site o.stays) (node.behaviour links site) := by
  intro site o here
  induction here using nodeAt_upward generalizing o with
  | step site node here ih =>
  by_cases call : ∃ source makeState, node = .call source makeState
  · obtain ⟨source, makeState, rfl⟩ := call
    rw [Node.behaviour.eq_def, around.watch, around.cell]
    exact lending_call here (fun t => around.resolve t source) around.callee
  have plain : ∀ source makeState, node ≠ .call source makeState :=
    fun source makeState is => call ⟨source, makeState, is⟩
  have unlent : ∀ source make, sys.nodeAt site ≠ some (.call source (some make)) :=
    fun source make is => plain source _ (Option.some.inj (here.symm.trans is))
  -- what the node does inside, seen from wherever it stands then
  have inside : ∀ (due : Prop) (o : Outlook μ σ), (due → ticking ∧ (∀ tree, sys.stateAt given [tree] o.stays = none) ∧
      ∀ i, o.state = sys.stateAt given (i :: site) o.stays) →
      ∃ b, node.behaviour links site = Stage.recording.watch site b ∧ (sys.lending given o).Tends due b := by
    intro due o sees
    rw [← around.watch]
    exact lending_open.node_tends node (around.cell ▸ lending_owns unlent)
      (fun t => around.host (sees t).1 o (sees t).2.1) (fun _ _ _ => around.chooser ▸ lending_chooses)
      (fun _ _ is => absurd is (plain _ _))
      fun i child hc => (ih i child hc o).mono fun t => ⟨(sees t).1, (sees t).2.2 i⟩
  have noted : ∀ {x : Moment μ σ} {m}, (∀ p, x.At p → p.site = site) → sys.Lends m.runs → sys.Lends (add x m).runs :=
    fun there lends => lends.add fun p source make hp => there p hp ▸ unlent source make
  constructor
  · rintro ⟨t, sees⟩ m held
    let stay : Stay μ σ := .of m.runs.history site (scene m)
    obtain ⟨b, same, tends⟩ := inside True (o.within site m) fun _ => by
      refine ⟨t, fun tree => ?_, fun i => ?_⟩
      · exact (stateAt_within stay here plain).trans (if_neg fun root => sys.nodeAt_ne_nil here root.symm)
      · exact sees.trans ((stateAt_within stay here plain).trans (if_pos rfl)).symm
    rw [same]
    refine stay_lends held.1 sees ?_
    have entered : (sys.lending given (o.within site m)).holds (add (.entered site (scene m)) m) :=
      ⟨⟨held.1.depth, held.1.state, [], (List.append_nil _).symm, .nil⟩,
        noted (fun p hp => congrArg Place.site hp.symm) held.2⟩
    exact (tends.tick trivial _ entered).mono
      (fun st n came => ⟨came.2.1, noted (fun p hp => congrArg Place.site hp.symm) came.2.2⟩) fun _ _ => id
  · intro d fire m held
    obtain ⟨b, same, tends⟩ := inside False o False.elim
    rw [same, recording_reset]
    exact tends.reset d fire _ ⟨held.1.abandoned site d fire, noted (fun p hp => congrArg Place.site hp.symm) held.2⟩

theorem rootOf_lends (around : sys.LendsOn given ticking links) (o : Outlook μ σ) (tree : TreeId) :
    (sys.lending given o).Tends (ticking ∧ o.state = sys.stateAt given [tree] o.stays) (sys.rootOf links tree) := by
  unfold rootOf
  cases ht : sys.trees[tree]? with
  | none => exact .ofTick fun _ => .pure _
  | some t => exact node_lends around t.root [tree] o (sys.nodeAt_root ht)

/-! ## Resets -/

theorem resets_lend {below : TreeId → (depth : Nat) → (fire : Bool) → Run (Recorded μ σ) μ σ Unit}
    (h : ∀ o tree d fire, (sys.lending given o).Keeps (below tree d fire)) :
    sys.LendsOn given False (sys.resetLinks .recording below) where
  cell := rfl
  chooser := rfl
  watch := rfl
  host := False.elim
  resolve := False.elim
  callee o tree := ⟨fun due => due.1.elim, h o tree⟩

theorem resetRoot_lends (levels : Nat) (o : Outlook μ σ) (tree : TreeId) (d : Nat) (fire : Bool) :
    (sys.lending given o).Keeps (sys.resetRoot .recording levels tree d fire) := by
  induction levels generalizing o tree d fire with
  | zero => exact .throw (lending_allows _)
  | succ levels ih => exact (rootOf_lends (resets_lend ih) o tree).reset d fire

theorem resetAt_lends (o : Outlook μ σ) (tree : TreeId) (d : Nat) (fire : Bool) :
    (sys.lending given o).Keeps (sys.resetAt .recording tree d fire) :=
  fun m => resetRoot_lends ((Stage.recording.store m.runs).height - d + 1) o tree d fire m

/-! ## Ticks -/

theorem ticks_lend (hosts : sys.HostLends given host) {below : TreeId → Run (Recorded μ σ) μ σ Status}
    (h : ∀ o tree, o.state = sys.stateAt given [tree] o.stays → (sys.lending given o).Keeps (below tree)) :
    sys.LendsOn given True (sys.tickLinks .recording host below) where
  cell := rfl
  chooser := rfl
  watch := rfl
  host _ := hosts
  resolve _ _ := rfl
  callee o tree := ⟨fun due => h o tree due.2, resetAt_lends o tree⟩

theorem tickRoot_lends (hosts : sys.HostLends given host) (levels : Nat) (o : Outlook μ σ) (tree : TreeId)
    (sees : o.state = sys.stateAt given [tree] o.stays) :
    (sys.lending given o).Keeps (sys.tickRoot .recording host levels tree) := by
  induction levels generalizing o tree with
  | zero => exact .throw (lending_allows _)
  | succ levels ih => exact .inUse ((rootOf_lends (ticks_lend hosts ih) o tree).tick ⟨trivial, sees⟩)

/-- A context of its own shows the state that the tick is given. -/
theorem tickFresh_lends (hosts : sys.HostLends given host) {tree : TreeId} {tick : UInt64} {delta : Float32}
    {state : Option σ} (sees : state = sys.stateAt given [tree] o.stays) :
    (sys.lending given o).Keeps (sys.tickFresh .recording host tree tick delta state) := by
  intro m held
  let own : Outlook μ σ := { o with depth := 0, state }
  have fresh : (sys.lending given own).holds
      { m with context := sys.freshContext tree tick delta state m.context.layers } :=
    ⟨⟨rfl, rfl, held.1.told⟩, held.2⟩
  have ticks : (sys.lending given own).Keeps (sys.tickHere .recording host tree) := fun m =>
    tickRoot_lends hosts (m.context.maxDepth - m.context.depth + 1) own tree sees m
  show Run.Ends _ _ ((sys.tickHere .recording host tree >>= _) _)
  refine Run.Ends.bind (ticks _ fresh) fun status n came => ?_
  exact .ok ⟨trivial, ⟨held.1.depth, held.1.state, came.2.1.told⟩, came.2.2.of_same (fun _ => rfl) rfl⟩

theorem tickWith_lends (hosts : sys.HostLends given host) {tree : TreeId} {delta : Float32} {state : Option σ}
    (sees : state = sys.stateAt given [tree] o.stays) :
    (sys.lending given o).Keeps (sys.tickWith .recording host tree delta state) := by
  have noted : ∀ f : Progress → Progress,
      (sys.lending given o).Keeps (Stage.recording.modifyStore (μ := μ) (σ := σ) (·.onProgress tree f)) :=
    fun f => .modifyStore (fun _ _ => rfl) fun _ => rfl
  have fresh : ∀ tick, (sys.lending given o).Keeps (sys.tickFresh .recording host tree tick delta state) :=
    fun tick => tickFresh_lends hosts sees
  refine Upkeep.Keeps.reading.bind fun m => (noted _).bind fun _ => ?_
  refine .ite (fresh _) (.ite (Upkeep.Keeps.report.bind fun _ => .pure _) ?_)
  exact (noted _).bind fun _ => (fresh _).bind fun _ => (noted _).bind fun _ => .pure _

theorem nestedHost_lends (nesting : Nat) : sys.HostLends given (sys.nestedHost .recording nesting) := by
  induction nesting with
  | zero => exact fun o _ => ⟨fun _ _ => .throw (lending_allows _), fun tree fire => resetAt_lends o tree 0 fire⟩
  | succ nesting ih =>
    exact fun o unlent =>
      ⟨fun tree delta => tickWith_lends ih (unlent tree).symm, fun tree fire => resetAt_lends o tree 0 fire⟩

end System

end BehaviorTree
