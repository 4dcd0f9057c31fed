/-
  BehaviorTree.Proofs.Unroll.Nodes: the nodes of a tree, and those of a copy.

  A node that is ticked or abandoned at the depth of a copy goes in lockstep with the same node
  of the copy (`layered_node`), by induction over the tree. Only calls lead to another depth.
-/

import BehaviorTree.Proofs.Lockstep.Cases
import BehaviorTree.Proofs.Unroll.Calls

namespace BehaviorTree.System

variable {μ σ : Type}

/-- What the nodes of a tree find around them at one depth, and those of its copy for this depth. -/
structure Surrounds (sys : System μ σ) (last : Nat) (held : List TreeId) (kind : TreeId → Prop) (layer tree : Nat)
    (links links' : Links (Store σ) μ σ) : Prop where
  cell : links.cell = Stage.plain.cell (μ := μ)
  cell' : links'.cell = Store.scalar
  chooser : links.chooser = Stage.plain.chooser
  chooser' : links'.chooser = Stage.plain.chooser
  watch : links.watch = Stage.plain.watch
  watch' : links'.watch = Stage.plain.watch
  host : ∀ d, links.host.Lock Always (sys.Unrolls last held Bound) d kind links'.host
  resolve : ∀ {w source makeState}, sys.nodeAt (w ++ [tree]) = some (.call source makeState) →
    sys.LooksUp last held layer (links.resolve source)
      (links'.resolve (source.mapTrees (sys.copyAt (min (layer + 1) last))))
  calls : sys.CallsOn last held layer links.callee links'.callee

variable {sys : System μ σ} {last layer tree : Nat} {held : List TreeId} {kind : TreeId → Prop}
  {links links' : Links (Store σ) μ σ}

theorem pinned_host {host host' : Host (Store σ) μ σ} {d : Nat}
    (h : host.Lock Always (sys.Unrolls last held Bound) d kind host') :
    host.Lock Always (sys.AtLayer last held layer d) d kind host' where
  tick tree delta known := pinned_lock fun _ => h.tick tree delta known
  reset tree fire known := pinned_lock fun _ => h.reset tree fire known

/-- Every node goes in lockstep with the same node of the copy. -/
theorem layered_node (static : sys.Static) (callbacks : ∀ site node, sys.nodeAt site = some node → node.CallsBack kind)
    (known : tree < sys.trees.size) (within : layer ≤ last)
    (around : sys.Surrounds last held kind layer tree links links') (node : Node μ σ) : ∀ w,
    sys.nodeAt (w ++ [tree]) = some node →
      Locked Always (sys.AtLayer last held layer) (node.behaviour links (w ++ [tree]))
        ((node.mapTrees (sys.copyAt (min (layer + 1) last))).behaviour links' (w ++ [sys.copyAt layer tree])) := by
  induction node using Node.induction with
  | step node ih =>
    intro w here
    have below : ∀ i (child : Node μ σ), node.children[i]? = some child → Locked Always (sys.AtLayer last held layer)
        (child.behaviour links (i :: (w ++ [tree])))
        ((child.mapTrees (sys.copyAt (min (layer + 1) last))).behaviour links' (i :: (w ++ [sys.copyAt layer tree]))) :=
      fun i child hc => ih child (List.mem_of_getElem? hc) (i :: w) (sys.nodeAt_child here hc)
    have companions : Companions Always sys.original (sys.AtLayer last held layer) (sys.AtLayer last held layer)
        (sys.AtLayer last held layer) kind links links' (w ++ [tree]) (w ++ [sys.copyAt layer tree]) id
        (sys.copyAt (min (layer + 1) last)) node := {
      watch := fun b b' ticks resets => by
        rw [around.watch, around.watch']
        exact ⟨ticks, resets⟩
      cells := fun bare => by
        rw [around.cell, around.cell']
        have own : Cells Always sys.original (sys.AtLayer last held layer) ((Stage.plain (μ := μ)).cell (w ++ [tree]))
            (Store.scalar (w ++ [sys.copyAt layer tree])) :=
          layered_cells known within fun source makeState call =>
            bare source makeState (Option.some.inj (here.symm.trans call))
        exact ⟨own, own⟩
      after := fun _ _ _ => id
      host := fun d => pinned_host (around.host d)
      only := callbacks _ _ here
      children := fun i child hc => by
        rw [Node.mapTrees_id]
        exact ⟨below i child hc, below i child hc⟩
      chooser := fun policy nodes same => by
        rw [around.chooser, around.chooser']
        cases policy with
        | picker => exact absurd (same ▸ here) (static.unpicked _ _ _)
        | custom => exact ⟨fun _ _ => Lock.consult, fun _ _ => Lock.remember⟩
      call := fun source makeState same => by
        rw [around.cell, around.cell', Source.mapTrees_id]
        rw [same] at here
        exact ⟨call_layered known within around.calls here (around.resolve here),
          call_reset_layered known within around.calls here⟩ }
    have locked := companions.locked
    rwa [Node.mapTrees_id] at locked

end BehaviorTree.System
