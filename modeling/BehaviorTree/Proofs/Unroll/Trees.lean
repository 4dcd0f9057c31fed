/-
  BehaviorTree.Proofs.Unroll.Trees: ticks and resets of the unrolled system.

  A tree goes in lockstep with its copy for a depth, and what it calls with the copies for the
  next one. The levels that a tick may still go down run out at the last depth at the latest.
  A top-level tick starts from the copies for depth 0, which have the numbers of their trees;
  so do the ticks and resets that callbacks start.
-/

import BehaviorTree.Proofs.Lockstep.Trees
import BehaviorTree.Proofs.Unroll.Nodes

namespace BehaviorTree

variable {μ σ : Type}

namespace System

/-- The tree can be ticked: it is there, and its limits do not let it go beyond the last depth. -/
structure Tickable (sys : System μ σ) (last : Nat) (held : List TreeId) (tree : Nat) : Prop where
  known : tree < sys.trees.size
  available : sys.Available held tree
  limited : (sys.limitsOf tree).maxCallDepth.toNat ≤ last

variable {sys : System μ σ} {last layer tree d : Nat} {held : List TreeId} {host host' : Host (Store σ) μ σ}

theorem unpin {α : Type} {e : Nat} {a b : Run (Store σ) μ σ α}
    (h : Lock Always (sys.AtLayer last held layer layer) e a b) : Lock Always (sys.Unrolls last held Bound) e a b :=
  h.weaken (fun _ _ h => h.mono fun _ _ h => ⟨rfl, h⟩) fun _ _ h => h.mono fun _ _ h => h.2

variable (static : sys.Static)
  (callbacks : ∀ site node, sys.nodeAt site = some node → node.CallsBack (sys.Tickable last held))

section
include static callbacks

theorem layered_root {links links' : Links (Store σ) μ σ} (known : tree < sys.trees.size) (within : layer ≤ last)
    (around : sys.Surrounds last held (sys.Tickable last held) layer tree links links') :
    Locked Always (sys.AtLayer last held layer) (sys.rootOf links tree)
      ((sys.unrolled last).rootOf links' (sys.copyAt layer tree)) := by
  unfold rootOf
  rw [unrolled_trees known within]
  cases ht : sys.trees[tree]? with
  | none => exact ⟨fun _ => .pure _, fun _ _ _ => .pure _⟩
  | some t => exact layered_node static callbacks known within around t.root [] (sys.nodeAt_root ht)

/-! ## Resets -/

theorem resetRoot_layered (levels : Nat) (known : tree < sys.trees.size) (within : layer ≤ last) (e : Nat)
    (fire : Bool) : Lock Always (sys.Unrolls last held Bound) e (sys.resetRoot .plain levels tree layer fire)
      ((sys.unrolled last).scalarResetRoot levels (sys.copyAt layer tree) layer fire) := by
  induction levels generalizing tree layer e fire with
  | zero => exact Lock.throw
  | succ levels ih =>
    have around : sys.Surrounds last held (sys.Tickable last held) layer tree
        (sys.resetLinks .plain (sys.resetRoot .plain levels))
        { (sys.unrolled last).resetLinks .plain ((sys.unrolled last).scalarResetRoot levels) with
          cell := Store.scalar } := {
      cell := rfl
      cell' := rfl
      chooser := rfl
      chooser' := rfl
      watch := rfl
      watch' := rfl
      host := fun _ => ⟨fun _ _ _ => Lock.throw, fun _ _ _ => Lock.throw⟩
      resolve := fun _ _ _ _ => .inr (.inr ⟨.callLimit, rfl, rfl⟩)
      calls := {
        name := fun _ known => (unrolled_nameOf known (Nat.min_le_right _ _)).symm
        stop := fun _ _ => ⟨rfl, rfl⟩
        tick := fun _ _ _ _ => Lock.throw
        reset := fun before _ known e fire => ih known before e fire } }
    exact unpin ((layered_root static callbacks known within around).reset layer e fire)

theorem resetAt_layered (known : tree < sys.trees.size) (within : layer ≤ last) (e : Nat) (fire : Bool) :
    Lock Always (sys.Unrolls last held Bound) e (sys.resetAt .plain tree layer fire)
      ((sys.unrolled last).scalarResetAt (sys.copyAt layer tree) layer fire) :=
  .reading (a := fun height => sys.resetRoot .plain (height - layer + 1) tree layer fire)
    (b := fun height => (sys.unrolled last).scalarResetRoot (height - layer + 1) (sys.copyAt layer tree) layer fire)
    (fun _ => resetRoot_layered static callbacks _ known within e fire) fun _ _ h => h.runs.height

end

/-! ## Ticks -/

theorem modifyStore_layered {f g : Store σ → Store σ}
    (kept : ∀ s r, sys.Unrolls last held Bound s r → sys.Unrolls last held Bound (f s) (g r)) :
    Lock Always (sys.Unrolls last held Bound) d (Stage.plain.modifyStore (μ := μ) f) (Stage.plain.modifyStore g) :=
  .step (fun _ => ()) (·.onRuns g) (fun _ => rfl) (fun _ _ => trivial) fun m _ h _ =>
    ⟨m.onRuns f, rfl, ⟨h.same.context, h.same.memory, h.same.journal, h.same.heard⟩, h.depth, kept _ _ h.runs⟩

theorem inUse_layered {α : Type} {a b : Run (Store σ) μ σ α} (known : tree < sys.trees.size) (within : layer ≤ last)
    (available : sys.Available held tree) (h : Lock Always (sys.Unrolls last held Bound) d a b) :
    Lock Always (sys.Unrolls last held Bound) d (inUse .plain tree a) (inUse .plain (sys.copyAt layer tree) b) := by
  have copy : (sys.unrolled last).Available (sys.heldCopies last held) (sys.copyAt layer tree) :=
    available_held ((mem_heldCopies known).mpr ⟨within, available⟩)
  have starts : ∀ s r, sys.Unrolls last held Bound s r → sys.Unrolls last held Bound
      { s with running := tree :: s.running } { r with running := sys.copyAt layer tree :: r.running } :=
    fun s r u => { u with steady := u.steady.started available, steady' := u.steady'.started copy }
  have stops : ∀ s r, sys.Unrolls last held Bound s r → sys.Unrolls last held Bound
      { s with running := s.running.tail } { r with running := r.running.tail } :=
    fun s r u => { u with steady := u.steady.stopped, steady' := u.steady'.stopped }
  refine (modifyStore_layered starts).bind fun _ => h.bind fun _ => ?_
  exact (modifyStore_layered stops).bind fun _ => .pure _

include static

/-- A strong handle leads to the copy of its tree; a weak one does so in both systems or in none. -/
theorem resolve_layered (available : sys.Available held tree) {w : List Nat} {source : Source μ}
    {makeState : Option (StateMaker μ σ)} (here : sys.nodeAt (w ++ [tree]) = some (.call source makeState)) :
    sys.LooksUp last held layer (sys.resolve .plain source)
      ((sys.unrolled last).resolve .plain (source.mapTrees (sys.copyAt (min (layer + 1) last)))) := by
  intro m m' unrolls
  obtain ⟨target, known, rfl | rfl⟩ := static.calls _ _ _ here
  · exact .inl ⟨target, known, available.called known here, rfl, rfl⟩
  have copy : (sys.unrolled last).alive m'.runs (sys.copyAt (min (layer + 1) last) target) = true ↔
      sys.Available held target :=
    (unrolls.steady'.alive_iff _).trans (unrolled_available static known (Nat.min_le_right _ _))
  have left := unrolls.steady.alive_iff target
  unfold resolve Stage.plain Source.mapTrees
  simp only [id_eq]
  by_cases there : sys.Available held target
  · rw [if_pos (left.mpr there), if_pos (copy.mpr there)]
    exact .inl ⟨target, known, there, rfl, rfl⟩
  · rw [if_neg (there ∘ left.mp), if_neg (there ∘ copy.mp)]
    exact .inr (.inl ⟨rfl, rfl⟩)

include callbacks

theorem tickRoot_layered (hosts : ∀ d, host.Lock Always (sys.Unrolls last held Bound) d (sys.Tickable last held) host')
    (levels : Nat) (known : tree < sys.trees.size) (available : sys.Available held tree) (within : layer ≤ last)
    (enough : layer + levels ≤ last + 1) : Lock Always (sys.Unrolls last held Bound) layer
      (sys.tickRoot .plain host levels tree)
      ((sys.unrolled last).scalarTickRoot host' levels (sys.copyAt layer tree)) := by
  induction levels generalizing tree layer with
  | zero => exact Lock.throw
  | succ levels ih =>
    have around : sys.Surrounds last held (sys.Tickable last held) layer tree
        (sys.tickLinks .plain host (sys.tickRoot .plain host levels))
        ((sys.unrolled last).scalarLinks host' ((sys.unrolled last).scalarTickRoot host' levels)) := {
      cell := rfl
      cell' := rfl
      chooser := rfl
      chooser' := rfl
      watch := rfl
      watch' := rfl
      host := hosts
      resolve := resolve_layered static available
      calls := {
        name := fun _ known => (unrolled_nameOf known (Nat.min_le_right _ _)).symm
        stop := fun stops _ => by
          obtain rfl : levels = 0 := by omega
          exact ⟨rfl, rfl⟩
        tick := fun before _ known available => ih known available before (by omega)
        reset := fun before _ known e fire => resetAt_layered static callbacks known before e fire } }
    exact inUse_layered known within available (unpin ((layered_root static callbacks known within around).tick layer))

/-- A top-level tick, from the copies for depth 0. -/
theorem tickFresh_layered (hosts : ∀ d, host.Lock Always (sys.Unrolls last held Bound) d (sys.Tickable last held) host')
    (can : sys.Tickable last held tree) (tick : UInt64) (delta : Float32) (state : Option σ) (d : Nat) :
    Lock Always (sys.Unrolls last held Bound) d (sys.tickFresh .plain host tree tick delta state)
      ((sys.unrolled last).scalarTickFresh host' tree tick delta state) := by
  refine Lock.surround fun outer => ?_
  have fresh : sys.freshContext tree tick delta state outer.layers =
      (sys.unrolled last).freshContext tree tick delta state outer.layers := by
    unfold freshContext
    rw [unrolled_limitsOf can.known]
  rw [← fresh]
  generalize same : sys.freshContext tree tick delta state outer.layers = c
  have depth : c.depth = 0 := by rw [← same]; rfl
  have limit : c.maxDepth ≤ last := by rw [← same]; exact can.limited
  have ticks : Sim Always (fun m m' => Along (sys.Unrolls last held Bound) 0 m m' ∧ m'.context = c) id
      (sys.tickHere .plain host tree) ((sys.unrolled last).scalarTickHere host' tree)
      (Along (sys.Unrolls last held Bound) 0) := by
    refine ⟨fun _ _ => trivial, fun m m' related _ => ?_⟩
    obtain ⟨related, rfl⟩ := related
    have root := tickRoot_layered static callbacks hosts (m'.context.maxDepth - m'.context.depth + 1) can.known
      can.available (Nat.zero_le last) (by omega)
    rw [copyAt_zero] at root
    have agreed := root.agree m m' related trivial
    unfold tickHere scalarTickHere
    rwa [related.same.context]
  refine Sim.bind (Lock.inContext c) fun _ => ?_
  rw [depth]
  refine Sim.bind ticks fun s => Lock.context.bind fun inner => ?_
  refine Sim.bind ((Lock.inContext { outer with layers := inner.layers }).weaken (fun _ _ h => h) fun _ _ h => h.1)
    fun _ => ?_
  exact (modifyStore_layered fun _ _ h => h.progressed _ _).bind fun _ => .pure _

theorem tickWith_layered (hosts : ∀ d, host.Lock Always (sys.Unrolls last held Bound) d (sys.Tickable last held) host')
    (can : sys.Tickable last held tree) (delta : Float32) (state : Option σ) (d : Nat) :
    Lock Always (sys.Unrolls last held Bound) d (sys.tickWith .plain host tree delta state)
      ((sys.unrolled last).scalarTickWith host' tree delta state) := by
  have noted : ∀ f : Progress → Progress, Lock Always (sys.Unrolls last held Bound) d
      (Stage.plain.modifyStore (μ := μ) (·.onProgress tree f)) (Stage.plain.modifyStore (·.onProgress tree f)) :=
    fun f => modifyStore_layered fun _ _ h => h.progressed tree f
  have name : (sys.unrolled last).nameOf tree = sys.nameOf tree := by
    have copy : (sys.unrolled last).nameOf (sys.copyAt 0 tree) = _ := unrolled_nameOf can.known (Nat.zero_le last)
    rwa [copyAt_zero] at copy
  have ticks := fun tick => tickFresh_layered static callbacks hosts can tick delta state d
  refine .reading
    (a := fun before : Progress => do
      Stage.plain.modifyStore (·.onProgress tree ({ · with ticks := before.ticks + 1 }))
      sys.tickAfter .plain before host tree delta state)
    (b := fun before : Progress => do
      Stage.plain.modifyStore (·.onProgress tree ({ · with ticks := before.ticks + 1 }))
      (sys.unrolled last).scalarTickAfter before host' tree delta state)
    (fun before => (noted _).bind fun _ => ?_) fun _ _ h => h.runs.progress tree can.known
  unfold System.tickAfter System.scalarTickAfter
  rw [unrolled_limitsOf can.known, name]
  refine .ite (fun _ => ticks _) fun _ => .ite (fun _ => Lock.report.bind fun _ => .pure _) fun _ => ?_
  exact (noted _).bind fun _ => (ticks _).bind fun _ => (noted _).bind fun _ => .pure _

theorem reset_layered (known : tree < sys.trees.size) (fire : Bool) (d : Nat) :
    Lock Always (sys.Unrolls last held Bound) d (sys.reset .plain tree fire)
      ((sys.unrolled last).scalarReset tree fire) := by
  have reset := resetAt_layered static callbacks known (Nat.zero_le last) d fire
  rwa [copyAt_zero] at reset

/-- So do the ticks and resets that callbacks start. -/
theorem host_layered (nesting d : Nat) : (sys.nestedHost .plain nesting).Lock Always (sys.Unrolls last held Bound) d
    (sys.Tickable last held) ((sys.unrolled last).scalarHost nesting) := by
  have resets : ∀ d tree fire, sys.Tickable last held tree → Lock Always (sys.Unrolls last held Bound) d
      (sys.reset .plain tree fire) ((sys.unrolled last).scalarReset tree fire) :=
    fun d _ fire can => reset_layered static callbacks can.known fire d
  induction nesting generalizing d with
  | zero => exact ⟨fun _ _ _ => Lock.throw, resets d⟩
  | succ nesting ih => exact ⟨fun _ delta can => tickWith_layered static callbacks ih can delta none d, resets d⟩

end System

end BehaviorTree
