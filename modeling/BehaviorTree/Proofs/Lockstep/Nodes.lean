/-
  BehaviorTree.Proofs.Lockstep.Nodes: whole nodes, in lockstep.

  On the left a plain run, on the right a recorded run of a system with copies. A `Tie` says
  how their run states belong together at every point of a tick, and what moments may be
  written down for them to stay together. Then every node goes in lockstep with its copy
  (`inStep_node`), by induction over the tree.
-/

import BehaviorTree.Proofs.History
import BehaviorTree.Proofs.Lockstep.Cases

namespace BehaviorTree

variable {μ σ : Type}

/-- How the run states of a plain run of the one system belong to those of a recorded run of a system with
copies, as far as the history is fine. -/
structure Tie (π : TreeId → TreeId) (sys sys' : System μ σ) where
  fine : List (Moment μ σ) → Prop
  /-- The run states belong together, while the ticks of the places on the path are in progress. -/
  bond : (path : List Place) → Store σ → Recorded μ σ → Prop
  /-- Also, the slots of this copy at this depth are those of its tree. -/
  owns : (path : List Place) → TreeId → (depth : Nat) → Store σ → Recorded μ σ → Prop
  fine_of_append : ∀ {xs x}, fine (xs ++ [x]) → fine xs
  bond_of_owns : ∀ {path u d s r}, owns path u d s r → bond path s r
  /-- A tick in progress owns its slots. -/
  inside : ∀ {w u d path s r}, bond (⟨w ++ [u], d⟩ :: path) s r → owns (⟨w ++ [u], d⟩ :: path) u d s r
  entered : ∀ {w u path s r} {scene : Scene μ σ}, bond path s r → scene.store = r.store →
    fine (r.history ++ [.entered (w ++ [u]) scene]) →
    bond (⟨w ++ [u], scene.context.depth⟩ :: path) s { r with history := r.history ++ [.entered (w ++ [u]) scene] }
  left : ∀ {p path site status s r} {scene : Scene μ σ}, bond (p :: path) s r →
    bond path s { r with history := r.history ++ [.left site status scene] }
  abandoned : ∀ {w u d fire path s r} {scene : Scene μ σ}, bond path s r → scene.store = r.store →
    fine (r.history ++ [.abandoned (w ++ [u]) d fire scene]) →
    owns path u d s { r with history := r.history ++ [.abandoned (w ++ [u]) d fire scene] }
  cells : ∀ path w u, Cells (fun r => fine r.history) π (owns path u) ((Stage.plain (μ := μ)).cell (w ++ [π u]))
    (Stage.recording.cell (w ++ [u]))
  /-- Choosing nodes choose the same. -/
  pickers : ∀ {w u initial children path s r}, sys'.nodeAt (w ++ [u]) = some (.selectOne (.picker initial) children) →
    bond path s r → s.pickerAt (w ++ [π u]) initial = r.store.pickerAt (w ++ [u]) initial ∧
      ∀ p, bond path (s.setPicker (w ++ [π u]) p) { r with store := r.store.setPicker (w ++ [u]) p }
  /-- Weak handles are good for both or for none. -/
  weak : ∀ {site tree makeState path s r}, sys'.nodeAt site = some (.call (.fixed (.weak tree)) makeState) →
    bond path s r → sys.alive s (π tree) = sys'.alive r.store tree
  height : ∀ {path s r}, bond path s r → s.height = r.store.height
  started : ∀ {path s r} tree, bond path s r → bond path { s with running := π tree :: s.running }
    { r with store := { r.store with running := tree :: r.store.running } }
  stopped : ∀ {path s r}, bond path s r → bond path { s with running := s.running.tail }
    { r with store := { r.store with running := r.store.running.tail } }
  /-- What is known of the ticks of trees that callbacks may name. -/
  progress : ∀ {tree path s r}, π tree = tree → bond path s r → s.progress tree = r.store.progress tree ∧
    ∀ f, bond path (s.onProgress tree f) { r with store := r.store.onProgress tree f }

namespace Tie

variable {π : TreeId → TreeId} {sys sys' : System μ σ} (T : Tie π sys sys')

/-- The history is fine. -/
def Fine (r : Recorded μ σ) : Prop := T.fine r.history

/-- A behaviour goes in lockstep with its copy, wherever the ticks stand. -/
def InStep (b : Behaviour (Store σ) μ σ) (b' : Behaviour (Recorded μ σ) μ σ) : Prop :=
  ∀ path, Locked T.Fine (fun _ => T.bond path) b b'

variable {T} {b : Behaviour (Store σ) μ σ} {b' : Behaviour (Recorded μ σ) μ σ}

/-- The slots of the node whose tick is in progress. -/
theorem cells_inside (path : List Place) (w : List Nat) (u : TreeId) :
    Cells T.Fine π (fun d => T.bond (⟨w ++ [u], d⟩ :: path)) ((Stage.plain (μ := μ)).cell (w ++ [π u]))
      (Stage.recording.cell (w ++ [u])) where
  get h := (T.cells _ w u).get (T.inside h)
  set x h := T.bond_of_owns ((T.cells _ w u).set x (T.inside h))
  reset h := T.bond_of_owns ((T.cells _ w u).reset (T.inside h))
  fine_set h := h
  fine_reset h := h

theorem InStep.inside (h : T.InStep b b') (path : List Place) (site : Address) :
    Locked T.Fine (fun d => T.bond (⟨site, d⟩ :: path)) b b' where
  tick d := (h (⟨site, d⟩ :: path)).tick d
  reset d e fire := (h (⟨site, d⟩ :: path)).reset d e fire

/-- With what is written down around it, a behaviour goes in lockstep. -/
theorem inStep_watch {w : List Nat} {u : TreeId} {path : List Place}
    (ticks : ∀ d, Lock T.Fine (T.bond (⟨w ++ [u], d⟩ :: path)) d b.tick b'.tick)
    (resets : ResetLock T.Fine (T.owns path u) (fun _ => T.bond path) b.reset b'.reset) :
    Locked T.Fine (fun _ => T.bond path) (Stage.plain.watch (w ++ [π u]) b) (Stage.recording.watch (w ++ [u]) b') := by
  have written : ∀ {moment : Scene μ σ → Moment μ σ} (m' : Machine (Recorded μ σ) μ σ),
      T.Fine (Recorded.add (moment (Recorded.scene m')) m').runs → T.Fine m'.runs := fun _ h => T.fine_of_append h
  refine ⟨fun d => ?_, fun d e fire => ?_⟩
  · have noted : Lock T.Fine (T.bond (⟨w ++ [u], d⟩ :: path)) d b.tick b'.tick := ticks d
    refine Sim.beforehand (Sim.afterwards noted (fun _ _ => rfl) (fun _ => written) fun y m m' h _ => ?_) (fun _ => rfl)
      written fun m m' h fine => ?_
    · exact ⟨⟨h.same.context, h.same.memory, h.same.journal, h.same.heard⟩, h.depth, T.left h.runs⟩
    · refine ⟨⟨h.same.context, h.same.memory, h.same.journal, h.same.heard⟩, h.depth, ?_⟩
      have depth : (Recorded.scene m').context.depth = d := h.depth
      exact depth ▸ T.entered h.runs rfl fine
  · refine Sim.beforehand (resets d e fire) (fun _ => rfl) written fun m m' h fine => ?_
    exact ⟨⟨h.same.context, h.same.memory, h.same.journal, h.same.heard⟩, h.depth, T.abandoned h.runs rfl fine⟩

/-! ## Nodes with all that is below -/

/-- What the nodes of a tree find around them goes in lockstep. -/
structure Around (T : Tie π sys sys') (links : Links (Store σ) μ σ) (links' : Links (Recorded μ σ) μ σ) : Prop where
  cell : links.cell = Stage.plain.cell (μ := μ)
  cell' : links'.cell = Stage.recording.cell
  chooser : links.chooser = Stage.plain.chooser
  chooser' : links'.chooser = Stage.recording.chooser
  watch : links.watch = Stage.plain.watch
  watch' : links'.watch = Stage.recording.watch
  host : ∀ path d, links.host.Lock T.Fine (T.bond path) d (fun tree => π tree = tree) links'.host
  resolve : ∀ {site source makeState}, sys'.nodeAt site = some (.call source makeState) → ∀ path d,
    Sim T.Fine (Along (T.bond path) d) (Option.map π) (links.resolve (source.mapTrees π)) (links'.resolve source)
      (Along (T.bond path) d)
  name : ∀ tree, (links.callee (π tree)).name = (links'.callee tree).name
  callee : ∀ tree, T.InStep (links.callee (π tree)).root (links'.callee tree).root

variable {links : Links (Store σ) μ σ} {links' : Links (Recorded μ σ) μ σ}

/-- Pickers are used alike. -/
theorem picker_lock {α : Type} {w : List Nat} {u : TreeId} {initial : Picker} {children : List (Node μ σ)}
    (here : sys'.nodeAt (w ++ [u]) = some (.selectOne (.picker initial) children)) (f : Picker → α × Picker)
    {a : Run (Store σ) μ σ α} {a' : Run (Recorded μ σ) μ σ α} (path : List Place) (d : Nat)
    (uses : ∀ m, a m = .ok (f (m.runs.pickerAt (w ++ [π u]) initial)).1
      (m.onRuns (·.setPicker (w ++ [π u]) (f (m.runs.pickerAt (w ++ [π u]) initial)).2)))
    (uses' : ∀ m, a' m = .ok (f (m.runs.store.pickerAt (w ++ [u]) initial)).1
      (m.onRuns fun r =>
        { r with store := r.store.setPicker (w ++ [u]) (f (m.runs.store.pickerAt (w ++ [u]) initial)).2 })) :
    Lock T.Fine (T.bond path) d a a' := by
  refine .step _ _ uses' (fun _ h => h) fun m m' h _ => ?_
  obtain ⟨picked, kept⟩ := T.pickers here h.runs
  rw [uses, picked]
  exact ⟨_, rfl, ⟨h.same.context, h.same.memory, h.same.journal, h.same.heard⟩, h.depth, kept _⟩

theorem chooser_lock {w : List Nat} {u : TreeId} {policy : Policy μ} {children : List (Node μ σ)}
    (here : sys'.nodeAt (w ++ [u]) = some (.selectOne policy children)) (path : List Place) (d : Nat) :
    (∀ count, Lock T.Fine (T.bond path) d ((Stage.plain.chooser (w ++ [π u]) policy).pick count)
      ((Stage.recording.chooser (w ++ [u]) policy).pick count)) ∧
    ∀ i, Lock T.Fine (T.bond path) d ((Stage.plain.chooser (w ++ [π u]) policy).complete i)
      ((Stage.recording.chooser (w ++ [u]) policy).complete i) := by
  cases policy with
  | custom => exact ⟨fun _ => Lock.consult, fun _ => Lock.remember⟩
  | picker initial =>
    refine ⟨fun count => ?_, fun i => ?_⟩
    · exact picker_lock here (·.pick count) path d (fun _ => rfl) fun _ => rfl
    · exact picker_lock here (fun p => ((), p.complete i)) path d (fun _ => rfl) fun _ => rfl

/-- Every node goes in lockstep with its copy. -/
theorem inStep_node (copies : sys.Copies π sys') (around : T.Around links links') (node : Node μ σ) :
    ∀ w u, sys'.nodeAt (w ++ [u]) = some node →
      T.InStep ((node.mapTrees π).behaviour links (w ++ [π u])) (node.behaviour links' (w ++ [u])) := by
  induction node using Node.induction with
  | step node ih =>
    intro w u here path
    have below : ∀ i (child : Node μ σ), node.children[i]? = some child →
        T.InStep ((child.mapTrees π).behaviour links (i :: (w ++ [π u]))) (child.behaviour links' (i :: (w ++ [u]))) :=
      fun i child hc => ih child (List.mem_of_getElem? hc) (i :: w) u (sys'.nodeAt_child here hc)
    have own := cells_inside (T := T) path w u
    have companions : Companions T.Fine π (fun d => T.bond (⟨w ++ [u], d⟩ :: path)) (T.owns path u)
        (fun _ => T.bond path) (fun tree => π tree = tree) links links' (w ++ [π u]) (w ++ [u]) π id node := {
      watch := fun b b' ticks resets => by
        rw [around.watch, around.watch']
        exact inStep_watch ticks resets
      cells := fun _ => by
        rw [around.cell, around.cell']
        exact ⟨own, T.cells path w u⟩
      after := fun _ _ _ => T.bond_of_owns
      host := fun d => around.host _ d
      only := copies.callbacks _ _ here
      children := fun i child hc => by
        rw [Node.mapTrees_id]
        exact ⟨(below i child hc).inside path _, below i child hc path⟩
      chooser := fun policy nodes same => by
        rw [around.chooser, around.chooser']
        rw [same] at here
        exact ⟨fun count d => (chooser_lock here _ d).1 count, fun i d => (chooser_lock here _ d).2 i⟩
      call := fun source makeState same => by
        rw [around.cell, around.cell', Source.mapTrees_id]
        rw [same] at here
        refine ⟨Behaviour.call_lock own (fun d => around.resolve here _ d) fun tree => ⟨around.name tree, fun d => ?_⟩,
          Behaviour.call_reset_lock (T.cells path w u) (fun _ _ _ => T.bond_of_owns) fun tree d => ?_⟩
        · exact (around.callee tree _).tick (d + 1)
        · exact (around.callee tree path).reset (d + 1) }
    have locked := companions.locked
    rwa [Node.mapTrees_id] at locked

end Tie

end BehaviorTree
