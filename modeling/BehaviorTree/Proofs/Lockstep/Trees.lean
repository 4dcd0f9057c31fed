/-
  BehaviorTree.Proofs.Lockstep.Trees: ticks and resets of whole trees, in lockstep.

  A tree goes in lockstep with each of its copies, to whatever depth its calls go
  (`inStep_root`). So do top-level ticks and resets of trees that have no copies, also those
  that callbacks start.
-/

import BehaviorTree.Proofs.Lockstep.Nodes

namespace BehaviorTree

/-! ## Sessions -/

/-- What is done with a tree from outside. -/
inductive Use (σ : Type) where
  | tick (delta : Float32) (state : Option σ)
  | reset (fire : Bool)

/-- Ticks and resets of one tree, with the answers of the ticks. -/
def System.session {ρ μ σ : Type} (sys : System μ σ) (stage : Stage ρ μ σ) (top : TreeId) :
    List (Use σ) → Run ρ μ σ (List Status)
  | [] => return []
  | .tick delta state :: rest => do
    let status ← sys.tick stage top delta state
    let later ← sys.session stage top rest
    return status :: later
  | .reset fire :: rest => do
    sys.reset stage top fire
    sys.session stage top rest

variable {μ σ : Type} {π : TreeId → TreeId} {sys sys' : System μ σ} {T : Tie π sys sys'} {path : List Place} {d : Nat}

/-- Both runs go on from the context in place, to which they come back. -/
theorem Lock.surround {ρ ρ' α β : Type} {fine : ρ' → Prop} {R : ρ → ρ' → Prop} {φ : β → α} {a : Context σ → Run ρ μ σ α}
    {b : Context σ → Run ρ' μ σ β} (h : ∀ c, Sim fine (Along R c.depth) φ (a c) (b c) (Along R c.depth)) :
    Sim fine (Along R d) φ (Run.context >>= a) (Run.context >>= b) (Along R d) where
  before m' := (h m'.context).before m'
  agree m m' related ok := by
    obtain rfl := related.depth
    have first : (Run.context >>= a) m = a m'.context m := congrArg (a · m) related.same.context
    rw [first]
    exact (h _).agree m m' related ok

/-- Both runs go on in the same context. -/
theorem Lock.inContext {ρ ρ' : Type} {fine : ρ' → Prop} {R : ρ → ρ' → Prop} {d : Nat} (c : Context σ) :
    Sim fine (Along R d) id (Run.onContext (μ := μ) fun _ => c) (Run.onContext fun _ => c)
      fun m m' => Along R c.depth m m' ∧ m'.context = c :=
  .step (fun _ => ()) (fun m => { m with context := c }) (fun _ => rfl) (fun _ h => h) fun m _ h _ =>
    ⟨{ m with context := c }, rfl, ⟨⟨rfl, h.same.memory, h.same.journal, h.same.heard⟩, rfl, h.runs⟩, rfl⟩

namespace Tie

theorem modifyStore_lock {f : Store σ → Store σ} {f' : Store σ → Store σ}
    (kept : ∀ s r, T.bond path s r → T.bond path (f s) { r with store := f' r.store }) :
    Lock T.Fine (T.bond path) d (Stage.plain.modifyStore (μ := μ) f) (Stage.recording.modifyStore f') :=
  .step (fun _ => ()) (fun m => m.onRuns fun r => { r with store := f' r.store }) (fun _ => rfl) (fun _ h => h)
    fun m _ h _ =>
      ⟨m.onRuns f, rfl, ⟨h.same.context, h.same.memory, h.same.journal, h.same.heard⟩, h.depth, kept _ _ h.runs⟩

theorem inUse_lock {α : Type} (tree : TreeId) {a : Run (Store σ) μ σ α} {a' : Run (Recorded μ σ) μ σ α}
    (h : Lock T.Fine (T.bond path) d a a') :
    Lock T.Fine (T.bond path) d (System.inUse .plain (π tree) a) (System.inUse .recording tree a') := by
  refine (modifyStore_lock fun _ _ => T.started tree).bind fun _ => h.bind fun _ => ?_
  exact (modifyStore_lock fun _ _ => T.stopped).bind fun _ => .pure _

theorem resolve_lock {site : Address} {source : Source μ} {makeState : Option (StateMaker μ σ)}
    (here : sys'.nodeAt site = some (.call source makeState)) (path : List Place) (d : Nat) :
    Sim T.Fine (Along (T.bond path) d) (Option.map π) (sys.resolve .plain (source.mapTrees π))
      (sys'.resolve .recording source)
      (Along (T.bond path) d) := by
  rcases source with (tree | tree) | provide
  · exact .pure (some tree)
  · refine .step (fun m => if sys'.alive m.runs.store tree then some tree else none) id (fun _ => rfl) (fun _ h => h)
      fun m m' h _ => ⟨m, ?_, h⟩
    have same := T.weak here h.runs
    simp only [Source.mapTrees, System.resolve, Stage.plain, id_eq, same]
    split <;> rfl
  · refine .step (fun m => (provide m.memory).1) (fun m => m.withMemory (provide m.memory).2)
      (fun _ => rfl) (fun _ h => h)
      fun m m' h _ => ⟨m.withMemory (provide m.memory).2, ?_, ?_⟩
    · rw [← h.same.memory]
      rfl
    · exact ⟨⟨h.same.context, congrArg (fun x => (provide x).2) h.same.memory, h.same.journal, h.same.heard⟩,
        h.depth, h.runs⟩

variable (copies : sys.Copies π sys')
include copies

/-! ## Resets -/

theorem inStep_rootOf {links : Links (Store σ) μ σ} {links' : Links (Recorded μ σ) μ σ} (around : T.Around links links')
    (tree : TreeId) : T.InStep (sys.rootOf links (π tree)) (sys'.rootOf links' tree) := by
  unfold System.rootOf
  rw [copies.trees]
  cases ht : sys'.trees[tree]? with
  | none => exact fun path => ⟨fun d => .pure _, fun d e fire => .pure _⟩
  | some t => exact inStep_node copies around t.root [] tree (sys'.nodeAt_root ht)

theorem resetRoot_lock (levels : Nat) (tree : TreeId) (path : List Place) (d e : Nat) (fire : Bool) :
    Lock T.Fine (T.bond path) e (sys.resetRoot .plain levels (π tree) d fire)
      (sys'.resetRoot .recording levels tree d fire) := by
  induction levels generalizing tree path d e fire with
  | zero => exact Lock.throw
  | succ levels ih =>
    have around : T.Around (sys.resetLinks .plain (sys.resetRoot .plain levels))
        (sys'.resetLinks .recording (sys'.resetRoot .recording levels)) := {
      cell := rfl
      cell' := rfl
      chooser := rfl
      chooser' := rfl
      watch := rfl
      watch' := rfl
      host := fun path d => ⟨fun _ _ _ => Lock.throw, fun _ _ _ => Lock.throw⟩
      resolve := fun _ path d => Lock.throw
      name := copies.nameOf
      callee := fun tree path => ⟨fun d => Lock.throw, ih tree path⟩ }
    exact (inStep_rootOf copies around tree path).reset d e fire

theorem resetAt_lock (tree : TreeId) (path : List Place) (d e : Nat) (fire : Bool) :
    Lock T.Fine (T.bond path) e (sys.resetAt .plain (π tree) d fire) (sys'.resetAt .recording tree d fire) :=
  .reading (a := fun height => sys.resetRoot .plain (height - d + 1) (π tree) d fire)
    (b := fun height => sys'.resetRoot .recording (height - d + 1) tree d fire)
    (fun height => resetRoot_lock copies (height - d + 1) tree path d e fire) fun _ _ h => T.height h.runs

/-! ## Ticks -/

theorem inStep_root {host : Host (Store σ) μ σ} {host' : Host (Recorded μ σ) μ σ}
    (hosts : ∀ path d, host.Lock T.Fine (T.bond path) d (fun tree => π tree = tree) host')
    (levels : Nat) (tree : TreeId)
    (path : List Place) (d : Nat) :
    Lock T.Fine (T.bond path) d (sys.tickRoot .plain host levels (π tree))
      (sys'.tickRoot .recording host' levels tree) := by
  induction levels generalizing tree path d with
  | zero => exact Lock.throw
  | succ levels ih =>
    have around : T.Around (sys.tickLinks .plain host (sys.tickRoot .plain host levels))
        (sys'.tickLinks .recording host' (sys'.tickRoot .recording host' levels)) := {
      cell := rfl
      cell' := rfl
      chooser := rfl
      chooser' := rfl
      watch := rfl
      watch' := rfl
      host := hosts
      resolve := resolve_lock
      name := copies.nameOf
      callee := fun tree path => ⟨ih tree path, resetAt_lock copies tree path⟩ }
    exact inUse_lock tree ((inStep_rootOf copies around tree path).tick d)

/-- A tick of a tree that has no other number goes in lockstep. -/
theorem tickFresh_lock {host : Host (Store σ) μ σ} {host' : Host (Recorded μ σ) μ σ}
    (hosts : ∀ path d, host.Lock T.Fine (T.bond path) d (fun tree => π tree = tree) host') {tree : TreeId}
    (fixed : π tree = tree) (tick : UInt64) (delta : Float32) (state : Option σ) (path : List Place) (d : Nat) :
    Lock T.Fine (T.bond path) d (sys.tickFresh .plain host tree tick delta state)
      (sys'.tickFresh .recording host' tree tick delta state) := by
  refine Lock.surround fun outer => ?_
  have fresh :
      sys.freshContext tree tick delta state outer.layers = sys'.freshContext tree tick delta state outer.layers := by
    unfold System.freshContext
    rw [← copies.limitsOf tree, fixed]
  rw [fresh]
  have ticks : Lock T.Fine (T.bond path) 0 (sys.tickHere .plain host tree) (sys'.tickHere .recording host' tree) := by
    refine .reading (a := fun levels => sys.tickRoot .plain host levels tree)
      (b := fun levels => sys'.tickRoot .recording host' levels tree) (fun levels => ?_)
      fun _ _ h => by rw [h.same.context]
    have root := inStep_root copies hosts levels tree path 0
    rwa [fixed] at root
  refine Sim.bind (Lock.inContext _) fun _ => ?_
  refine Sim.bind (ticks.weaken (fun _ _ h => h.1) fun _ _ h => h) fun s => Lock.context.bind fun inner => ?_
  refine Sim.bind ((Lock.inContext { outer with layers := inner.layers }).weaken (fun _ _ h => h) fun _ _ h => h.1)
    fun _ => ?_
  exact (modifyStore_lock fun _ _ h => (T.progress fixed h).2 _).bind fun _ => .pure _

theorem tickWith_lock {host : Host (Store σ) μ σ} {host' : Host (Recorded μ σ) μ σ}
    (hosts : ∀ path d, host.Lock T.Fine (T.bond path) d (fun tree => π tree = tree) host') {tree : TreeId}
    (fixed : π tree = tree) (delta : Float32) (state : Option σ) (path : List Place) (d : Nat) :
    Lock T.Fine (T.bond path) d (sys.tickWith .plain host tree delta state)
      (sys'.tickWith .recording host' tree delta state) := by
  have noted : ∀ f : Progress → Progress, Lock T.Fine (T.bond path) d
      (Stage.plain.modifyStore (μ := μ) (·.onProgress tree f)) (Stage.recording.modifyStore (·.onProgress tree f)) :=
    fun f => modifyStore_lock fun _ _ h => (T.progress fixed h).2 f
  have limits : sys.limitsOf tree = sys'.limitsOf tree := by rw [← copies.limitsOf tree, fixed]
  have name : sys.nameOf tree = sys'.nameOf tree := by rw [← copies.nameOf tree, fixed]
  have ticks := fun tick => tickFresh_lock copies hosts fixed tick delta state path d
  refine .reading
    (a := fun before : Progress => do
      Stage.plain.modifyStore (·.onProgress tree ({ · with ticks := before.ticks + 1 }))
      sys.tickAfter .plain before host tree delta state)
    (b := fun before : Progress => do
      Stage.recording.modifyStore (·.onProgress tree ({ · with ticks := before.ticks + 1 }))
      sys'.tickAfter .recording before host' tree delta state)
    (fun before => (noted _).bind fun _ => ?_) fun _ _ h => (T.progress fixed h.runs).1
  unfold System.tickAfter
  rw [limits, name]
  refine .ite (fun _ => ticks _) fun _ => .ite (fun _ => Lock.report.bind fun _ => .pure _) fun _ => ?_
  exact (noted _).bind fun _ => (ticks _).bind fun _ => (noted _).bind fun _ => .pure _

/-- So do the ticks and resets that callbacks start. -/
theorem nestedHost_lock (nesting : Nat) (path : List Place) (d : Nat) :
    (sys.nestedHost .plain nesting).Lock T.Fine (T.bond path) d (fun tree => π tree = tree)
      (sys'.nestedHost .recording nesting) := by
  have resets : ∀ path d tree fire, π tree = tree →
      Lock T.Fine (T.bond path) d (sys.reset .plain tree fire) (sys'.reset .recording tree fire) := by
    intro path d tree fire fixed
    have reset := resetAt_lock (T := T) copies tree path 0 d fire
    rwa [fixed] at reset
  induction nesting generalizing path d with
  | zero => exact ⟨fun _ _ _ => Lock.throw, resets path d⟩
  | succ nesting ih => exact ⟨fun tree delta fixed => tickWith_lock copies ih fixed delta none path d, resets path d⟩

theorem tick_lock {tree : TreeId} (fixed : π tree = tree) (delta : Float32) (state : Option σ)
    (path : List Place) (d : Nat) :
    Lock T.Fine (T.bond path) d (sys.tick .plain tree delta state) (sys'.tick .recording tree delta state) :=
  tickWith_lock copies (nestedHost_lock copies _) fixed delta state path d

theorem reset_lock {tree : TreeId} (fixed : π tree = tree) (fire : Bool) (path : List Place) (d : Nat) :
    Lock T.Fine (T.bond path) d (sys.reset .plain tree fire) (sys'.reset .recording tree fire) :=
  (nestedHost_lock copies 0 path d).reset tree fire fixed

theorem session_lock {top : TreeId} (fixed : π top = top) (uses : List (Use σ)) (path : List Place) (d : Nat) :
    Lock T.Fine (T.bond path) d (sys.session .plain top uses) (sys'.session .recording top uses) := by
  induction uses with
  | nil => exact .pure _
  | cons use rest ih =>
    cases use with
    | tick delta state =>
      exact (tick_lock copies fixed delta state path d).bind fun s => ih.bind fun later => .pure (s :: later)
    | reset fire => exact (reset_lock copies fixed fire path d).bind fun _ => ih

end Tie

end BehaviorTree
