/-
  BehaviorTree.Proofs.Nested.Trees: the brackets that the ticks of whole trees open and close.

  Where all nodes run their children in turn and all callbacks are reticent, the tick of every node
  opens and closes brackets as runs begin and end (`nests_node`), and so does a tree's root, however
  many levels are left (`nests_root`). A top-level tick begins with the brackets open of what the last
  one left in a run (`Abreast.tick`).
-/

import BehaviorTree.Proofs.Nested.Behaviours

namespace BehaviorTree

variable {μ σ : Type}

/-- The node has no more than one child in a run, ticks it and does not reset it, and its callbacks are reticent under so
many overlays. -/
def Node.InTurn (overlays : Nat) : Node μ σ → Prop
  | action body | custom body _ => body.Reticent overlays
  | scope hooks _ => hooks.onEnter.Reticent overlays
  | condition _ _ | waitUntil _ _ | wait _ | pause | earlyReturn _ | invert _ | force _ _ | guard _ _ | repeatTimes _ _
  | repeatUntil _ _ | retry _ _ | delay _ _ | localScope _ | sequence _ | selector _ | selectOne _ _ | call _ _ => True
  | timeout _ _ | reactiveSequence _ | reactiveSelector _ | parallel _ _ | join _ _ | race _ => False

namespace System

variable (sys : System μ σ)

/-- All nodes run their children in turn, and their callbacks are reticent under the overlays that the nodes above have put
in place, or more. -/
def InTurn : Prop := ∀ site node, sys.nodeAt site = some node → ∀ overlays ≥ sys.overlaysAbove site, node.InTurn overlays

variable {sys} {limits : Limits} {base : List Mark} {p : Place} {places : List Place} {node : Node μ σ} {top tree : TreeId}
  {m m₁ m' : Machine (Store σ) μ σ} {status : Status} {host : Host (Store σ) μ σ}

/-! ## What nodes find around them -/

theorem chooses_keeps {site : Address} (h : Stage.plain.Chooses site m m') :
    m'.context = m.context ∧ ∀ q, m'.runs.slot q = m.runs.slot q := by
  obtain ⟨p, rfl⟩ | ⟨x, rfl⟩ := h
  all_goals exact ⟨rfl, fun _ => rfl⟩

/-! ## Nodes -/

theorem nests_node (inTurn : sys.InTurn) (links : Links (Store σ) μ σ) (cells : links.cell = Store.cell)
    (choosers : links.chooser = Stage.plain.chooser) (watches : links.watch = fun _ b => b)
    (resolves : links.resolve = sys.resolve .plain) (names : ∀ tree, (links.callee tree).name = sys.nameOf tree) {d : Nat}
    (called : ∀ tree, sys.Nests limits ⟨[tree], d + 1⟩ (links.callee tree).root) (node : Node μ σ) :
    ∀ site, sys.nodeAt site = some node → sys.Nests limits ⟨site, d⟩ (node.behaviour links site) := by
  intro site here
  induction here using nodeAt_upward with
  | step site node here below =>
  have several : ∀ i b, (Node.behaviours links site 0 node.children)[i]? = some b →
      sys.Nests limits (Place.inside ⟨site, d⟩ i) b := Node.forall_behaviours_getElem? below
  have length := Node.behaviours_length links site node.children 0
  have reticent := inTurn site node here
  rw [Node.behaviour.eq_def, watches, cells]
  cases node
  case timeout | reactiveSequence | reactiveSelector | parallel | join | race => exact (reticent _ (Nat.le_refl _)).elim
  case action | custom =>
    exact nests_callback here rfl (fun _ _ => id) fun m _ _ room ran => Callback.Reticent.waits (reticent _ room) ran
  case condition => exact nests_condition here
  case waitUntil => exact nests_timed here rfl (fun _ _ => id) Behaviour.waitUntil_holdsWhileRunning
  case wait => exact nests_timed here rfl (fun _ _ => id) Behaviour.wait_holdsWhileRunning
  case pause => exact nests_timed here rfl (fun _ _ => id) Behaviour.pause_holdsWhileRunning
  case earlyReturn => exact nests_earlyReturn here rfl fun _ _ => id
  case invert child =>
    exact nests_noted (below 0 child rfl) here rfl rfl rfl (fun _ _ => .rfl) Behaviour.invert_notesChild
  case force child =>
    exact nests_noted (below 0 child rfl) here rfl rfl rfl (fun _ _ => .rfl) Behaviour.force_notesChild
  case guard child =>
    exact nests_noted (below 0 child rfl) here rfl rfl rfl (fun _ _ => .rfl) Behaviour.guard_notesChild
  case repeatTimes child | retry child =>
    exact nests_iterate (below 0 child rfl) here rfl rfl rfl fun count => ⟨count, rfl⟩
  case repeatUntil child =>
    exact nests_noted (below 0 child rfl) here rfl rfl rfl (fun _ _ => .rfl) Behaviour.repeatUntil_notesChild
  case delay child => exact nests_delay (below 0 child rfl) here
  case localScope child => exact nests_localScope (below 0 child rfl) here
  case scope hooks child =>
    exact nests_scope here (below 0 child rfl) fun m _ _ room ran => Callback.Reticent.waits (reticent _ room) ran
  case sequence | selector =>
    refine nests_inOrder here rfl rfl ?_ (fun _ _ => id) length several
    exact fun _ => rfl
  case selectOne =>
    rw [choosers]
    refine nests_selectOne here rfl rfl ?_ (fun _ _ => id) length several
      (fun _ _ _ picked => (chooses_keeps (Stage.pick_ok picked)).imp_right fun slots q _ => slots q)
      fun _ _ _ _ completed => chooses_keeps (Stage.complete_ok completed)
    exact fun _ => rfl
  case call =>
    rw [resolves]
    exact nests_call here (fun _ _ _ found => (resolve_ok found).1) names called

/-! ## Trees -/

/-- The chain at a place without a node is empty. -/
theorem Chain.eq_nil_of_bare {s : Store σ} (h : sys.Chain limits s p places) (bare : sys.nodeAt p.site = none) :
    places = [] := by
  cases h with
  | nil => rfl
  | inside there | scope there | call there => cases bare.symm.trans there

theorem nests_rootOf (inTurn : sys.InTurn) {below : TreeId → Run (Store σ) μ σ Status} {d : Nat}
    (called : ∀ tree, sys.Nests limits ⟨[tree], d + 1⟩ ⟨below tree, sys.resetAt .plain tree⟩) (tree : TreeId) :
    sys.Nests limits ⟨[tree], d⟩ (sys.rootOf (sys.tickLinks .plain host below) tree) := by
  unfold rootOf
  cases found : sys.trees[tree]? with
  | some t =>
    exact nests_node inTurn _ rfl rfl rfl rfl (fun _ => rfl) called t.root _ (sys.nodeAt_root found)
  | none =>
    have bare := sys.nodeAt_missing found
    refine ⟨fun {base places m status m'} h ran => ?_⟩
    obtain rfl := h.chain.eq_nil_of_bare bare
    obtain ⟨-, rfl⟩ := Run.pure_eq_ok.mp ran
    refine ⟨[], .refl _, fun _ _ => rfl, h.chain, h.told, fun _ => rfl, fun r pending => ?_⟩
    cases h.calm.symm.trans pending

/-- Trees that are in use are noted in the store, but in no slot. -/
theorem Nests.inUse {b : Behaviour (Store σ) μ σ} (h : sys.Nests limits p b)
    {reset : (depth : Nat) → (fire : Bool) → Run (Store σ) μ σ Unit} :
    sys.Nests limits p ⟨inUse .plain tree b.tick, reset⟩ := by
  refine ⟨fun {base places m status m'} ready ran => ?_⟩
  simp only [System.inUse, Stage.modifyStore, Run.bind_eq_ok, Run.pure_eq_ok, EStateM.Result.ok.injEq, true_and] at ran
  obtain ⟨_, m₀, rfl, _, m₁, ticked, _, _, rfl, rfl, rfl⟩ := ran
  have begun : sys.Poised limits base p places { m with runs := { m.runs with running := tree :: m.runs.running } } :=
    ⟨ready.depth, ready.guards, ready.overlays, ready.calm, ready.chain.congr fun _ _ => rfl, ready.told⟩
  obtain ⟨places', left⟩ := h.tick begun ticked
  exact ⟨places', left.level, left.frame, left.chain.congr fun _ _ => rfl, left.told, left.ended, left.request⟩

/-- A tree's root, at any depth. -/
theorem nests_root (inTurn : sys.InTurn) (levels : Nat) (tree : TreeId) (d : Nat) :
    sys.Nests limits ⟨[tree], d⟩ ⟨sys.tickRoot .plain host levels tree, sys.resetAt .plain tree⟩ := by
  induction levels generalizing tree d with
  | zero => exact ⟨fun _ ran => nomatch ran⟩
  | succ levels ih => exact (nests_rootOf inTurn (fun tree => ih tree (d + 1)) tree).inUse

/-! ## Top-level ticks -/

/-- Between the ticks of a tree: the brackets are open of what the last tick left in a run. -/
structure Abreast (sys : System μ σ) (top : TreeId) (m : Machine (Store σ) μ σ) (places : List Place) : Prop where
  chain : sys.Chain (sys.limitsOf top) m.runs ⟨[top], 0⟩ places
  told : m.unclosed = some (sys.stack [] places)

/-- Counts and flags are noted in the store, but in no slot. -/
theorem Abreast.noted (h : sys.Abreast top m places) {f : Store σ → Store σ} (slots : ∀ s q, (f s).slot q = s.slot q) :
    sys.Abreast top (m.onRuns f) places := ⟨h.chain.congr fun q _ => slots m.runs q, h.told⟩

theorem Abreast.tickFresh (inTurn : sys.InTurn) (h : sys.Abreast top m places) {tick : UInt64} {delta : Float32}
    {state : Option σ} (ran : sys.tickFresh .plain host top tick delta state m = .ok status m') :
    ∃ places', sys.Abreast top m' places' ∧ (status.isTerminal = true → places' = []) := by
  simp only [System.tickFresh, Stage.modifyStore, Run.bind_eq_ok, Run.context_eq_ok, Run.onContext_eq_ok,
    Run.pure_eq_ok, EStateM.Result.ok.injEq] at ran
  obtain ⟨_, _, ⟨rfl, rfl⟩, _, _, rfl, _, m₁, ticked, _, _, ⟨rfl, rfl⟩, _, _, rfl, _, _, ⟨-, rfl⟩, rfl, rfl⟩ := ran
  have ready : sys.Poised (sys.limitsOf top) [] ⟨[top], 0⟩ places
      { m with context := sys.freshContext top tick delta state m.context.layers } := {
    depth := rfl
    guards := ⟨[], guards_fresh tick delta state m.context.layers⟩
    overlays := Nat.zero_le _
    calm := rfl
    chain := h.chain
    told := h.told }
  have root : sys.Nests (sys.limitsOf top) ⟨[top], 0⟩ ⟨sys.tickHere .plain host top, sys.resetAt .plain top⟩ :=
    ⟨fun ready ran => (nests_root inTurn _ top 0).tick ready ran⟩
  obtain ⟨places', left⟩ := root.tick ready ticked
  exact ⟨places', ⟨left.chain.congr fun _ _ => rfl, left.told⟩, left.ended⟩

/-- A tick of the tree would not be refused as one inside another one. -/
def Free (sys : System μ σ) (top : TreeId) (s : Store σ) : Prop :=
  (sys.limitsOf top).stackCapacity.isNone = true ∨ (s.progress top).busy = false

theorem Abreast.tick (inTurn : sys.InTurn) (h : sys.Abreast top m places) (free : sys.Free top m.runs) {delta : Float32}
    {state : Option σ} (ran : sys.tick .plain top delta state m = .ok status m') :
    ∃ places', sys.Abreast top m' places' ∧ (status.isTerminal = true → places' = []) ∧ sys.Free top m'.runs := by
  simp only [System.tick, System.tickWith, System.tickAfter, Stage.modifyStore, Run.bind_eq_ok, Run.get_eq_ok] at ran
  obtain ⟨_, _, ⟨rfl, rfl⟩, _, _, counted, ran⟩ := ran
  obtain ⟨-, rfl⟩ := EStateM.Result.ok.inj counted
  have h₁ := h.noted (f := (·.onProgress top ({ · with ticks := (m.runs.progress top).ticks + 1 }))) fun _ _ => rfl
  simp only [Run.ite_eq_ok, Run.bind_eq_ok, Run.pure_eq_ok] at ran
  rcases ran with ⟨unlimited, ran⟩ | ⟨limited, ⟨busy, -⟩ | ⟨-, _, _, entered, _, m₂, ran, _, _, left, rfl, rfl⟩⟩
  · obtain ⟨places', told, ended⟩ := h₁.tickFresh inTurn ran
    exact ⟨places', told, ended, .inl unlimited⟩
  · cases (free.resolve_left limited).symm.trans busy
  · obtain ⟨-, rfl⟩ := EStateM.Result.ok.inj entered
    obtain ⟨-, rfl⟩ := EStateM.Result.ok.inj left
    have h₂ := h₁.noted (f := (·.onProgress top ({ · with busy := true }))) fun _ _ => rfl
    obtain ⟨places', told, ended⟩ := h₂.tickFresh inTurn ran
    refine ⟨places', told.noted fun _ _ => rfl, ended, .inr ?_⟩
    exact congrArg Progress.busy ((Store.progress_onProgress ..).trans (if_pos rfl))

end System

end BehaviorTree
