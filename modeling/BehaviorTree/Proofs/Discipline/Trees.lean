/-
  BehaviorTree.Proofs.Discipline.Trees: calls, all nodes, and whole trees.

  A call that is resumed is admitted again, so it never leaves the tree in a run behind that
  its slot names. With that the ticks and resets of every node come out well (`works_node`),
  and so do those of whole trees, however deep they call one another (`works_root`).
-/

import BehaviorTree.Proofs.Discipline.Several

namespace BehaviorTree

variable {μ σ : Type}

namespace Regime

variable {R : Regime μ σ} {site : Address} {p c : Place} {node : Node μ σ} {d : Nat} {st : Status} {tree : TreeId}
  {m m₁ m' base : Witnessed μ σ} {busy : Place → Prop} {source : Source μ} {makeState : Option (StateMaker μ σ)}

/-! ## Calls -/

/-- A tree that is entered, ticked and left. -/
theorem AtWork.called {callee : Callee (Recorded μ σ) μ σ} {context : Context σ} {ownState fresh : Bool}
    {state : Option σ} (w : R.AtWork p base m busy) (ready : R.Ready p base) (hc : R.sys.Child p (p.callee tree))
    (name : callee.name = R.sys.nameOf tree) (spec : R.Works [tree] callee.root)
    (calm : m.context.returnRequest = none) (entered : m.context.enter callee.name = .ok context)
    (ok : Behaviour.runCallee (slots p.site) callee ownState fresh state p.depth { m with context } = .ok st m') :
    R.limits.Admits p.depth ∧ ∃ m₃, R.Ticked (p.callee tree) m st m₃ ∧
      (st = .running ∧ m' = m₃ ∨ st.isTerminal = true ∧ m' = m₃.onRuns ((slots p.site).reset · p.depth)) := by
  obtain ⟨n₀, n₁, n₂, n₃, h₀, ticked, h₂, h₃, outcome⟩ := Behaviour.runCallee_ok ok
  rw [name] at entered
  have here := w.depth ready
  have deeper : ∀ path, R.sys.Guards R.limits path m.context →
      R.sys.Guards R.limits (p.callee tree :: path) n₀.context :=
    fun path h => (h.enter here entered).congr h₀.depth h₀.maxDepth h₀.stack
  obtain ⟨path, guards⟩ := ready.guards.imp fun path => w.moves.guards path
  have before : ∀ q, Unmoved m n₀ q := fun q => .of_runs h₀.runs
  have after : ∀ q, Unmoved n₁ n₃ q := fun q => .of_runs (h₃.runs.trans h₂.runs)
  have request : n₃.context.returnRequest = n₁.context.returnRequest := h₃.request.trans h₂.request
  have ready₀ : R.Ready (p.callee tree) n₀ := {
    depth := by rw [h₀.depth, Context.enter_depth entered, here, Place.callee_depth]
    guards := ⟨_, deeper path guards⟩
    calm := by
      obtain ⟨stack, rfl⟩ := Behaviour.enter_ok entered
      exact h₀.request.trans calm }
  have child := spec.tick _ _ _ _ ready₀ ((w.sound _ hc).congr fun q _ => before q) ticked
  refine ⟨here ▸ guards.admits entered, n₃, {
    moves := {
      outside := fun q hq => ((before q).trans (child.moves.outside q hq)).trans (after q)
      depth := ?_
      guards := fun path h => ?_
      lawful := fun h => ?_ }
    sound := child.sound.congr fun q _ => after q
    opens := (after _).opens.trans child.opens
    asks := fun request' asked => child.asks request' (request ▸ asked) }, outcome⟩
  · rw [h₃.depth, here]
    show n₂.context.depth - 1 = p.depth
    rw [h₂.depth, child.moves.depth, ready₀.depth, Place.callee_depth, Nat.add_sub_cancel]
  · have inside := (child.moves.guards _ (deeper path h)).congr h₂.depth h₂.maxDepth h₂.stack
    exact inside.leave.congr h₃.depth h₃.maxDepth h₃.stack
  · rw [h₃.runs, Behaviour.left, h₂.runs]
    exact child.moves.lawful (h₀.runs ▸ h)

variable (R) in
/-- A call at work has a tree to run, and the only child in a run, if there is one, is this tree. A call that is
resumed was admitted before. -/
structure Targeted (source : Source μ) (p : Place) (base m : Witnessed μ σ) (tree : TreeId) (state : Option σ) :
    Prop where
  names : source.Names tree
  work : R.AtWork p base m (R.sys.Records base.runs.store p)
  calm : m.context.returnRequest = none
  slot : m.runs.store.slot p = .call tree state
  only : ∀ c, R.sys.Records base.runs.store p c → c = p.callee tree ∧ R.limits.Admits p.depth

/-- A call looks up its tree, if it does not know it from before. Without one it ends. -/
theorem callTarget_done {resolve : Run (Recorded μ σ) μ σ (Option TreeId)} {o : Option (TreeId × Option σ × Bool)}
    (hn : R.sys.nodeAt p.site = some (.call source makeState))
    (resolves : ∀ m o m', resolve m = .ok o m' → R.Still m m' ∧ ∀ tree, o = some tree → source.Names tree)
    (rested : R.Rested m p) (calm : m.context.returnRequest = none)
    (ok : Behaviour.callTarget (slots p.site) resolve makeState p.depth m = .ok o m₁) :
    (o = none ∧ R.Done p m (Status.failure.isTerminal = true) m₁ ∧ m₁.context.returnRequest = none) ∨
      ∃ tree state fresh, o = some (tree, state, fresh) ∧ R.Targeted source p m m₁ tree state := by
  rcases Behaviour.callTarget_ok ok with ⟨tree, state, hs, rfl, rfl⟩ | ⟨fresh, outcome⟩
  · obtain ⟨names, admits⟩ : source.Names tree ∧ _ := rested.agrees.finds _ hn tree state hs
    refine .inr ⟨tree, state, false, rfl, names, rested.start, calm, hs, fun c recorded => ⟨?_, admits⟩⟩
    obtain ⟨tree', state', hs', rfl⟩ := (records_call hn m₁).mp recorded
    cases Eq.trans (Eq.symm hs) hs'
    rfl
  · have none : ∀ c, ¬ R.sys.Records m.runs.store p c := by
      intro c recorded
      obtain ⟨tree, state, hs, -⟩ := (records_call hn m).mp recorded
      exact fresh tree state hs
    rcases outcome with ⟨m₂, resolved, rfl, alike⟩ | ⟨tree, state, m₂, x, resolved, rfl, rfl⟩
    · have still := (resolves _ _ _ resolved).1.trans (.of_alike alike)
      exact .inl ⟨rfl, rested.unchanged still fun _ c _ => none c, still.calm calm⟩
    · have still := (resolves _ _ _ resolved).1.trans (.of_memory m₂ x)
      exact .inr ⟨tree, state, true, rfl, (resolves _ _ _ resolved).2 tree rfl, (rested.start.still still).set _,
        still.calm calm, slot_set _ p _, fun c recorded => absurd recorded (none c)⟩

theorem ticks_call {resolve : Run (Recorded μ σ) μ σ (Option TreeId)} {callee : TreeId → Callee (Recorded μ σ) μ σ}
    (hn : R.sys.nodeAt site = some (.call source makeState))
    (resolves : ∀ m o m', resolve m = .ok o m' → R.Still m m' ∧ ∀ tree, o = some tree → source.Names tree)
    (names : ∀ tree, (callee tree).name = R.sys.nameOf tree) (specs : ∀ tree, R.Works [tree] (callee tree).root) :
    R.Ticks site (.call (slots site) resolve makeState callee) := by
  intro d m st m' ready rested ok
  obtain rfl : m.context.depth = d := ready.depth
  obtain ⟨o, m₀, target, outcome⟩ := Behaviour.call_ok ok
  rcases callTarget_done (p := ⟨site, m.context.depth⟩) hn resolves rested ready.calm target with
    ⟨rfl, done, calm⟩ | ⟨tree, state, fresh, rfl, called⟩
  · rcases outcome with ⟨-, rfl, rfl⟩ | ⟨_, _, _, ho, -⟩
    · exact ⟨done, .of_calm calm⟩
    · cases ho
  have w := called.work
  have hc : R.sys.Child ⟨site, m.context.depth⟩ (Place.callee ⟨site, m.context.depth⟩ tree) := .called hn called.names
  rcases outcome with ⟨ho, -⟩ | ⟨tree', state', fresh', ho, outcome⟩
  · cases ho
  cases ho
  rcases outcome with ⟨refused, m₁, enter, alike, rfl, rfl⟩ | ⟨context, entered, ran⟩
  · have still : R.Still m₀ m₁ := .of_alike alike
    refine ⟨(w.still still).reset.rested (fun c _ recorded => ?_) (slot_reset _ ⟨site, m.context.depth⟩),
      .of_calm (still.calm called.calm)⟩
    -- a call in progress was admitted when it started, so it is not refused now
    obtain ⟨path, guards⟩ := ready.guards.imp fun path => w.moves.guards path
    have refusal := (guards.refused _ _).mp enter
    rw [show m₀.context.depth = m.context.depth from w.depth ready,
      Limits.refusal?_eq_none.mpr (called.only c recorded).2] at refusal
    cases refusal
  · obtain ⟨admits, m₃, child, outcome⟩ :=
      w.called ready hc (names tree) (specs tree) called.calm entered ran
    have w₁ := w.ticked hc child
    have others : ∀ c, ¬ (c ≠ Place.callee ⟨site, m.context.depth⟩ tree ∧
        R.sys.Records m.runs.store ⟨site, m.context.depth⟩ c) := fun c k => k.1 (called.only c k.2).1
    rcases outcome with ⟨rfl, rfl⟩ | ⟨terminal, rfl⟩
    · have same := (child.moves.parent hc).slot.trans called.slot
      refine ⟨w₁.done (fun n h => ?_) (fun c _ => ?_) nofun, child.asks⟩
      · obtain rfl := Option.some.inj (hn.symm.trans h)
        intro tree' state' hs
        cases Eq.trans (Eq.symm same) hs
        exact ⟨called.names, admits⟩
      · rw [records_call (p := ⟨site, m.context.depth⟩) hn m', same]
        constructor
        · exact fun k => ⟨tree, state, rfl, (k.resolve_left (others c)).1⟩
        · intro found
          obtain ⟨tree', state', hs, rfl⟩ := found
          cases hs
          exact .inr ⟨rfl, rfl⟩
    · refine ⟨w₁.reset.rested (fun c _ k => ?_) (slot_reset _ ⟨site, m.context.depth⟩), child.asks⟩
      exact Status.isTerminal_iff.mp terminal (k.resolve_left (others c)).2

/-! ## All nodes -/

theorem resolve_still {source : Source μ} {o : Option TreeId} (h : R.sys.resolve .recording source m = .ok o m') :
    R.Still m m' ∧ ∀ tree, o = some tree → source.Names tree := by
  obtain ⟨⟨x, rfl⟩, names⟩ := System.resolve_ok h
  exact ⟨.of_memory _ _, names⟩

theorem Still.of_chooses (h : (Stage.recording : Stage _ μ σ).Chooses site m m') : R.Still m m' := by
  obtain ⟨p, rfl⟩ | ⟨x, rfl⟩ := h
  · exact .of_store fun _ _ => rfl
  · exact .of_memory _ _

variable (R) in
/-- Surroundings on the recording stage in which the called trees come out well. -/
structure Surrounds (links : Links (Recorded μ σ) μ σ) : Prop where
  cell : links.cell = Stage.recording.cell
  chooser : links.chooser = Stage.recording.chooser
  watch : links.watch = Stage.recording.watch
  resolve : ∀ source m o m', links.resolve source m = .ok o m' →
    R.Still m m' ∧ ∀ tree, o = some tree → source.Names tree
  names : ∀ tree, (links.callee tree).name = R.sys.nameOf tree
  callee : ∀ tree, R.Works [tree] (links.callee tree).root

theorem ofTick_reset {tick : Run (Recorded μ σ) μ σ Status} {fire : Bool} {u : Unit}
    (h : (Behaviour.ofTick tick).reset d fire m = .ok u m') : m' = m := by
  simp only [Behaviour.ofTick, Run.pure_eq_ok] at h
  exact h.2.symm

/-- The node at an address, in surroundings in which the called trees come out well. -/
theorem works_node {links : Links (Recorded μ σ) μ σ} (surrounds : R.Surrounds links) (node : Node μ σ) :
    ∀ site, R.sys.nodeAt site = some node → R.Works site (node.behaviour links site) := by
  intro site hn
  induction hn using System.nodeAt_upward with
  | step site node hn below =>
  have among : R.WorksAll site node (Node.behaviours links site 0 node.children) :=
    ⟨hn, Node.behaviours_length .., Node.forall_behaviours_getElem? below⟩
  rw [Node.behaviour.eq_def, surrounds.watch]
  refine works_recording hn ?_ ?_
  · rw [surrounds.cell]
    cases node
    case action => exact ticks_body hn rfl (by simp) (by simp [Node.Finds]) (R.docile _ _ hn) rfl
    case custom => exact ticks_body hn rfl (by simp) (by simp [Node.Finds]) (R.docile _ _ hn) rfl
    case condition => exact ticks_condition hn
    case waitUntil => exact ticks_timed hn rfl (by simp) (by simp [Node.Finds]) Behaviour.waitUntil_holdsWhileRunning
    case wait => exact ticks_timed hn rfl (by simp) (by simp [Node.Finds]) Behaviour.wait_holdsWhileRunning
    case pause => exact ticks_timed hn rfl (by simp) (by simp [Node.Finds]) Behaviour.pause_holdsWhileRunning
    case earlyReturn => exact ticks_earlyReturn hn
    case invert child => exact ticks_invert hn (below 0 child rfl)
    case force child => exact ticks_force hn (below 0 child rfl)
    case guard child => exact ticks_guard hn (below 0 child rfl)
    case repeatTimes child | retry child =>
      exact ticks_iterate hn rfl (by simp [Node.Runs]) (by simp [Node.Finds]) (below 0 child rfl)
    case repeatUntil child => exact ticks_repeatUntil hn (below 0 child rfl)
    case timeout child => exact ticks_timeout hn (below 0 child rfl)
    case delay child => exact ticks_delay hn (below 0 child rfl)
    case scope child => exact ticks_scope hn (below 0 child rfl)
    case localScope child => exact ticks_localScope hn (below 0 child rfl)
    case sequence | selector =>
      exact ticks_inOrder ⟨by simp, by simp [Node.Runs], by simp [Node.Finds]⟩ among
    case reactiveSequence | reactiveSelector =>
      exact ticks_reactive ⟨by simp, by simp [Node.Runs], by simp [Node.Finds]⟩ among
    case parallel | join =>
      exact ticks_visitAll ⟨by simp, by simp [Node.Runs], by simp [Node.Finds, Node.children]⟩ among rfl
    case race => exact ticks_race ⟨by simp, by simp [Node.Runs], by simp [Node.Finds, Node.children]⟩ among
    case selectOne policy children =>
      rw [surrounds.chooser]
      exact ticks_selectOne ⟨by simp, by simp [Node.Runs], by simp [Node.Finds]⟩ among
        (fun _ _ _ _ h => .of_chooses (Stage.pick_ok h)) fun _ _ _ h => .of_chooses (Stage.complete_ok h)
    case call source makeState => exact ticks_call hn (surrounds.resolve source) surrounds.names surrounds.callee
  · rw [surrounds.cell]
    cases node
    case action | earlyReturn =>
      exact resets_leaf hn rfl (by simp) (by simp [Node.Finds]) fun d fire m m' ok => .inl ⟨m.memory, ofTick_reset ok⟩
    case custom =>
      refine resets_leaf hn rfl (by simp) (by simp [Node.Finds]) fun d fire m m' ok => .inl ?_
      simp only [Behaviour.custom, Run.remember_eq_ok] at ok
      exact ⟨_, ok.symm⟩
    case condition | waitUntil | wait | pause =>
      refine resets_leaf hn rfl (by simp) (by simp [Node.Finds]) fun d fire m m' ok => .inr ?_
      exact (Cell.forget_eq_ok.mp ok).symm
    case invert child | force child | guard child | repeatUntil child =>
      exact resets_started hn rfl (below 0 child rfl) (by simp [Node.Runs])
    case repeatTimes child | retry child => exact resets_iteration hn rfl (below 0 child rfl) (by simp [Node.Runs])
    case timeout child => exact resets_timeout hn (below 0 child rfl)
    case delay child => exact resets_delay hn (below 0 child rfl)
    case scope child => exact resets_scope hn (below 0 child rfl)
    case localScope child => exact resets_localScope hn (below 0 child rfl)
    case sequence | selector | reactiveSequence | reactiveSelector | selectOne =>
      exact resets_child ⟨by simp, by simp [Node.Runs], by simp [Node.Finds]⟩ among
    case parallel | join | race =>
      exact resets_tracked ⟨by simp, by simp [Node.Runs], by simp [Node.Finds, Node.children]⟩ among
    case call => exact resets_call hn surrounds.callee

/-! ## Whole trees -/

/-- The root of a tree. A number that names no tree stands for a root that is never in a run. -/
theorem works_rootOf {links : Links (Recorded μ σ) μ σ} (surrounds : R.Surrounds links) (tree : TreeId) :
    R.Works [tree] (R.sys.rootOf links tree) := by
  unfold System.rootOf
  cases ht : R.sys.trees[tree]? with
  | some t => exact works_node surrounds t.root [tree] (R.sys.nodeAt_root ht)
  | none =>
    have none : R.sys.nodeAt [tree] = none := congrArg (Option.map _) ht
    have closed : ∀ {m d}, R.Sound m ⟨[tree], d⟩ → ¬ Open m.runs.history ⟨[tree], d⟩ :=
      fun sound => (sound _ .refl).bare none
    refine ⟨fun d m st m' ready sound ok => ?_, fun d fire m m' sound _ ok => ?_⟩
    · simp only [Behaviour.ofTick, Run.pure_eq_ok] at ok
      obtain ⟨rfl, rfl⟩ := ok
      exact ⟨.refl _ m, sound, iff_of_false (closed sound) nofun, .of_calm ready.calm⟩
    · obtain rfl := ofTick_reset ok
      exact ⟨.refl _ _, sound, closed sound, rfl⟩

theorem resetRoot_gone (levels : Nat) (tree : TreeId) :
    R.Works [tree] ⟨throw .callLimit, R.sys.resetRoot .recording levels tree⟩ := by
  induction levels generalizing tree with
  | zero => exact ⟨fun _ _ _ _ _ _ ok => by simp at ok, fun _ _ _ _ _ _ ok => by simp [System.resetRoot] at ok⟩
  | succ levels ih =>
    have surrounds : R.Surrounds (R.sys.resetLinks .recording (R.sys.resetRoot .recording levels)) :=
      ⟨rfl, rfl, rfl, fun _ _ _ _ ok => by simp [System.resetLinks] at ok, fun _ => rfl, ih⟩
    exact ⟨fun _ _ _ _ _ _ ok => by simp at ok, (works_rootOf surrounds tree).reset⟩

/-- A whole tree, ticked so many levels deep at most. -/
theorem works_root (host : Host (Recorded μ σ) μ σ) (levels : Nat) (tree : TreeId) :
    R.Works [tree] ⟨R.sys.tickRoot .recording host levels tree, R.sys.resetAt .recording tree⟩ := by
  refine ⟨?_, fun d fire m => (resetRoot_gone _ tree).reset d fire m⟩
  induction levels generalizing tree with
  | zero => exact fun _ _ _ _ _ _ ok => by simp [System.tickRoot] at ok
  | succ levels ih =>
    have surrounds : R.Surrounds
        (R.sys.tickLinks .recording host (R.sys.tickRoot .recording host levels)) :=
      ⟨rfl, rfl, rfl, fun _ _ _ _ => resolve_still, fun _ => rfl,
        fun tree => ⟨ih tree, fun d fire m => (resetRoot_gone _ tree).reset d fire m⟩⟩
    intro d m st m' ready sound ok
    simp only [System.tickRoot, System.inUse, Stage.modifyStore, Run.bind_eq_ok, Run.pure_eq_ok,
      EStateM.Result.ok.injEq] at ok
    obtain ⟨_, _, ⟨-, rfl⟩, _, m₁, ticked, _, _, ⟨-, rfl⟩, rfl, rfl⟩ := ok
    have before : R.Still m (m.onRuns (Stage.recording.onStore fun s => { s with running := tree :: s.running })) :=
      .of_store fun _ _ => rfl
    have after : R.Still m₁ (m₁.onRuns (Stage.recording.onStore fun s => { s with running := s.running.tail })) :=
      .of_store fun _ _ => rfl
    have child := (works_rootOf surrounds tree).tick d _ _ m₁ (ready.still before)
      (sound.congr fun q _ => before.unmoved q) ticked
    exact {
      moves := (before.moves.trans child.moves).trans after.moves
      sound := child.sound.congr fun q _ => after.unmoved q
      opens := (after.unmoved _).opens.trans child.opens
      asks := child.asks.still after }

end Regime

end BehaviorTree
