/-
  BehaviorTree.Proofs.Walks.Trees: ticks of whole trees, told by deeds.

  Every node of a modest system is told by deeds, from its entry up to its answer, whatever
  depth it is ticked at (`starts_node`). The levels that a tick counts down do not run out,
  for the recursion guard stops it first (`rooted_tickRoot`); so a top-level tick ends, well
  or with a fault of the program (`tick_ticked`).
-/

import BehaviorTree.Proofs.Walks.Calls
import BehaviorTree.Proofs.Walks.Several

namespace BehaviorTree

variable {μ σ : Type} {sys : System μ σ} {takes : Prop} {limit : Nat} {p : Place} {path : List Place}
  {m m₁ m' : Machine (Recorded μ σ) μ σ} {st : Status} {site : Address} {d : Nat} {tree : TreeId}

namespace System

/-! ## Nodes -/

/-- A node that is told from its entry up to its answer is told as a whole. -/
theorem Starts.watch {inner : Behaviour (Recorded μ σ) μ σ}
    (starts : ∀ path, sys.Starts takes limit ⟨site, d⟩ path inner.tick)
    (under : sys.Under path ⟨site, d⟩) :
    sys.Walks takes limit (.within path) (Stage.recording.watch site inner).tick fun _ => .within path := by
  intro m sits
  have depth : m.context.depth = d := sits.depth.trans under.depth.symm
  have entered := (Deed.entered under depth : sys.Deed takes (.within path) m _ _).deeds
  have came := starts path _ (entered.sits sits) List.getLast?_concat
  rw [recording_tick]
  cases answered : inner.tick (Recorded.add (.entered site (Recorded.scene m)) m) with
  | ok st m₁ =>
    rw [answered] at came
    cases came with
    | ok deeds => exact .ok ((entered.trans deeds).step (.left under))
  | error e m₁ =>
    rw [answered] at came
    cases came with
    | error raised deeds broken => exact .error raised (entered.trans deeds) broken

theorem chooser_pick {policy : Policy μ} (count : Nat) :
    Incidental takes ((Stage.recording (μ := μ) (σ := σ).chooser site policy).pick count) := by
  cases policy with
  | picker initial => exact .store (fun _ _ _ => rfl) fun _ _ => rfl
  | custom pick complete => exact .memory

theorem chooser_complete {policy : Policy μ} (i : Nat) :
    Incidental takes ((Stage.recording (μ := μ) (σ := σ).chooser site policy).complete i) := by
  cases policy with
  | picker initial => exact .store (fun _ _ _ => rfl) fun _ _ => rfl
  | custom pick complete => exact .memory

/-- The tick of every node is told by deeds, in any surroundings whose called trees are. -/
theorem starts_node (modest : sys.Modest takes) (links : Links (Recorded μ σ) μ σ)
    (cells : links.cell = Stage.recording.cell) (choosers : links.chooser = Stage.recording.chooser)
    (watches : links.watch = Stage.recording.watch) (resolves : links.resolve = sys.resolve .recording)
    (resets : sys.SweepingHost links.host) (names : ∀ tree, (links.callee tree).name = sys.nameOf tree)
    (rooted : ∀ tree, d + 1 ≤ limit → sys.Rooted takes limit (d + 1) tree (links.callee tree).root.tick)
    (sweeps : ∀ tree, sys.SweepsRoot (fun _ _ => True) tree (links.callee tree).root) (node : Node μ σ) :
    ∀ site, sys.nodeAt site = some node → ∃ inner, node.behaviour links site = Stage.recording.watch site inner ∧
      ∀ path, sys.Starts takes limit ⟨site, d⟩ path inner.tick := by
  intro site hn
  induction hn using nodeAt_upward with
  | step site node hn ih =>
  have fares : ∀ i child, node.children[i]? = some child →
      sys.Fares takes limit (i :: site) d (child.behaviour links (i :: site)) := by
    intro i child hc
    obtain ⟨inner, same, starts⟩ := ih i child hc
    have deeper : ∀ tree, sys.SweepsRoot (Setting.Deeper fun _ _ => True) tree (links.callee tree).root :=
      fun tree m depth fire followable _ => sweeps tree m depth fire followable trivial
    obtain ⟨inner', same', sweep⟩ := sweeps_node cells watches deeper child _ (sys.nodeAt_child hn hc)
    refine ⟨fun path under => ?_, fun m depth fire followable => ?_⟩
    · rw [same]
      exact Starts.watch starts under
    · rw [same']
      exact sweep m depth fire followable trivial
  have children : sys.FaresFrom takes limit ⟨site, d⟩ node 0 (Node.behaviours links site 0 node.children) := by
    intro i b hb
    obtain ⟨child, hc, rfl⟩ := Node.behaviours_some hb
    rw [Nat.zero_add]
    exact ⟨(List.getElem?_eq_some_iff.mp hc).1, fares i child hc⟩
  have modestHere := modest _ _ hn
  have ordinary : node.Ordinary → ∀ {b : Behaviour (Recorded μ σ) μ σ},
      (sys.Working ⟨site, d⟩ node → ∀ path, sys.Answering takes limit ⟨site, d⟩ path b.tick) →
      ∀ path, sys.Starts takes limit ⟨site, d⟩ path b.tick :=
    fun plain _ answers path m sits _ => answers ⟨hn, plain⟩ path m sits
  rw [Node.behaviour.eq_def, watches, cells]
  refine ⟨_, rfl, ?_⟩
  cases node
  case condition => exact fun path => Starts.condition hn
  case call =>
    rw [resolves]
    exact fun path => Starts.call hn names rooted
  all_goals refine ordinary trivial fun w path => ?_
  case action | custom => exact w.callback_answers resets modestHere
  case waitUntil => exact w.waitUntil
  case wait => exact w.wait
  case pause => exact w.pause
  case earlyReturn => exact w.earlyReturn
  case invert child => exact w.invert (fares 0 child rfl)
  case force child => exact w.force (fares 0 child rfl)
  case guard child => exact w.guard (fares 0 child rfl)
  case repeatTimes child | retry child => exact w.iterate (fares 0 child rfl)
  case repeatUntil child => exact w.repeatUntil (fares 0 child rfl)
  case timeout child => exact w.timeout (fares 0 child rfl)
  case delay child => exact w.delay (fares 0 child rfl)
  case scope child => exact w.scope (fares 0 child rfl) resets modestHere
  case localScope child => exact w.localScope (fares 0 child rfl)
  case sequence | selector => exact w.inOrder children
  case reactiveSequence | reactiveSelector => exact w.reactive children
  case parallel | join => exact w.visitAll children
  case race => exact w.race children
  case selectOne =>
    rw [choosers]
    exact w.selectOne children chooser_pick chooser_complete

/-! ## Trees -/

/-- The root of a tree is told by deeds, where the levels that are left reach beyond the limit. -/
theorem rooted_tickRoot (modest : sys.Modest takes) {host : Host (Recorded μ σ) μ σ} (resets : sys.SweepingHost host)
    (levels d : Nat) (tree : TreeId) (enough : limit < d + levels) (inside : d ≤ limit) :
    sys.Rooted takes limit d tree (sys.tickRoot .recording host levels tree) := by
  induction levels generalizing d tree with
  | zero => omega
  | succ levels ih =>
    refine Rooted.within .inUse ?_
    unfold rootOf
    cases ht : sys.trees[tree]? with
    | none => exact .void ht (.refl _)
    | some t =>
      obtain ⟨inner, same, starts⟩ := starts_node modest
        (sys.tickLinks .recording host (sys.tickRoot .recording host levels)) rfl rfl rfl rfl resets (fun _ => rfl)
        (fun tree deeper => ih (d + 1) tree (by omega) deeper) (fun tree => sweeps_resetAt tree _) t.root [tree]
        (sys.nodeAt_root ht)
      exact .root ⟨t, ht⟩ (same ▸ .refl _) starts

theorem sweeping_nestedHost (nesting : Nat) : sys.SweepingHost (sys.nestedHost .recording nesting) := by
  intro tree fire m followable
  have swept := sweeps_resetAt tree (pure .failure) m 0 fire followable trivial
  cases nesting <;> exact swept

/-! ## Ticks from outside -/

/-- The same slots, and nothing is noted. -/
structure Alongside (m m' : Machine (Recorded μ σ) μ σ) : Prop where
  slots : ∀ q, m'.runs.store.slot q = m.runs.store.slot q
  height : m'.runs.store.height = m.runs.store.height
  history : m'.runs.history = m.runs.history

theorem Aside.alongside (h : Aside takes m m') : Alongside m m' := ⟨h.slots, h.height, h.history⟩

theorem Alongside.trans (h : Alongside m m₁) (k : Alongside m₁ m') : Alongside m m' :=
  ⟨fun q => (k.slots q).trans (h.slots q), k.height.trans h.height, k.history.trans h.history⟩

theorem Alongside.followable (h : Alongside m m') (k : sys.Followable m.runs.store) : sys.Followable m'.runs.store :=
  k.of_faded (fun q => .inl (h.slots q)) h.height

variable (sys takes) in
/-- A tree's tick starts: with the recursion guard that its limits ask for, and no call refused yet. -/
structure Begins (tree : TreeId) (m m₀ : Machine (Recorded μ σ) μ σ) : Prop extends Alongside m m₀ where
  depth : m₀.context.depth = 0
  maxDepth : m₀.context.maxDepth = (sys.limitsOf tree).maxCallDepth.toNat
  stack : m₀.context.stack = (sys.limitsOf tree).stackCapacity.map fun capacity => { capacity := capacity.toNat }
  overflow : m₀.context.overflow = none

variable (sys takes) in
/-- What comes of a tick that starts. -/
inductive Ran (tree : TreeId) (m : Machine (Recorded μ σ) μ σ) :
    EStateM.Result Fault (Machine (Recorded μ σ) μ σ) Status → Prop
  | ended {st : Status} {m₀ m₁ m' : Machine (Recorded μ σ) μ σ} : sys.Begins tree m m₀ →
      sys.Deeds takes (.within []) m₀ (.within []) m₁ → Alongside m₁ m' →
      (m'.runs.store.progress tree).overflow = m₁.context.overflow → Ran tree m (.ok st m')
  | stopped {e : Fault} {s : Spot} {m₀ m₁ m' : Machine (Recorded μ σ) μ σ} : sys.Begins tree m m₀ → e.Raised →
      sys.Deeds takes (.within []) m₀ s m₁ → sys.Broken m₁ m' → Ran tree m (.error e m')

theorem Begins.sits (h : sys.Begins tree m m₁) (followable : sys.Followable m.runs.store) :
    sys.Sits (sys.limitsOf tree).maxCallDepth.toNat (.within []) m₁ :=
  ⟨h.depth, h.maxDepth, h.toAlongside.followable followable⟩

theorem Begins.aside (h : sys.Begins tree m m₁) (k : Aside False m₁ m') : sys.Begins tree m m' where
  toAlongside := h.toAlongside.trans k.alongside
  depth := k.depth.trans h.depth
  maxDepth := k.maxDepth.trans h.maxDepth
  stack := k.stack.trans h.stack
  overflow := (k.overflow.resolve_right id).trans h.overflow

/-- The tick of a tree's root that no call has led to. -/
theorem Rooted.top {tick : Run (Recorded μ σ) μ σ Status} (rooted : sys.Rooted takes limit 0 tree tick)
    (sits : sys.Sits limit (.within []) m) : ∃ m₁, Aside False m m₁ ∧ match tick m with
      | .ok _ m' => ∃ m₂, sys.Deeds takes (.within []) m₁ (.within []) m₂ ∧ Aside False m₂ m'
      | .error e m' => e.Raised ∧ ∃ s m₂, sys.Deeds takes (.within []) m₁ s m₂ ∧ sys.Broken m₂ m' := by
  cases rooted with
  | void _ runs =>
    obtain ⟨m₁, before, m₃, ran, after⟩ := runs m
    rw [ran]
    exact ⟨m₁, before, m₁, .refl, after⟩
  | @root inner _ runs starts =>
    obtain ⟨m₁, before, ran⟩ := runs m
    have sits' : sys.Sits limit (.within []) m₁ :=
      ⟨before.depth.trans sits.depth, before.maxDepth.trans sits.maxDepth, before.followable sits.followable⟩
    have under : sys.Under [] ⟨[tree], 0⟩ := ⟨tree, rfl⟩
    have came := Starts.watch starts under m₁ sits'
    refine ⟨m₁, before, ?_⟩
    generalize (Stage.recording.watch [tree] inner).tick m₁ = r at ran came
    cases came with
    | ok deeds =>
      obtain ⟨m₃, ok, after⟩ := ran
      rw [ok]
      exact ⟨_, deeds, after⟩
    | error raised deeds broken =>
      dsimp only at ran
      rw [ran]
      exact ⟨raised, _, _, deeds, broken⟩

/-- Nothing of a run has happened before it, and after it only the marks on the tree change. -/
theorem Ran.after {r : EStateM.Result Fault (Machine (Recorded μ σ) μ σ) Status} (h : Alongside m m₁)
    (k : sys.Ran takes tree m₁ r) : sys.Ran takes tree m r := by
  cases k with
  | ended begins deeds after overflow =>
    exact .ended { begins with toAlongside := h.trans begins.toAlongside } deeds after overflow
  | stopped begins raised deeds broken =>
    exact .stopped { begins with toAlongside := h.trans begins.toAlongside } raised deeds broken

theorem tickFresh_ran (modest : sys.Modest takes) {host : Host (Recorded μ σ) μ σ} (resets : sys.SweepingHost host)
    (followable : sys.Followable m.runs.store) (tree : TreeId) (tick : UInt64) (delta : Float32) (state : Option σ) :
    sys.Ran takes tree m (sys.tickFresh .recording host tree tick delta state m) := by
  let m₀ : Machine (Recorded μ σ) μ σ := { m with context := sys.freshContext tree tick delta state m.context.layers }
  have begins : sys.Begins tree m m₀ := ⟨⟨fun _ => rfl, rfl, rfl⟩, rfl, rfl, rfl, rfl⟩
  have rooted : sys.Rooted takes (sys.limitsOf tree).maxCallDepth.toNat 0 tree
      (sys.tickRoot .recording host ((sys.limitsOf tree).maxCallDepth.toNat + 1) tree) :=
    rooted_tickRoot modest resets _ 0 tree (by omega) (by omega)
  obtain ⟨m₁, before, came⟩ := rooted.top (begins.sits followable)
  have here : sys.tickHere .recording host tree m₀ =
      sys.tickRoot .recording host ((sys.limitsOf tree).maxCallDepth.toNat + 1) tree m₀ := rfl
  rw [← here] at came
  show sys.Ran takes tree m (EStateM.bind (sys.tickHere .recording host tree) _ m₀)
  unfold EStateM.bind
  generalize sys.tickHere .recording host tree m₀ = r at came
  cases r with
  | ok st m₃ =>
    obtain ⟨m₂, deeds, after⟩ := came
    refine .ended (begins.aside before) deeds (after.alongside.trans ⟨fun _ => rfl, rfl, rfl⟩) ?_
    exact (congrArg Progress.overflow ((Store.progress_onProgress ..).trans (if_pos rfl))).trans
      (after.overflow.resolve_right id)
  | error e m₃ =>
    obtain ⟨raised, s, m₂, deeds, broken⟩ := came
    exact .stopped (begins.aside before) raised deeds broken

variable (sys takes) in
/-- What comes of a tick: it is turned away while another one uses the call stack of the tree, or it runs. -/
inductive Ticked (tree : TreeId) (m : Machine (Recorded μ σ) μ σ) :
    EStateM.Result Fault (Machine (Recorded μ σ) μ σ) Status → Prop
  | busy {m' : Machine (Recorded μ σ) μ σ} : (m.runs.store.progress tree).busy = true → Alongside m m' →
      Ticked tree m (.ok .failure m')
  | ran {r : EStateM.Result Fault (Machine (Recorded μ σ) μ σ) Status} : sys.Ran takes tree m r → Ticked tree m r

/-- A top-level tick ends: it comes to an answer, or to a fault of the program. -/
theorem tick_ticked (modest : sys.Modest takes) (followable : sys.Followable m.runs.store) (tree : TreeId)
    (delta : Float32) (state : Option σ) :
    sys.Ticked takes tree m (sys.tick .recording tree delta state m) := by
  let counted : Machine (Recorded μ σ) μ σ := m.onRuns (Stage.recording.onStore
    (·.onProgress tree ({ · with ticks := (m.runs.store.progress tree).ticks + 1 })))
  let entered : Machine (Recorded μ σ) μ σ := counted.onRuns (Stage.recording.onStore
    (·.onProgress tree ({ · with busy := true })))
  have fresh : ∀ n, Alongside m n → sys.Ran takes tree m (sys.tickFresh .recording
      (sys.nestedHost .recording nestingBound) tree (m.runs.store.progress tree).ticks delta state n) := fun n beside =>
    (tickFresh_ran modest (sweeping_nestedHost nestingBound) (beside.followable followable) ..).after beside
  show sys.Ticked takes tree m (sys.tickAfter .recording (m.runs.store.progress tree)
    (sys.nestedHost .recording nestingBound) tree delta state counted)
  unfold tickAfter
  split
  · exact .ran (fresh counted ⟨fun _ => rfl, rfl, rfl⟩)
  · split
    · rename_i busy
      exact .busy busy ⟨fun _ => rfl, rfl, rfl⟩
    · have ran := fresh entered ⟨fun _ => rfl, rfl, rfl⟩
      show sys.Ticked takes tree m (EStateM.bind (sys.tickFresh _ _ tree _ delta state) _ entered)
      unfold EStateM.bind
      generalize sys.tickFresh .recording _ tree _ delta state entered = r at ran
      cases ran with
      | ended begins deeds after overflow =>
        refine .ran (.ended begins deeds (after.trans ⟨fun _ => rfl, rfl, rfl⟩) ?_)
        exact (congrArg Progress.overflow ((Store.progress_onProgress ..).trans (if_pos rfl))).trans overflow
      | stopped begins raised deeds broken => exact .ran (.stopped begins raised deeds broken)

end System

end BehaviorTree
