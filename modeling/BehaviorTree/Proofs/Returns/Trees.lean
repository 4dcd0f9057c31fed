/-
  BehaviorTree.Proofs.Returns.Trees: the ticks of all nodes and trees, seen in a recorded
  history.

  Around each node the recording adds the two moments that open and close its place on the
  path (`heeds_watch`, `heeds_earlyReturn`, `heeds_scope`). With that every node of a tame
  system heeds requests, and so do whole trees at any depth (`heeds_root`).
-/

import BehaviorTree.Proofs.Returns.Several

namespace BehaviorTree

variable {μ σ : Type}

namespace System

open Machine (Free)

variable {sys : System μ σ} {path : List Place} {site : Address} {d : Nat} {st : Status}
  {m m₀ m₁ m' : Machine (Recorded μ σ) μ σ} {b B : Behaviour (Recorded μ σ) μ σ}

/-! ## What the recording adds -/

/-- What a watched tick adds to the history. -/
theorem follows_watched {s s' : Stand μ} {x : Moment μ σ} {xs : List (Moment μ σ)}
    (calm : m.context.returnRequest = none) (inside : sys.Follows ⟨⟨site, m.context.depth⟩ :: path, none⟩ xs s)
    (last : sys.Step s x s') : sys.Follows ⟨path, none⟩ (.entered site (Recorded.scene m) :: (xs ++ [x])) s' :=
  .cons (.entered (Recorded.scene m) calm) (inside.append (.single last))

/-- A node through which requests pass. -/
theorem heeds_watch (returns : ∀ v, sys.nodeAt site ≠ some (.earlyReturn v)) (plain : ¬ sys.IsScope site)
    (spec : sys.Heeds (⟨site, d⟩ :: path) d b) : sys.Heeds path d (Stage.recording.watch site b) := by
  intro m st m' hd calm h
  obtain ⟨m₁, ticked, rfl⟩ := recording_tick_ok h
  subst hd
  have goes : sys.Goes (⟨site, m.context.depth⟩ :: path) (Recorded.add (.entered site (Recorded.scene m)) m) m₁ :=
    spec _ _ _ rfl calm ticked
  obtain ⟨xs, pending, hx, inside, request, allowed⟩ := goes.follows
  refine ⟨goes.depth, _, pending, ?_, follows_watched calm inside (x := .left site st (Recorded.scene m₁)) ?_, request,
    fun a ha => (allowed a ha).leave⟩
  · simp [hx]
  · have same : m₁.context.depth = m.context.depth := goes.depth
    rw [← same] at allowed ⊢
    cases pending with
    | none => exact .left (Recorded.scene m₁) returns request
    | some a => exact .passed (Recorded.scene m₁) returns plain request (allowed a rfl)

/-- The leaf that asks for an early return. -/
theorem heeds_earlyReturn {v : Verdict} (hn : sys.nodeAt site = some (.earlyReturn v)) :
    sys.Heeds path d (Stage.recording.watch site (.earlyReturn v)) := by
  intro m st m' hd calm h
  obtain ⟨m₁, ticked, rfl⟩ := recording_tick_ok h
  obtain ⟨rfl, alike⟩ := Behaviour.earlyReturn_ok ticked
  have depth : m₁.context.depth = m.context.depth := alike.depth
  have asked : sys.Step ⟨⟨site, m.context.depth⟩ :: path, none⟩ (.left site v.status (Recorded.scene m₁))
      ⟨path, some ⟨v, m₁.memory⟩⟩ := by
    rw [← depth]
    exact .asked (Recorded.scene m₁) hn alike.request
  refine ⟨depth, _, some ⟨v, m₁.memory⟩, ?_, follows_watched calm (.nil _) asked, alike.request, ?_⟩
  · rw [Recorded.add_history, alike.runs]
    exact List.append_assoc ..
  · intro a impossible
    cases impossible
    exact .refl

/-! ## Scopes -/

/-- Within a scope: either no request came up, or the scope took it away and was told its verdict. -/
theorem scope_settles {host : Host (Recorded μ σ) μ σ} {hooks : Hooks μ σ} (tame : hooks.onEnter.Tame)
    (spec : sys.Heeds path d b) (hush : sys.Hushed path d b) (hd : m.context.depth = d)
    (calm : m.context.returnRequest = none)
    (h : (Behaviour.scope (Stage.recording.cell site) host hooks b).tick m = .ok st m') :
    m'.context.depth = d ∧ m'.context.returnRequest = none ∧ ∃ xs pending,
      m'.runs.history = m.runs.history ++ xs ∧ sys.Follows ⟨path, none⟩ xs ⟨path, pending⟩ ∧
      ∀ a, pending = some a → st = a.verdict.status ∧
        ∃ y, sys.Unwinds path a.memory y ∧ m'.memory = hooks.onExit a.verdict.status y := by
  obtain ⟨m₀, ticked, m₁, m₂, opened, child, settled, closed⟩ := Behaviour.scope_ok h
  have free : m.Free m₀ := by
    rcases Behaviour.openScope_ok opened with ⟨-, rfl⟩ | ⟨n, alike, entered⟩
    · exact .of_stays (.refl _)
    · exact ((Free.set m site _ _).trans (.of_alike alike)).trans (.of_stays (tame.stays entered))
  have goes := Goes.after_free calm free (spec _ _ _ (free.depth.trans hd) (free.calm calm) child)
  have exits : m₂.Free m' := by
    rcases Behaviour.closeScope_ok closed with ⟨-, rfl⟩ | ⟨-, n, alike, rfl⟩
    · exact .of_stays (.refl _)
    · exact ((Free.reset m₂ site _).trans (.of_alike alike)).trans (.withMemory ..)
  obtain ⟨xs, pending, hx, inside, request, allowed⟩ := goes.follows
  rcases Behaviour.settleReturn_ok settled with ⟨none, rfl, rfl⟩ | ⟨asked, n, alike, outcome⟩
  · obtain rfl : pending = .none := Option.map_eq_none_iff.mp (request.symm.trans none)
    refine ⟨(exits.depth.trans goes.depth).trans hd, exits.calm none, xs, .none, exits.history.trans hx, inside, ?_⟩
    intro a impossible
    cases impossible
  · obtain ⟨a, rfl, rfl⟩ := Option.map_eq_some_iff.mp (request.symm.trans asked)
    have quiet : sys.Quiet path n m₂ := by
      rcases outcome with ⟨-, abandoned⟩ | ⟨-, rfl⟩
      · exact hush _ _ _ (hd ▸ abandoned)
      · exact .refl _
    obtain ⟨ys, hy, rest⟩ := quiet.follows
    have cleared : n.context.returnRequest = .none := alike.request
    have depth : n.context.depth = d := (alike.depth.trans goes.depth).trans hd
    have unwound : sys.Unwinds path a.memory n.memory := alike.memory ▸ allowed a rfl
    refine ⟨(exits.depth.trans quiet.depth).trans depth, exits.calm (quiet.request.trans cleared), xs ++ ys, some a, ?_,
      inside.append (rest _ fun _ h => Option.some.inj h ▸ unwound), ?_⟩
    · rw [exits.history, hy, alike.runs]
      exact (congrArg (· ++ ys) hx).trans (List.append_assoc ..)
    · intro _ impossible
      cases impossible
      rcases Behaviour.closeScope_ok closed with ⟨running, -⟩ | ⟨-, k, alike', rfl⟩
      · exact absurd running (by cases a.verdict <;> simp [Verdict.status])
      · refine ⟨rfl, _, unwound.trans quiet.memory, ?_⟩
        rw [Machine.withMemory_memory, alike'.memory]
        rfl

theorem heeds_scope {host : Host (Recorded μ σ) μ σ} {hooks : Hooks μ σ} {child : Node μ σ}
    (hn : sys.nodeAt site = some (.scope hooks child)) (tame : hooks.onEnter.Tame)
    (spec : sys.Heeds (⟨site, d⟩ :: path) d b) (hush : sys.Hushed (⟨site, d⟩ :: path) d b) :
    sys.Heeds path d (Stage.recording.watch site (.scope (Stage.recording.cell site) host hooks b)) := by
  intro m st m' hd calm h
  obtain ⟨m₁, ticked, rfl⟩ := recording_tick_ok h
  subst hd
  obtain ⟨depth, request, xs, pending, hx, inside, consumed⟩ :=
    scope_settles (m := Recorded.add (.entered site (Recorded.scene m)) m) tame spec hush rfl calm ticked
  refine ⟨depth, _, none, ?_, follows_watched calm inside (x := .left site st (Recorded.scene m₁)) ?_, request,
    Allows.none _ _⟩
  · simp [hx]
  · rw [← depth] at consumed ⊢
    cases pending with
    | none => exact .left (Recorded.scene m₁) (fun v hv => by cases hn.symm.trans hv) request
    | some a =>
      obtain ⟨rfl, y, unwound, told⟩ := consumed a rfl
      exact .consumed (Recorded.scene m₁) hn request unwound told

/-! ## All nodes and trees -/

/-- What a called tree has to be for its caller, wherever it is called. -/
def Minds (sys : System μ σ) (tree : TreeId) (root : Behaviour (Recorded μ σ) μ σ) : Prop :=
  ∀ path d, Beyond path ⟨[tree], d⟩ → sys.Heeds path d root ∧ sys.Hushed path d root

/-- Every node of a tame system heeds requests, in any surroundings whose called trees do. -/
theorem heeds_node (tame : sys.Tame) (links : Links (Recorded μ σ) μ σ) (cells : links.cell = Stage.recording.cell)
    (choosers : links.chooser = Stage.recording.chooser) (watches : links.watch = Stage.recording.watch)
    (resolves : links.resolve = sys.resolve .recording) (callees : ∀ tree, sys.Minds tree (links.callee tree).root)
    (node : Node μ σ) : ∀ site path d, sys.nodeAt site = some node → Beyond path ⟨site, d⟩ →
      sys.Heeds path d (node.behaviour links site) := by
  intro site outer d hn beyond
  induction hn using nodeAt_upward generalizing outer with
  | step site node hn ih =>
  generalize hp : (⟨site, d⟩ :: outer : List Place) = path
  have hushes : ∀ i (child : Node μ σ), node.children[i]? = some child →
      sys.Hushed path d (child.behaviour links (i :: site)) := fun i child hc =>
    hushed_node tame links cells watches (fun path d tree far => (callees tree path d far).2) child _ _ _
      (sys.nodeAt_child hn hc) (hp ▸ beyond.enter (Place.above_inside ⟨site, d⟩ i))
  have heeds : ∀ i (child : Node μ σ), node.children[i]? = some child →
      sys.Heeds path d (child.behaviour links (i :: site)) := fun i child hc =>
    ih i child hc _ (hp ▸ beyond.enter (Place.above_inside ⟨site, d⟩ i))
  have among : ∀ b ∈ Node.behaviours links site 0 node.children, sys.Heeds path d b ∧ sys.Hushed path d b :=
    Node.forall_behaviours fun i child hc => ⟨heeds i child hc, hushes i child hc⟩
  have passes : (∀ v, node ≠ .earlyReturn v) → (∀ hooks child, node ≠ .scope hooks child) → ∀ b,
      sys.Heeds path d b → sys.Heeds outer d (Stage.recording.watch site b) := by
    intro returns plain b spec
    refine heeds_watch (fun v hv => returns v (Option.some.inj (hn.symm.trans hv))) ?_ (hp ▸ spec)
    intro isScope
    obtain ⟨hooks, child, hs⟩ := isScope
    exact plain hooks child (Option.some.inj (hn.symm.trans hs))
  have tameHere := tame _ _ hn
  rw [Node.behaviour.eq_def, watches, cells]
  cases node
  case earlyReturn => exact heeds_earlyReturn hn
  case scope child =>
    subst hp
    exact heeds_scope hn tameHere (heeds 0 child rfl) (hushes 0 child rfl)
  all_goals refine passes (by simp) (by simp) _ ?_
  case action => exact heeds_action tameHere
  case custom => exact absurd tameHere id
  case condition => exact heeds_condition
  case waitUntil => exact heeds_timed Behaviour.waitUntil_holdsWhileRunning
  case wait => exact heeds_timed Behaviour.wait_holdsWhileRunning
  case pause => exact heeds_timed Behaviour.pause_holdsWhileRunning
  case invert child => exact heeds_noted (heeds 0 child rfl) Behaviour.invert_notesChild
  case force child => exact heeds_noted (heeds 0 child rfl) Behaviour.force_notesChild
  case guard child => exact heeds_noted (heeds 0 child rfl) Behaviour.guard_notesChild
  case repeatTimes child | retry child => exact heeds_iterate (heeds 0 child rfl)
  case repeatUntil child => exact heeds_noted (heeds 0 child rfl) Behaviour.repeatUntil_notesChild
  case timeout child => exact heeds_timeout (heeds 0 child rfl) (hushes 0 child rfl)
  case delay child => exact heeds_delay (heeds 0 child rfl)
  case localScope child => exact heeds_localScope (heeds 0 child rfl)
  case sequence | selector => exact heeds_inOrder fun b hb => (among b hb).1
  case reactiveSequence | reactiveSelector =>
    exact heeds_reactive (fun b hb => (among b hb).2) fun b hb => (among b hb).1
  case parallel | join => exact heeds_visitAll rfl (fun b hb => (among b hb).2) fun b hb => (among b hb).1
  case race => exact heeds_race (fun b hb => (among b hb).2) fun b hb => (among b hb).1
  case selectOne =>
    rw [choosers]
    exact heeds_selectOne hn fun b hb => (among b hb).1
  case call =>
    rw [resolves]
    exact heeds_call (fun _ _ _ h => resolve_free h) fun tree =>
      (callees tree path (d + 1) (hp ▸ beyond.enter (Place.above_callee ⟨site, d⟩ tree))).1

theorem heeds_rootOf (tame : sys.Tame) (host : Host (Recorded μ σ) μ σ) (below : TreeId → Run (Recorded μ σ) μ σ Status)
    (spec : ∀ tree, sys.Minds tree ⟨below tree, sys.resetAt .recording tree⟩) (tree : TreeId)
    (beyond : Beyond path ⟨[tree], d⟩) :
    sys.Heeds path d (sys.rootOf (sys.tickLinks .recording host below) tree) := by
  unfold rootOf
  split
  · rename_i t ht
    exact heeds_node tame _ rfl rfl rfl rfl spec t.root _ _ _ (sys.nodeAt_root ht) beyond
  · refine heeds_free fun m st m' h => ?_
    simp only [Behaviour.ofTick, Run.pure_eq_ok] at h
    exact h.2 ▸ .of_stays (.refl _)

/-- A whole tree heeds requests, at any depth and however many levels there are below. -/
theorem heeds_root (tame : sys.Tame) (host : Host (Recorded μ σ) μ σ) (levels : Nat) (tree : TreeId) :
    sys.Minds tree ⟨sys.tickRoot .recording host levels tree, sys.resetAt .recording tree⟩ := by
  induction levels generalizing tree with
  | zero =>
    refine fun path d beyond => ⟨fun m st m' _ _ h => ?_, hushed_at tame _ tree beyond⟩
    simp [tickRoot] at h
  | succ levels ih =>
    refine fun path d beyond => ⟨fun m st m' hd calm h => ?_, hushed_at tame _ tree beyond⟩
    simp only [tickRoot, inUse, Stage.modifyStore, Run.bind_eq_ok, Run.pure_eq_ok, EStateM.Result.ok.injEq] at h
    obtain ⟨_, m₀, ⟨-, entered⟩, _, m₁, ticked, _, _, ⟨-, rfl⟩, rfl, rfl⟩ := h
    have free : m.Free m₀ := entered ▸ ⟨rfl, rfl, id⟩
    have goes := heeds_rootOf tame host _ ih tree beyond _ _ _ (free.depth.trans hd) (free.calm calm) ticked
    exact (Goes.after_free calm free goes).quiet (.of_unwinds rfl rfl .refl rfl)

end System

end BehaviorTree
