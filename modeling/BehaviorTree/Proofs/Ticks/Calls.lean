/-
  BehaviorTree.Proofs.Ticks.Calls: ticks of calls, of whole trees, and from the top.

  A call that is resumed is admitted again: the guard looks at the depth only, and what
  fits in the slot of a call was admitted at this depth. So a called tree is left with
  something remembered only while its call says so. With that every node's tick goes well
  (`works_node`), and with it the ticks of whole trees at any depth (`works_root`).
-/

import BehaviorTree.Proofs.Ticks.Concurrent
import BehaviorTree.Proofs.Ticks.Single

namespace BehaviorTree

variable {ρ μ σ : Type}

namespace Setting

variable {S : Setting ρ μ σ} {p : Place} {site : Address} {base m m' : Machine ρ μ σ} {st : Status}
  {busy : Place → Prop}

/-! ## Calls -/

/-- A tree that is entered, ticked and left. -/
theorem callee_ends {callee : Callee ρ μ σ} {tree : TreeId} {name : String} {context : Context σ}
    {ownState fresh : Bool} {state : Option σ} (w : S.AtWork p base m busy) (hc : S.sys.Child p (p.callee tree))
    (spec : S.Exits [tree] callee.root) (calm : S.Calm m)
    (entered : m.context.enter name = .ok context)
    (ok : Behaviour.runCallee (S.stage.cell p.site) callee ownState fresh state p.depth
      { m with context } = .ok st m') :
    S.limits.Admits p.depth ∧ ∃ m₃, S.Ended (p.callee tree) m st m₃ ∧
      (st = .running ∧ m' = m₃ ∨ st.isTerminal = true ∧ m' = m₃.onRuns ((S.stage.cell p.site).reset · p.depth)) := by
  obtain ⟨n₀, n₁, n₂, n₃, h₀, ticked, h₂, h₃, outcome⟩ := Behaviour.runCallee_ok ok
  obtain ⟨admits, guarded, depth, request⟩ := w.guarded.enter entered
  have before : S.store n₀ = S.store m := by rw [store, h₀.runs]; rfl
  have after : S.store n₃ = S.store n₁ := by rw [store, store, h₃.runs, Behaviour.left, h₂.runs]
  have ready : S.Ready ⟨[tree], p.depth + 1⟩ n₀ := {
    depth := by rw [h₀.depth, depth, w.depth]
    guarded := guarded.congr h₀.depth h₀.maxDepth h₀.stack
    bounded := before ▸ w.bounded
    tidy := h₀.runs ▸ w.tidy
    calm := calm.imp_right fun none => h₀.request.trans (request.trans none)
    sound := (w.sound _ hc).congr (fun _ counts => h₀.runs ▸ counts) fun q _ => by rw [before] }
  have ended := spec _ _ _ _ ready ticked
  have deep : n₂.context.depth = p.depth + 1 := by rw [h₂.depth, ended.moves.depth, ready.depth]
  have fewer : ∀ q, S.Counts n₃.runs q → S.Counts n₁.runs q := fun q counts => by
    rwa [h₃.runs, Behaviour.left, h₂.runs] at counts
  refine ⟨w.depth ▸ admits, n₃, ⟨⟨fun q hq => ?_, ?_, fun _ => ?_, fun _ => ?_, fun _ => ?_, fun q counts => ?_⟩,
    ended.sound.congr fewer fun q _ => by rw [after],
    fun terminal => (ended.vacant terminal).congr fewer fun q _ => by rw [after], fun pending => ?_⟩, outcome⟩
  · rw [after, ← before]
    exact ended.moves.within q hq
  · rw [h₃.depth, w.depth]
    simp [Behaviour.left, Context.leave, deep]
  · have guarded₂ := (ended.moves.guarded ready.guarded).congr h₂.depth h₂.maxDepth h₂.stack
    exact (guarded₂.leave deep).congr h₃.depth h₃.maxDepth h₃.stack
  · rw [after]
    exact ended.moves.bounded ready.bounded
  · rw [h₃.runs, Behaviour.left, h₂.runs]
    exact ended.moves.tidy ready.tidy
  · exact h₀.runs ▸ ended.moves.fewer q (fewer q counts)
  · rw [h₃.request] at pending
    exact ended.returning (h₂.request ▸ pending)

/-- A call at work has a tree to run, below which lies all that is in a run. A call in progress was admitted
before, a fresh one has nothing below it. -/
structure Targeted (S : Setting ρ μ σ) (source : Source μ) (p : Place) (base m : Machine ρ μ σ) (tree : TreeId)
    (state : Option σ) : Prop where
  names : source.Names tree
  work : S.AtWork p base m (S.sys.Records (S.store base) p)
  calm : S.Calm m
  slot : (S.store m).slot p = .call tree state
  only : ∀ c, S.sys.Records (S.store base) p c → c = p.callee tree
  admitted : (∀ c, ¬ S.sys.Records (S.store base) p c) ∨ S.limits.Admits p.depth

section
variable {source : Source μ} {makeState : Option (StateMaker μ σ)} {resolve : Run ρ μ σ (Option TreeId)}
  (hn : S.sys.nodeAt p.site = some (.call source makeState))
  (resolves : ∀ m o m', resolve m = .ok o m' → S.Still m m' ∧ ∀ tree, o = some tree → source.Names tree)
include hn

theorem recorded_call {s : Store σ} {c : Place} (h : S.sys.Records s p c) :
    ∃ tree state, s.slot p = .call tree state ∧ c = p.callee tree := by
  cases h with
  | inside h hi =>
    obtain rfl := Option.some.inj (hn.symm.trans h)
    exact absurd hi id
  | called _ hs => exact ⟨_, _, hs, rfl⟩

include resolves

/-- A call looks up its tree, if it does not know it from before. Without one it ends. -/
theorem callTarget_ends {o : Option (TreeId × Option σ × Bool)} (h : S.Ready p m)
    (ok : Behaviour.callTarget (S.stage.cell p.site) resolve makeState p.depth m = .ok o m₁) :
    (o = none ∧ S.Ended p m .failure m₁) ∨
      ∃ tree state fresh, o = some (tree, state, fresh) ∧ S.Targeted source p m m₁ tree state := by
  have fits := (h.sound _ .refl).fits _ hn
  rcases Behaviour.callTarget_ok ok with ⟨tree, state, hs, rfl, rfl⟩ | ⟨fresh, outcome⟩
  · right
    rcases fits with idle | ⟨tree', state', hs', names, admits⟩
    · cases Eq.trans (Eq.symm hs) idle
    · cases Eq.trans (Eq.symm hs) hs'
      refine ⟨tree, state, false, rfl, names, AtWork.start h, h.calm, hs, fun c hr => ?_, .inr admits⟩
      obtain ⟨tree', state', hk, rfl⟩ := recorded_call hn hr
      cases Eq.trans (Eq.symm hs) hk
      rfl
  · have none : ∀ c, ¬ S.sys.Records (S.store m) p c := by
      intro c hr
      obtain ⟨tree, state, hk, -⟩ := recorded_call hn hr
      exact fresh tree state hk
    rcases outcome with ⟨m₂, resolved, rfl, alike⟩ | ⟨tree, state, m₂, x, resolved, rfl, rfl⟩
    · left
      have still := (resolves _ _ _ resolved).1.trans (.of_alike alike)
      refine ⟨rfl, ((AtWork.start h).still still).rested (fun c _ hr => none c hr) (fun _ => ?_) fun _ => .inl rfl⟩
      rw [still.slots]
      exact fits.resolve_right fun ⟨tree, state, hs, _⟩ => fresh tree state hs
    · right
      have still := (resolves _ _ _ resolved).1.trans (.of_memory m₂ x)
      exact ⟨tree, state, true, rfl, (resolves _ _ _ resolved).2 tree rfl, ((AtWork.start h).still still).set _,
        still.calm h.calm, slot_set _ p _, fun c hr => absurd hr (none c), .inl none⟩

end

theorem ticks_call {source : Source μ} {makeState : Option (StateMaker μ σ)} {resolve : Run ρ μ σ (Option TreeId)}
    {callee : TreeId → Callee ρ μ σ} (hn : S.sys.nodeAt site = some (.call source makeState))
    (resolves : ∀ m o m', resolve m = .ok o m' → S.Still m m' ∧ ∀ tree, o = some tree → source.Names tree)
    (specs : ∀ tree, S.Exits [tree] (callee tree).root) :
    S.Ticks site (.call (S.stage.cell site) resolve makeState callee) := by
  intro d m st m' h ok
  obtain rfl : m.context.depth = d := h.depth
  obtain ⟨o, m₀, target, outcome⟩ := Behaviour.call_ok ok
  rcases callTarget_ends (p := ⟨site, m.context.depth⟩) hn resolves h target with
    ⟨rfl, ended⟩ | ⟨tree, state, fresh, rfl, called⟩
  · rcases outcome with ⟨-, rfl, rfl⟩ | ⟨_, _, _, ho, -⟩
    · exact ended
    · cases ho
  have w := called.work
  have hc : S.sys.Child ⟨site, m.context.depth⟩ (Place.callee ⟨site, m.context.depth⟩ tree) := .called hn called.names
  rcases outcome with ⟨ho, -⟩ | ⟨tree', state', fresh', ho, outcome⟩
  · cases ho
  cases ho
  rcases outcome with ⟨refused, m₁, enter, alike, rfl, rfl⟩ | ⟨context, entered, ran⟩
  · rcases called.admitted with none | admits
    · exact (w.still (.of_alike alike)).reset.rested (fun c _ hr => none c hr) (fun _ => slot_reset _ _)
        fun _ => .inl rfl
    · rw [← show m₀.context.depth = m.context.depth from w.depth] at admits
      exact absurd admits (w.guarded.refused enter)
  · obtain ⟨admits, m₃, ended, outcome⟩ := callee_ends w hc (specs tree) called.calm entered ran
    obtain ⟨busy, vacated⟩ := w.after hc ended.moves ended.sound
    rcases outcome with ⟨rfl, rfl⟩ | ⟨terminal, rfl⟩
    · have same := (ended.moves.own_slot hc).trans called.slot
      refine busy.waiting hn ?_ (fun c _ hr => ?_) ended.calm
      · exact .inr ⟨tree, state, same, called.names, admits⟩
      · obtain rfl := hr.elim (called.only c) id
        exact .called hn same
    · exact (vacated (ended.vacant terminal)).reset.rested (fun c _ k => k.2 (called.only c k.1))
        (fun _ => slot_reset _ _) fun _ => .inl terminal

/-! ## All nodes -/

theorem resolve_still {source : Source μ} {o : Option TreeId} (h : S.sys.resolve S.stage source m = .ok o m') :
    S.Still m m' ∧ ∀ tree, o = some tree → source.Names tree := by
  obtain ⟨⟨x, rfl⟩, names⟩ := System.resolve_ok h
  exact ⟨.of_memory _ _, names⟩

theorem Still.of_chooses (h : S.stage.Chooses site m m') : S.Still m m' := by
  obtain ⟨p, rfl⟩ | ⟨x, rfl⟩ := h
  · exact .of_store (fun _ _ => rfl) fun _ => rfl
  · exact .of_memory _ _

variable (S) in
/-- What the stage does around a node leaves its ticks and resets what they are, and gives up what the parent
will forget. -/
structure Faithful : Prop where
  reset : S.KeepsResets
  tick : ∀ site b, S.Ticks site b → S.Exits site (S.stage.watch site b)

/-- The node at an address, in any surroundings whose called trees go well. -/
theorem works_node (links : Links ρ μ σ) (cells : links.cell = S.stage.cell)
    (choosers : links.chooser = S.stage.chooser)
    (watches : links.watch = S.stage.watch) (resolves : links.resolve = S.sys.resolve S.stage) (faithful : S.Faithful)
    (callees : ∀ tree, S.Works [tree] (links.callee tree).root) (node : Node μ σ) :
    ∀ site, S.sys.nodeAt site = some node → S.Works site (node.behaviour links site) := by
  have resets : ∀ node site, S.sys.nodeAt site = some node →
      S.Resets (fun _ _ => True) site (node.behaviour links site) :=
    resets_node cells watches (faithful.reset _) fun tree m depth fire bounded tidy sound _ =>
      (callees tree).reset m depth fire bounded tidy sound trivial
  intro site hn
  induction hn using System.nodeAt_upward with
  | step site node hn below =>
  refine ⟨?_, resets node site hn⟩
  have among : S.WorksAll site node (Node.behaviours links site 0 node.children) :=
    ⟨Node.behaviours_length .., Node.forall_behaviours_getElem? below⟩
  rw [Node.behaviour.eq_def, watches]
  refine faithful.tick _ _ ?_
  rw [cells]
  cases node
  case action => exact ticks_action hn
  case custom => exact absurd (S.mild _ _ hn) id
  case condition => exact ticks_condition hn
  case waitUntil => exact ticks_timed hn rfl (by simp) (by simp [Node.Fits]) Behaviour.waitUntil_holdsWhileRunning
  case wait => exact ticks_timed hn rfl (by simp) (by simp [Node.Fits]) Behaviour.wait_holdsWhileRunning
  case pause => exact ticks_timed hn rfl (by simp) (by simp [Node.Fits]) Behaviour.pause_holdsWhileRunning
  case earlyReturn => exact ticks_earlyReturn hn
  case invert child => exact ticks_invert hn (below 0 child rfl).tick
  case force child => exact ticks_force hn (below 0 child rfl).tick
  case guard child => exact ticks_guard hn (below 0 child rfl).tick
  case repeatTimes child =>
    exact ticks_iterate hn rfl trivial (by simp [Node.Runs]) (by simp [Node.Fits]) (below 0 child rfl).tick
  case retry child =>
    exact ticks_iterate hn rfl trivial (by simp [Node.Runs]) (by simp [Node.Fits]) (below 0 child rfl).tick
  case repeatUntil child => exact ticks_repeatUntil hn (below 0 child rfl).tick
  case timeout child => exact ticks_timeout hn (below 0 child rfl)
  case delay child => exact ticks_delay hn (below 0 child rfl).tick
  case scope child => exact ticks_scope hn (below 0 child rfl)
  case localScope child => exact ticks_localScope hn (below 0 child rfl).tick
  case sequence | selector =>
    exact ticks_inOrder ⟨by simp, by simp [Node.Runs], by simp [Node.Fits, Node.children]⟩ hn trivial among
  case reactiveSequence | reactiveSelector =>
    exact ticks_reactive ⟨by simp, by simp [Node.Runs], by simp [Node.Fits, Node.children]⟩ hn trivial among
  case parallel | join =>
    exact ticks_visitAll ⟨by simp, by simp [Node.Runs], by simp [Node.Fits, Node.children]⟩ hn among rfl
  case race => exact ticks_race ⟨by simp, by simp [Node.Runs], by simp [Node.Fits, Node.children]⟩ hn trivial among
  case selectOne policy children =>
    rw [choosers]
    exact ticks_selectOne ⟨by simp, by simp [Node.Runs], by simp [Node.Fits, Node.children]⟩ hn among
      (fun _ _ _ _ h => .of_chooses (Stage.pick_ok h)) fun _ _ _ h => .of_chooses (Stage.complete_ok h)
  case call source makeState =>
    exact ticks_call hn (fun m o m' h => resolve_still (by rwa [resolves] at h)) fun tree => (callees tree).tick

/-! ## Whole trees -/

theorem inUse_ok {α : Type} {tree : TreeId} {action : Run ρ μ σ α} {x : α}
    (h : System.inUse S.stage tree action m = .ok x m') :
    ∃ m₀ m₁, S.Still m m₀ ∧ action m₀ = .ok x m₁ ∧ S.Still m₁ m' ∧
      m₀.context = m.context ∧ m'.context = m₁.context := by
  simp only [System.inUse, Stage.modifyStore, Run.bind_eq_ok, Run.pure_eq_ok, EStateM.Result.ok.injEq] at h
  obtain ⟨_, m₀, ⟨-, h₀⟩, _, m₁, ran, _, m₂, ⟨-, h₂⟩, rfl, rfl⟩ := h
  exact ⟨m₀, m₁, h₀ ▸ .of_store (fun _ _ => rfl) fun _ => rfl, ran, h₂ ▸ .of_store (fun _ _ => rfl) fun _ => rfl,
    h₀ ▸ rfl, h₂ ▸ rfl⟩

theorem ticks_rootOf {links : Links ρ μ σ} (works : ∀ node site, S.sys.nodeAt site = some node →
    S.Works site (node.behaviour links site)) (tree : TreeId) : S.Exits [tree] (S.sys.rootOf links tree) := by
  unfold System.rootOf
  split
  · rename_i t ht
    exact (works t.root [tree] (S.sys.nodeAt_root ht)).tick
  · rename_i ht
    have none := S.sys.nodeAt_missing ht
    intro d m st m' h ok
    simp only [Behaviour.ofTick, Run.pure_eq_ok] at ok
    obtain ⟨rfl, rfl⟩ := ok
    refine Ended.exited_root ((AtWork.start h).rested (fun c hc _ => ?_) (fun _ => (h.sound _ .refl).bare none)
      fun _ => .inl rfl)
    cases hc with
    | inside hn _ => cases none.symm.trans hn
    | called hn _ => cases none.symm.trans hn

/-- A whole tree, ticked so many levels deep at most. -/
theorem works_root (faithful : S.Faithful) (host : Host ρ μ σ) (levels : Nat) (tree : TreeId) :
    S.Works [tree] ⟨S.sys.tickRoot S.stage host levels tree, S.sys.resetAt S.stage tree⟩ := by
  refine ⟨?_, resets_at faithful.reset _ tree _⟩
  induction levels generalizing tree with
  | zero =>
    intro d m st m' _ ok
    simp [System.tickRoot] at ok
  | succ levels ih =>
    have works := works_node (S.sys.tickLinks S.stage host (S.sys.tickRoot S.stage host levels)) rfl rfl rfl
      rfl faithful fun tree => ⟨ih tree, resets_at faithful.reset _ tree _⟩
    intro d m st m' h ok
    obtain ⟨m₀, m₁, before, ticked, after, context, context'⟩ := inUse_ok ok
    have ended := ticks_rootOf works tree d m₀ st m₁ (h.still before) ticked
    exact Ended.exited_root {
      moves := ((before.moves _).trans ended.moves).trans (after.moves _)
      sound := ended.sound.congr after.fewer fun q _ => after.slots q
      vacant := fun terminal => (ended.vacant terminal).congr after.fewer fun q _ => after.slots q
      returning := fun pending => ended.returning (by rwa [context'] at pending) }

end Setting

end BehaviorTree
