/-
  BehaviorTree.Proofs.Discipline.Single: ticks of leaves and of nodes with one child.

  What such a node leaves in its slot says that its child is in a run exactly when the child
  was left running and was not reset since.
-/

import BehaviorTree.Proofs.Discipline.Resets

namespace BehaviorTree

variable {μ σ : Type}

open Behaviour (noted)

namespace Regime

variable {R : Regime μ σ} {site : Address} {p c : Place} {node child : Node μ σ} {d : Nat} {st s : Status}
  {b B : Behaviour (Recorded μ σ) μ σ} {m m₁ m' base : Witnessed μ σ} {busy : Place → Prop}

/-! ## Leaves -/

/-- Without children there is nothing to agree with. -/
theorem AtWork.leaf (w : R.AtWork p base m busy) (hn : R.sys.nodeAt p.site = some node) (leaf : node.children = [])
    (calls : ∀ source makeState, node ≠ .call source makeState)
    (finds : ∀ slot admits, node.Finds (σ := σ) slot admits) {ended : Prop} : R.Done p base ended m :=
  w.done (fun _ h => Option.some.inj (hn.symm.trans h) ▸ finds _ _) (fun c hc => absurd hc (no_child hn leaf calls c))
    fun _ c hc => absurd hc (no_child hn leaf calls c)

/-- A callback that leaves the run of the trees alone. -/
theorem ticks_body {host : Host (Recorded μ σ) μ σ} {body : Callback μ σ Status} (hn : R.sys.nodeAt site = some node)
    (leaf : node.children = []) (calls : ∀ source makeState, node ≠ .call source makeState)
    (finds : ∀ slot admits, node.Finds (σ := σ) slot admits) (tame : body.Tame) (tick : B.tick = body.run host) :
    R.Ticks site B := by
  intro d m st m' ready rested ok
  rw [tick] at ok
  have still : R.Still m m' := .of_stays (tame.stays ok)
  exact ⟨(rested.start.still still).leaf hn leaf calls finds, Asks.of_calm (still.calm ready.calm)⟩

theorem ticks_earlyReturn {v : Verdict} (hn : R.sys.nodeAt site = some (.earlyReturn v)) :
    R.Ticks site (.earlyReturn v) := by
  intro d m st m' ready rested ok
  obtain ⟨rfl, alike⟩ := Behaviour.earlyReturn_ok ok
  have unmoved : ∀ q, Unmoved m m' q := fun q => .of_runs alike.runs
  have moves : R.Moves ⟨site, d⟩ m m' := ⟨fun q _ => unmoved q, alike.depth,
    fun _ h => h.congr alike.depth alike.maxDepth alike.stack, fun h => alike.runs ▸ h⟩
  refine ⟨(rested.start.mine moves (fun q _ => unmoved q) (unmoved _).opens).leaf hn rfl (by simp) (by simp [Node.Finds]),
    fun request asked => ⟨by simp, ?_⟩⟩
  rw [alike.request, Option.some.injEq] at asked
  simp [← asked]

theorem ticks_condition {holds : Predicate μ σ} {every : Duration}
    (hn : R.sys.nodeAt site = some (.condition holds every)) :
    R.Ticks site (.condition (slots site) holds every) := by
  intro d m st m' ready rested ok
  obtain rfl : m.context.depth = d := ready.depth
  obtain ⟨terminal, x, rfl | ⟨slot, rfl⟩⟩ := Behaviour.condition_ok ok
  all_goals have w := rested.start.still (.of_memory m x)
  · exact ⟨w.leaf hn rfl (by simp) (by simp [Node.Finds]), .of_calm ready.calm⟩
  · exact ⟨(w.set slot).leaf hn rfl (by simp) (by simp [Node.Finds]), .of_calm ready.calm⟩

/-- A leaf that keeps something as long as it is running. -/
theorem ticks_timed (hn : R.sys.nodeAt site = some node) (leaf : node.children = [])
    (calls : ∀ source makeState, node ≠ .call source makeState)
    (finds : ∀ slot admits, node.Finds (σ := σ) slot admits)
    (tick : Behaviour.HoldsWhileRunning (slots site) B) :
    R.Ticks site B := by
  intro d m st m' ready rested ok
  obtain rfl : m.context.depth = d := ready.depth
  obtain ⟨x, ⟨rfl, rfl⟩ | ⟨rfl, slot, rfl⟩⟩ := tick m st m' ok
  all_goals have w := rested.start.still (.of_memory m x)
  · exact ⟨w.reset.leaf hn leaf calls finds, .of_calm ready.calm⟩
  · exact ⟨(w.set slot).leaf hn leaf calls finds, Asks.of_calm ready.calm⟩

/-! ## One child -/

/-- The child was ticked last, and the slot says how that went. -/
theorem AtWork.one (hn : R.sys.nodeAt p.site = some node) (one : node.children = [child])
    (w : R.AtWork p base m fun x => x ≠ p.inside 0 ∧ busy x ∨ x = p.inside 0 ∧ s = .running)
    (finds : node.Finds (m.runs.store.slot p) (R.limits.Admits p.depth))
    (runs : node.Runs (m.runs.store.slot p) 0 ↔ s = .running) (terminal : st.isTerminal = true → s ≠ .running) :
    R.Done p base (st.isTerminal = true) m := by
  refine w.done (fun _ h => Option.some.inj (hn.symm.trans h) ▸ finds) (fun c hc => ?_) fun ends c hc k => ?_
  · rw [records_only hn one hc, runs, hc.only hn one]
    simp
  · obtain rfl := hc.only hn one
    exact terminal ends (by simpa using k)

/-- The child was ticked last and ended, and the slot is empty. -/
theorem AtWork.one_ended (hn : R.sys.nodeAt p.site = some node) (one : node.children = [child])
    (w : R.AtWork p base m fun x => x ≠ p.inside 0 ∧ busy x ∨ x = p.inside 0 ∧ s = .running)
    (ended : s.isTerminal = true) (idle : m.runs.store.slot p = .idle) : R.Done p base (st.isTerminal = true) m := by
  refine w.rested (fun c hc k => ?_) idle
  obtain rfl := hc.only hn one
  exact Status.isTerminal_iff.mp ended (by simpa using k)

/-- A node that notes whether it left its child running. A request to return early that the child
leaves ends the node too. -/
theorem ticks_noted (hn : R.sys.nodeAt site = some node) (one : node.children = [child])
    (runs : ∀ slot, node.Runs (σ := σ) slot 0 ↔ slot = .started)
    (finds : ∀ slot admits, node.Finds (σ := σ) slot admits) (spec : R.Works (0 :: site) b)
    (tick : Behaviour.NotesChild (slots site) b B) :
    R.Ticks site B := by
  intro d m st m' ready rested ok
  obtain rfl : m.context.depth = d := ready.depth
  have hc : R.sys.Child ⟨site, m.context.depth⟩ ⟨0 :: site, m.context.depth⟩ := child_only (p := ⟨site, _⟩) hn one
  rcases tick m st m' ok with ⟨fresh, rfl, x, rfl⟩ | ⟨x, s, m₁, e, ticked, he, rfl, running, returning⟩
  · refine ⟨rested.unchanged (.of_memory m x) fun _ c hc recorded => ?_, .of_calm ready.calm⟩
    exact fresh ((runs _).mp ((records_only hn one hc m).mp recorded))
  · have w := rested.start.still (.of_memory m x)
    have child := spec.tick _ _ _ _ (w.ready ready rfl ready.calm) (w.sound _ hc) ticked
    have w₁ := w.ticked hc child
    obtain rfl : e = m.context.depth := he.elim id fun he => he.trans (w₁.depth ready)
    refine ⟨(w₁.set (noted s)).one hn one (finds _ _) ?_ fun terminal hs => ?_, child.asks.mono returning⟩
    · rw [slot_set _ ⟨site, m.context.depth⟩, runs]
      cases s <;> simp [noted, Status.isRunning]
    · rw [running hs] at terminal
      cases terminal

theorem ticks_invert (hn : R.sys.nodeAt site = some (.invert child)) (spec : R.Works (0 :: site) b) :
    R.Ticks site (.invert (slots site) b) := by
  exact ticks_noted hn rfl (by simp [Node.Runs]) (by simp [Node.Finds]) spec Behaviour.invert_notesChild

theorem ticks_force {v : Verdict} (hn : R.sys.nodeAt site = some (.force v child)) (spec : R.Works (0 :: site) b) :
    R.Ticks site (.force (slots site) v b) := by
  exact ticks_noted hn rfl (by simp [Node.Runs]) (by simp [Node.Finds]) spec Behaviour.force_notesChild

theorem ticks_repeatUntil {v : Verdict} (hn : R.sys.nodeAt site = some (.repeatUntil v child))
    (spec : R.Works (0 :: site) b) : R.Ticks site (.repeatUntil (slots site) v b) := by
  exact ticks_noted hn rfl (by simp [Node.Runs]) (by simp [Node.Finds]) spec Behaviour.repeatUntil_notesChild

theorem ticks_guard {holds : Predicate μ σ} (hn : R.sys.nodeAt site = some (.guard holds child))
    (spec : R.Works (0 :: site) b) : R.Ticks site (.guard (slots site) holds b) := by
  exact ticks_noted hn rfl (by simp [Node.Runs]) (by simp [Node.Finds]) spec Behaviour.guard_notesChild

theorem ticks_iterate {goOn : Verdict} {spent : UInt32 → Bool} (hn : R.sys.nodeAt site = some node)
    (one : node.children = [child])
    (runs : ∀ slot, node.Runs (σ := σ) slot 0 ↔ ∃ count, slot = .iterations count true)
    (finds : ∀ slot admits, node.Finds (σ := σ) slot admits) (spec : R.Works (0 :: site) b) :
    R.Ticks site (.iterate (slots site) goOn spent b) := by
  intro d m st m' ready rested ok
  obtain rfl : m.context.depth = d := ready.depth
  have hc : R.sys.Child ⟨site, m.context.depth⟩ ⟨0 :: site, m.context.depth⟩ := child_only (p := ⟨site, _⟩) hn one
  obtain ⟨s, m₁, ticked, outcome⟩ := Behaviour.iterate_ok ok
  have w := rested.start
  have child := spec.tick _ _ _ _ (w.ready ready rfl ready.calm) (w.sound _ hc) ticked
  have w₁ := w.ticked hc child
  rcases outcome with ⟨why, rfl, rfl⟩ | ⟨calm, rfl, n, rfl⟩
  · have ended : st.isTerminal = true := why.elim child.asks.ended id
    exact ⟨w₁.reset.one_ended hn one ended (slot_reset _ ⟨site, m.context.depth⟩), child.asks⟩
  · refine ⟨(w₁.set _).one hn one (finds _ _) ?_ (by simp [Status.isTerminal, Status.isRunning]),
      Asks.of_calm (by simpa using calm)⟩
    rw [slot_set _ ⟨site, m.context.depth⟩, runs]
    simp [Status.isRunning_iff]

theorem ticks_timeout {duration : Duration} (hn : R.sys.nodeAt site = some (.timeout duration child))
    (spec : R.Works (0 :: site) b) : R.Ticks site (.timeout (slots site) duration b) := by
  intro d m st m' ready rested ok
  obtain rfl : m.context.depth = d := ready.depth
  have hc : R.sys.Child ⟨site, m.context.depth⟩ ⟨0 :: site, m.context.depth⟩ := child_only (p := ⟨site, _⟩) hn rfl
  obtain ⟨s, m₁, ticked, outcome⟩ := Behaviour.timeout_ok ok
  have w := rested.start
  have child := spec.tick _ _ _ _ (w.ready ready rfl ready.calm) (w.sound _ hc) ticked
  have w₁ := w.ticked hc child
  rcases outcome with ⟨terminal, rfl, rfl⟩ | ⟨rfl, rfl, aborted⟩ | ⟨rfl, rfl, t, rfl⟩
  · exact ⟨w₁.reset.one_ended hn rfl terminal (slot_reset _ ⟨site, m.context.depth⟩), child.asks⟩
  · have w₂ := w₁.reset
    have gone := spec.reset _ _ _ _ (w₂.sound _ hc) (fun _ => (w₂.opens _ hc).mpr (.inr ⟨rfl, rfl⟩)) aborted
    refine ⟨(w₂.gone hc gone).rested (fun c hc k => k.1 (hc.only hn rfl)) ?_, ?_⟩
    · exact (gone.moves.parent hc).slot.trans (slot_reset m₁ ⟨site, m.context.depth⟩)
    · rw [gone.context]
      show Asks m₁.context .failure
      exact child.asks.mono nofun
  · refine ⟨(w₁.set _).one hn rfl trivial ?_ (by simp [Status.isTerminal, Status.isRunning]), child.asks⟩
    rw [slot_set _ ⟨site, m.context.depth⟩]
    simp [Node.Runs]

theorem ticks_delay {duration : Duration} (hn : R.sys.nodeAt site = some (.delay duration child))
    (spec : R.Works (0 :: site) b) : R.Ticks site (.delay (slots site) duration b) := by
  intro d m st m' ready rested ok
  obtain rfl : m.context.depth = d := ready.depth
  have hc : R.sys.Child ⟨site, m.context.depth⟩ ⟨0 :: site, m.context.depth⟩ := child_only (p := ⟨site, _⟩) hn rfl
  have w := rested.start
  rcases Behaviour.delay_ok ok with ⟨waits, rfl⟩ | ⟨m₀, m₁, released, ticked, outcome⟩
  · rcases Behaviour.release_ok waits with ⟨hf, -⟩ | ⟨waiting, t, rfl⟩
    · cases hf
    · -- before the release the child is in no run
      refine ⟨(w.set _).done (fun _ h => Option.some.inj (hn.symm.trans h) ▸ trivial) (fun c hc => ?_) (by nofun),
        Asks.of_calm ready.calm⟩
      rw [records_only hn rfl hc, records_only hn rfl hc, slot_set _ ⟨site, m.context.depth⟩]
      exact iff_of_false waiting nofun
  obtain ⟨w₀, calm₀, slot₀⟩ :
      R.AtWork ⟨site, m.context.depth⟩ m m₀ (R.sys.Records m.runs.store ⟨site, m.context.depth⟩) ∧
      m₀.context.returnRequest = none ∧ m₀.runs.store.slot ⟨site, m.context.depth⟩ = .released := by
    rcases Behaviour.release_ok released with ⟨-, hs, rfl⟩ | ⟨-, t, rfl⟩
    · exact ⟨w, ready.calm, hs⟩
    · exact ⟨w.set _, ready.calm, slot_set _ ⟨site, m.context.depth⟩ _⟩
  have child := spec.tick _ _ _ _ (w₀.ready ready rfl calm₀) (w₀.sound _ hc) ticked
  have w₁ := w₀.ticked hc child
  rcases outcome with ⟨terminal, rfl⟩ | ⟨rfl, rfl⟩
  · exact ⟨w₁.reset.one_ended hn rfl terminal (slot_reset _ ⟨site, m.context.depth⟩), child.asks⟩
  · refine ⟨w₁.one hn rfl trivial ?_ (by simp [Status.isTerminal, Status.isRunning]), child.asks⟩
    rw [(child.moves.parent hc).slot, slot₀]
    simp [Node.Runs]

theorem ticks_localScope (hn : R.sys.nodeAt site = some (.localScope child)) (spec : R.Works (0 :: site) b) :
    R.Ticks site (.localScope (slots site) b) := by
  intro d m st m' ready rested ok
  obtain rfl : m.context.depth = d := ready.depth
  have hc : R.sys.Child ⟨site, m.context.depth⟩ ⟨0 :: site, m.context.depth⟩ := child_only (p := ⟨site, _⟩) hn rfl
  obtain ⟨m₀, m₁, m₂, pushed, ticked, popped, outcome⟩ := Behaviour.localScope_ok ok
  have pushing : R.Still _ m₀ := .of_alike pushed
  have popping : R.Still m₁ m₂ := .of_alike popped
  have w := rested.start.reset.still pushing
  have child := spec.tick _ _ _ _ (w.ready ready rfl (pushing.calm ready.calm)) (w.sound _ hc) ticked
  have w₁ := (w.ticked hc child).still popping
  have asks : Asks m₂.context st := fun request asked => child.asks request (popped.request ▸ asked)
  rcases outcome with ⟨rfl, board, rfl⟩ | ⟨terminal, rfl⟩
  · refine ⟨(w₁.set _).one hn rfl trivial ?_ (by simp [Status.isTerminal, Status.isRunning]), asks⟩
    rw [slot_set _ ⟨site, m.context.depth⟩]
    simp [Node.Runs]
  · refine ⟨w₁.one_ended hn rfl terminal ?_, asks⟩
    rw [(popping.unmoved _).slot, (child.moves.parent hc).slot, (pushing.unmoved _).slot]
    exact slot_reset m ⟨site, m.context.depth⟩

/-- A scope gives the answer of its child, or the verdict of a request to return early that came up with it; the
child has ended then. -/
theorem ticks_scope {host : Host (Recorded μ σ) μ σ} {hooks : Hooks μ σ}
    (hn : R.sys.nodeAt site = some (.scope hooks child)) (spec : R.Works (0 :: site) b) :
    R.Ticks site (.scope (slots site) host hooks b) := by
  intro d m st m' ready rested ok
  obtain rfl : m.context.depth = d := ready.depth
  have hc : R.sys.Child ⟨site, m.context.depth⟩ ⟨0 :: site, m.context.depth⟩ := child_only (p := ⟨site, _⟩) hn rfl
  obtain ⟨m₀, s, m₁, m₂, opened, ticked, settled, closed⟩ := Behaviour.scope_ok ok
  obtain ⟨w₀, calm₀, slot₀⟩ :
      R.AtWork ⟨site, m.context.depth⟩ m m₀ (R.sys.Records m.runs.store ⟨site, m.context.depth⟩) ∧
      m₀.context.returnRequest = none ∧ m₀.runs.store.slot ⟨site, m.context.depth⟩ = .started := by
    rcases Behaviour.openScope_ok opened with ⟨started, rfl⟩ | ⟨n, traced, entered⟩
    · exact ⟨rested.start, ready.calm, started⟩
    · have tame : hooks.onEnter.Tame := R.docile _ _ hn
      have still : R.Still (m.onRuns ((slots site).set · m.context.depth .started)) m₀ :=
        (Still.of_alike traced).trans (.of_stays (tame.stays entered))
      refine ⟨(rested.start.set .started).still still, still.calm ready.calm, (still.unmoved _).slot.trans ?_⟩
      exact slot_set m ⟨site, m.context.depth⟩ .started
  have child := spec.tick _ _ _ _ (w₀.ready ready rfl calm₀) (w₀.sound _ hc) ticked
  have w₁ := w₀.ticked hc child
  -- with a request pending the child has ended, so there is nothing to abandon
  obtain ⟨still, calm₂, same⟩ :
      R.Still m₁ m₂ ∧ m₂.context.returnRequest = none ∧ (s = .running ↔ st = .running) := by
    rcases Behaviour.settleReturn_ok settled with ⟨calm, rfl, rfl⟩ | ⟨pending, n, reported, outcome⟩
    · exact ⟨.refl _, calm, .rfl⟩
    · obtain ⟨ended, terminal⟩ := child.asks st pending
      rcases outcome with ⟨rfl, -⟩ | ⟨-, rfl⟩
      · cases ended
      · exact ⟨(Still.of_stays (.cleared m₁)).trans (.of_alike reported), reported.request,
          iff_of_false (Status.isTerminal_iff.mp ended) (Status.isTerminal_iff.mp terminal)⟩
  have w₂ := w₁.still still
  rcases Behaviour.closeScope_ok closed with ⟨rfl, rfl⟩ | ⟨terminal, n, traced, rfl⟩
  · refine ⟨w₂.one hn rfl trivial ?_ (by simp [Status.isTerminal, Status.isRunning]), .of_calm calm₂⟩
    rw [(still.unmoved _).slot, (child.moves.parent hc).slot, slot₀, same]
    simp [Node.Runs]
  · have closing : R.Still (m₂.onRuns ((slots site).reset · m.context.depth)) (n.withMemory (hooks.onExit st n.memory)) :=
      (Still.of_alike traced).trans (.of_memory n _)
    refine ⟨(w₂.reset.still closing).one_ended hn rfl ?_ ?_, .of_calm (closing.calm calm₂)⟩
    · exact Status.isTerminal_iff.mpr fun hs => Status.isTerminal_iff.mp terminal (same.mp hs)
    · exact (closing.unmoved _).slot.trans (slot_reset m₂ ⟨site, m.context.depth⟩)

end Regime

end BehaviorTree
