/-
  BehaviorTree.Proofs.Nested.Log: the brackets that the log on the board has open.

  An event that is emitted goes to the log on the root board, if there is one, and so moves the
  stack of open brackets on, or leaves it if it is no bracket (`Run.trace_tells`). A reticent callback
  leaves the log as it is, but for events that are no brackets, asks for no early return and
  ticks and resets no trees: the tick goes on with the same brackets open.
-/

import BehaviorTree.Callback
import BehaviorTree.Proofs.Nested.Words
import BehaviorTree.Proofs.Run

namespace BehaviorTree

variable {ρ μ σ α : Type}

/-! ## The log on a board -/

namespace Board

/-- The log on the board. -/
def log? (b : Board) : Option TraceLog := b.objects[TraceLog.key]?.bind (·.as? .traceLog)

/-- The brackets that the log on the board has open, the innermost first. -/
def unclosed (b : Board) : Option (List Mark) := b.log?.bind fun log => Paren.unclosed log.parens

variable {b : Board}

theorem log?_congr {b' : Board} (h : b'.objects[TraceLog.key]? = b.objects[TraceLog.key]?) : b'.log? = b.log? := by
  rw [log?, h, log?]

theorem getObj_of_log? {log : TraceLog} (h : b.log? = some log) : b.getObj .traceLog TraceLog.key = .ok (some log) := by
  obtain ⟨o, found, typed⟩ := Option.bind_eq_some_iff.mp h
  rw [getObj, found]
  dsimp only
  rw [typed]

@[simp] theorem log?_setObj_log (log : TraceLog) : (b.setObj .traceLog TraceLog.key log).log? = some log := by
  simp [log?, setObj, Obj.as?]

/-- The log takes an event. -/
theorem log?_emit {log : TraceLog} (h : b.log? = some log) (e : TraceEvent) : (b.emit e).1.log? = some (log.push e) := by
  have pushed : b.modifyObj .traceLog TraceLog.key (·.push e) =
      .ok (some (log.push e), b.setObj .traceLog TraceLog.key (log.push e)) := by
    rw [modifyObj, getObj_of_log? h]
  unfold emit
  rw [pushed]
  dsimp only
  split <;> exact log?_setObj_log _

/-- A bracket goes on the stack or takes one off, another event does neither. -/
theorem unclosed_emit {stack : List Mark} (h : b.unclosed = some stack) (e : TraceEvent) :
    (b.emit e).1.unclosed = match e.paren? with
      | some x => Paren.step stack x
      | none => some stack := by
  obtain ⟨log, found, scanned⟩ := Option.bind_eq_some_iff.mp h
  rw [unclosed, log?_emit found, Option.bind_some, TraceLog.parens_push]
  cases e.paren? with
  | some x => exact Paren.unclosed_snoc scanned
  | none => rw [Option.toList_none, List.append_nil, scanned]

end Board

/-- The brackets that the log has open, the innermost first. -/
def Machine.unclosed (m : Machine ρ μ σ) : Option (List Mark) := m.context.layers.root.unclosed

/-! ## What leaves the tick where it stands -/

/-- The call in progress and the overlays are the same. -/
structure Context.Level (c c' : Context σ) : Prop where
  depth : c'.depth = c.depth
  maxDepth : c'.maxDepth = c.maxDepth
  stack : c'.stack = c.stack
  overlays : c'.layers.overlays.length = c.layers.overlays.length

namespace Context.Level

variable {a b c : Context σ}

theorem refl (c : Context σ) : c.Level c := ⟨rfl, rfl, rfl, rfl⟩

theorem trans (h : a.Level b) (k : b.Level c) : a.Level c :=
  ⟨k.depth.trans h.depth, k.maxDepth.trans h.maxDepth, k.stack.trans h.stack, k.overlays.trans h.overlays⟩

end Context.Level

/-- Neither the runs of the nodes have changed nor the call in progress, and no early return was asked for. -/
structure Machine.Idles (m m' : Machine ρ μ σ) : Prop where
  level : m.context.Level m'.context
  request : ∀ r, m'.context.returnRequest = some r → m.context.returnRequest = some r
  runs : m'.runs = m.runs

/-- Besides, the same brackets are open. -/
structure Machine.Waits (m m' : Machine ρ μ σ) : Prop extends m.Idles m' where
  told : ∀ {stack}, m.unclosed = some stack → m'.unclosed = some stack

namespace Machine

variable {a b c m m' : Machine ρ μ σ}

theorem Idles.trans (h : a.Idles b) (k : b.Idles c) : a.Idles c :=
  ⟨h.level.trans k.level, fun r pending => h.request r (k.request r pending), k.runs.trans h.runs⟩

theorem Idles.calm (h : a.Idles b) (calm : a.context.returnRequest = none) : b.context.returnRequest = none :=
  Option.eq_none_iff_forall_ne_some.mpr fun r pending => nomatch calm.symm.trans (h.request r pending)

namespace Waits

theorem refl (m : Machine ρ μ σ) : m.Waits m := ⟨⟨.refl _, fun _ => id, rfl⟩, id⟩

theorem trans (h : a.Waits b) (k : b.Waits c) : a.Waits c := ⟨h.toIdles.trans k.toIdles, fun heard => k.told (h.told heard)⟩

theorem of_context (context : m'.context = m.context) (runs : m'.runs = m.runs) : m.Waits m' := by
  refine ⟨⟨context ▸ .refl _, fun _ pending => context ▸ pending, runs⟩, fun heard => ?_⟩
  rw [unclosed, context]
  exact heard

theorem cleared (m : Machine ρ μ σ) : m.Waits m.cleared := ⟨⟨⟨rfl, rfl, rfl, rfl⟩, nofun, rfl⟩, id⟩

/-- The layers above the root may change. -/
theorem of_layers {layers : Layers} (root : layers.root.log? = m.context.layers.root.log?)
    (length : layers.overlays.length = m.context.layers.overlays.length) :
    m.Waits { m with context := { m.context with layers } } := by
  refine ⟨⟨⟨rfl, rfl, rfl, length⟩, fun _ => id, rfl⟩, fun heard => ?_⟩
  show layers.root.unclosed = _
  rw [Board.unclosed, root]
  exact heard

end Waits

end Machine

/-! ## Events -/

/-- The machine with the event on its board, and perhaps with a sign of it outside. -/
theorem Run.trace_tells {tag : String} {x y : UInt64} {u : Unit} {m m' : Machine ρ μ σ}
    (h : Run.trace tag x y m = .ok u m') :
    m.Idles m' ∧ ∀ {stack}, m.unclosed = some stack →
      m'.unclosed = match TraceEvent.paren? { tick := m.context.tick, tag, a := x, b := y } with
        | some bracket => Paren.step stack bracket
        | none => some stack := by
  obtain ⟨_, _, rfl⟩ := Run.trace_ok h
  exact ⟨⟨⟨rfl, rfl, rfl, rfl⟩, fun _ => id, rfl⟩, fun heard => Board.unclosed_emit heard _⟩

/-- An event under another tag is no bracket. -/
theorem Run.trace_waits {tag : String} {x y : UInt64} {u : Unit} {m m' : Machine ρ μ σ}
    (other : ∀ e : TraceEvent, e.tag = tag → e.paren? = none) (h : Run.trace tag x y m = .ok u m') : m.Waits m' := by
  obtain ⟨idles, told⟩ := Run.trace_tells h
  refine ⟨idles, fun heard => ?_⟩
  rw [told heard, other _ rfl]

namespace Tag

/-- The tags of the brackets. -/
def brackets : List String := [scopeEnter, scopeExit, subtreeEnter, subtreeExit]

end Tag

theorem TraceEvent.paren?_eq_none {e : TraceEvent} (other : e.tag ∉ Tag.brackets) : e.paren? = none := by
  simp only [Tag.brackets, List.mem_cons, List.not_mem_nil, or_false, not_or] at other
  obtain ⟨h₁, h₂, h₃, h₄⟩ := other
  rw [paren?, if_neg h₁, if_neg h₂, if_neg h₃, if_neg h₄]

section
variable {t x y : UInt64}

theorem paren?_scopeEnter : TraceEvent.paren? ⟨t, Tag.scopeEnter, x, y⟩ = some (.opens ⟨.scope, x⟩) := if_pos rfl

theorem paren?_scopeExit : TraceEvent.paren? ⟨t, Tag.scopeExit, x, y⟩ = some (.closes ⟨.scope, x⟩) := by
  simp [TraceEvent.paren?, Tag.scopeExit, Tag.scopeEnter]

theorem paren?_subtreeEnter : TraceEvent.paren? ⟨t, Tag.subtreeEnter, x, y⟩ = some (.opens ⟨.subtree, x⟩) := by
  simp [TraceEvent.paren?, Tag.subtreeEnter, Tag.scopeExit, Tag.scopeEnter]

theorem paren?_subtreeExit : TraceEvent.paren? ⟨t, Tag.subtreeExit, x, y⟩ = some (.closes ⟨.subtree, x⟩) := by
  simp [TraceEvent.paren?, Tag.subtreeExit, Tag.subtreeEnter, Tag.scopeExit, Tag.scopeEnter]

end

/-! ## Callbacks -/

/-- The edit leaves the log alone, whatever board it is made on. -/
def Edit.SparesLog : Edit → Prop
  | setObj _ id _ | removeObj id => id ≠ TraceLog.key
  | clear => False
  | set _ _ _ | remove _ _ => True

/-- The layer is the root, under so many overlays. -/
def Reach.IsRoot (overlays : Nat) : Reach → Prop
  | root => True
  | layer steps => overlays ≤ steps

/-- Under so many overlays, the callback asks for no early return, ticks and resets no trees, and leaves the log alone:
it does not edit it, and emits no brackets. -/
def Callback.Reticent (overlays : Nat) : Callback μ σ α → Prop
  | done _ => True
  | look next => ∀ context memory, context.layers.overlays.length = overlays → (next context memory).Reticent overlays
  | remember _ next | setGlobal _ _ _ next => next.Reticent overlays
  | edit reach e next => (reach.IsRoot overlays → e.SparesLog) ∧ next.Reticent overlays
  | takeReturn next => ∀ request, (next request).Reticent overlays
  | takeOverflow next => ∀ overflow, (next overflow).Reticent overlays
  | trace tag _ _ next => tag ∉ Tag.brackets ∧ next.Reticent overlays
  | requestReturn _ _ | tickTree _ _ _ | resetTree _ _ _ => False

theorem Edit.SparesLog.log? {e : Edit} (h : e.SparesLog) (b : Board) : (e.apply b).log? = b.log? := by
  refine Board.log?_congr ?_
  cases e with
  | set t id x | remove t id => exact congrArg (·[TraceLog.key]?) (Board.objects_onTable b t _)
  | setObj t id x => simp [apply, Board.setObj, Std.ExtTreeMap.getElem?_insert, show ¬ id = TraceLog.key from h]
  | removeObj id => simp [apply, Std.ExtTreeMap.getElem?_erase, show ¬ id = TraceLog.key from h]
  | clear => exact absurd h id

/-- An edit that spares the log if it is made on the root. -/
theorem Edit.applyAt_log? {e : Edit} {reach : Reach} {l : Layers} (spares : reach.IsRoot l.overlays.length → e.SparesLog) :
    (e.applyAt reach l).root.log? = l.root.log? ∧ (e.applyAt reach l).overlays.length = l.overlays.length := by
  cases reach with
  | root => exact ⟨(spares trivial).log? _, rfl⟩
  | layer steps =>
    show (l.onLayer steps e.apply).root.log? = _ ∧ (l.onLayer steps e.apply).overlays.length = _
    refine ⟨?_, Layers.length_onLayer e.apply⟩
    by_cases near : steps < l.overlays.length
    · rw [Layers.onLayer_near near]
    · rw [Layers.onLayer_far near]
      exact (spares (Nat.not_lt.mp near)).log? _

/-- Where a reticent callback runs, the tick goes on with the same brackets open. -/
theorem Callback.Reticent.waits {host : Host ρ μ σ} {body : Callback μ σ α} {x : α} {m m' : Machine ρ μ σ}
    (reticent : body.Reticent m.context.layers.overlays.length) (h : body.run host m = .ok x m') : m.Waits m' := by
  induction body generalizing m with
  | done =>
    simp only [run, Run.pure_eq_ok] at h
    exact h.2 ▸ .refl m
  | look next ih => exact ih _ _ (reticent _ _ rfl) h
  | remember f next ih =>
    simp only [run, Run.bind_eq_ok, Run.remember_eq_ok] at h
    obtain ⟨_, _, rfl, h⟩ := h
    have noted : m.Waits (m.withMemory (f m.memory)) := .of_context rfl rfl
    exact noted.trans (ih reticent h)
  | edit reach e next ih =>
    simp only [run, Run.bind_eq_ok, Run.onContext_eq_ok] at h
    obtain ⟨_, _, rfl, h⟩ := h
    obtain ⟨root, length⟩ := Edit.applyAt_log? reticent.1
    exact (Machine.Waits.of_layers root length).trans (ih (length ▸ reticent.2) h)
  | setGlobal t id v next ih =>
    simp only [run, Run.bind_eq_ok, Run.onContext_eq_ok] at h
    obtain ⟨_, _, rfl, h⟩ := h
    have length : (m.context.layers.setGlobal t id v).overlays.length = m.context.layers.overlays.length :=
      List.length_map _
    have root : (m.context.layers.setGlobal t id v).root.log? = m.context.layers.root.log? :=
      Edit.SparesLog.log? (e := .set t id v) trivial _
    exact (Machine.Waits.of_layers root length).trans (ih (length ▸ reticent) h)
  | takeReturn next ih =>
    simp only [run, Run.bind_eq_ok, Run.takeReturn_eq_ok] at h
    obtain ⟨r, _, ⟨-, rfl⟩, h⟩ := h
    exact (Machine.Waits.cleared m).trans (ih r (reticent r) h)
  | takeOverflow next ih =>
    simp only [run, Run.bind_eq_ok, Run.takeOverflow, EStateM.Result.ok.injEq] at h
    obtain ⟨o, _, ⟨-, rfl⟩, h⟩ := h
    have taken : m.Waits { m with context := { m.context with overflow := none } } :=
      ⟨⟨⟨rfl, rfl, rfl, rfl⟩, fun _ => id, rfl⟩, id⟩
    exact taken.trans (ih o (reticent o) h)
  | trace tag a b next ih =>
    simp only [run, Run.bind_eq_ok] at h
    obtain ⟨_, _, traced, h⟩ := h
    have waits := Run.trace_waits (fun e same => TraceEvent.paren?_eq_none (same ▸ reticent.1)) traced
    exact waits.trans (ih (waits.level.overlays ▸ reticent.2) h)
  | requestReturn | tickTree | resetTree => exact absurd reticent id

end BehaviorTree
