/-
  BehaviorTree.Proofs.Tracing.Destinations: a log and a sink among the objects of a board.

  A board on which there is neither is silent. Put there, the two take the events that are
  emitted and change nothing else (`Board.emit_traced`): a silent machine with destinations
  emits an event into them, whatever overlays are in place (`trace_traced`). What they hold can
  be told from the machine, and so can the machine without them (`Machine.traced_inj`).
-/

import BehaviorTree.Callback
import BehaviorTree.Proofs.Run

namespace BehaviorTree

variable {μ σ α : Type}

/-! ## Boards with destinations -/

/-- The objects with a log of these events and a recording sink among them, or one of them. -/
def traces (log sink : Bool) (events : Array TraceEvent) (objects : Table Obj) : Table Obj :=
  let logged := if log then objects.insert TraceLog.key ⟨.traceLog, ⟨events⟩⟩ else objects
  if sink then logged.insert Sink.key ⟨.traceSink, .recorder⟩ else logged

theorem log_ne_sink : TraceLog.key ≠ Sink.key := by decide

section
variable {log sink : Bool} {events : Array TraceEvent} {objects : Table Obj}

theorem traces_getElem? (id : UInt64) : (traces log sink events objects)[id]? =
    if sink ∧ Sink.key = id then some ⟨.traceSink, .recorder⟩
    else if log ∧ TraceLog.key = id then some ⟨.traceLog, ⟨events⟩⟩ else objects[id]? := by
  unfold traces
  cases log <;> cases sink <;> simp [Std.ExtTreeMap.getElem?_insert]

theorem traces_insert {id : UInt64} {x : Obj} (notLog : TraceLog.key ≠ id) (notSink : Sink.key ≠ id) :
    traces log sink events (objects.insert id x) = (traces log sink events objects).insert id x := by
  refine Std.ExtTreeMap.ext_getElem? fun k => ?_
  simp only [traces_getElem?, Std.ExtTreeMap.getElem?_insert, Std.LawfulEqCmp.compare_eq_iff_eq]
  grind

theorem traces_erase {id : UInt64} (notLog : TraceLog.key ≠ id) (notSink : Sink.key ≠ id) :
    traces log sink events (objects.erase id) = (traces log sink events objects).erase id := by
  refine Std.ExtTreeMap.ext_getElem? fun k => ?_
  simp only [traces_getElem?, Std.ExtTreeMap.getElem?_erase, Std.LawfulEqCmp.compare_eq_iff_eq]
  grind

end

namespace Board

/-- No destination of events is on the board. -/
structure Silent (b : Board) : Prop where
  log : b.objects[TraceLog.key]? = none
  sink : b.objects[Sink.key]? = none

/-- The board with a log of these events and a recording sink on it, or one of them. -/
def traced (log sink : Bool) (events : Array TraceEvent) (b : Board) : Board :=
  let b := if log then b.setObj .traceLog TraceLog.key ⟨events⟩ else b
  if sink then b.setObj .traceSink Sink.key .recorder else b

/-- The board without the destinations. -/
def untraced (b : Board) : Board := { b with objects := (b.objects.erase TraceLog.key).erase Sink.key }

variable {b : Board} {log sink : Bool} {events : Array TraceEvent}

theorem traced_eq : b.traced log sink events = { b with objects := traces log sink events b.objects } := by
  cases log <;> cases sink <;> rfl

theorem untraced_traced : (b.traced log sink events).untraced = b.untraced := by
  rw [traced_eq]
  unfold untraced
  congr 1
  refine Std.ExtTreeMap.ext_getElem? fun k => ?_
  simp only [traces_getElem?, Std.ExtTreeMap.getElem?_erase, Std.LawfulEqCmp.compare_eq_iff_eq]
  grind

theorem untraced_of_silent (silent : b.Silent) : b.untraced = b := by
  unfold untraced
  congr 1
  refine Std.ExtTreeMap.ext_getElem? fun k => ?_
  simp only [Std.ExtTreeMap.getElem?_erase, Std.LawfulEqCmp.compare_eq_iff_eq]
  grind [silent.log, silent.sink]

theorem getObj_log (silent : b.Silent) :
    (b.traced log sink events).getObj .traceLog TraceLog.key = .ok (if log then some ⟨events⟩ else none) := by
  rw [traced_eq]
  cases log <;> simp [getObj, traces_getElem?, log_ne_sink.symm, silent.log, Obj.as?]

theorem getObj_sink (silent : b.Silent) :
    (b.traced log sink events).getObj .traceSink Sink.key = .ok (if sink then some .recorder else none) := by
  rw [traced_eq]
  cases sink <;> simp [getObj, traces_getElem?, log_ne_sink, silent.sink, Obj.as?]

theorem setObj_log (more : Array TraceEvent) :
    (b.traced true sink events).setObj .traceLog TraceLog.key ⟨more⟩ = b.traced true sink more := by
  rw [traced_eq, traced_eq]
  unfold setObj
  congr 1
  refine Std.ExtTreeMap.ext_getElem? fun k => ?_
  simp only [traces_getElem?, Std.ExtTreeMap.getElem?_insert, Std.LawfulEqCmp.compare_eq_iff_eq]
  have apart := log_ne_sink
  grind

/-- The destinations take an event, and nothing else changes. -/
theorem emit_traced (silent : b.Silent) (e : TraceEvent) : (b.traced log sink events).emit e =
    (b.traced log sink (events.push e), .ok (if sink then some (.recorded e) else none)) := by
  have logged : ∃ x, (b.traced log sink events).modifyObj .traceLog TraceLog.key (·.push e) =
      .ok (x, b.traced log sink (events.push e)) := by
    unfold modifyObj
    rw [getObj_log silent]
    cases log with
    | false => exact ⟨_, rfl⟩
    | true => exact ⟨_, congrArg (fun b => Except.ok (_, b)) (setObj_log _)⟩
  obtain ⟨x, logged⟩ := logged
  unfold emit
  rw [logged]
  dsimp only
  rw [getObj_sink silent]
  cases sink <;> rfl

theorem onTable_traced (t : ValueType) (f : Table t.Carrier → Table t.Carrier) :
    (b.traced log sink events).onTable t f = (b.onTable t f).traced log sink events := by
  rw [traced_eq, traced_eq]
  cases t <;> rfl

end Board

/-- The edit leaves the destinations alone. -/
def Edit.SparesTraces : Edit → Prop
  | setObj _ id _ | removeObj id => TraceLog.key ≠ id ∧ Sink.key ≠ id
  | clear => False
  | set _ _ _ | remove _ _ => True

section
variable {b : Board} {log sink : Bool} {events : Array TraceEvent} {e : Edit} (spares : e.SparesTraces)
include spares

theorem Edit.apply_traced : e.apply (b.traced log sink events) = (e.apply b).traced log sink events := by
  cases e with
  | set t id x => exact Board.onTable_traced t _
  | remove t id => exact Board.onTable_traced t _
  | setObj t id x =>
    rw [Board.traced_eq, Board.traced_eq]
    exact congrArg (fun objects => { b with objects }) (traces_insert spares.1 spares.2).symm
  | removeObj id =>
    rw [Board.traced_eq, Board.traced_eq]
    exact congrArg (fun objects => { b with objects }) (traces_erase spares.1 spares.2).symm
  | clear => cases spares

theorem Edit.apply_silent (silent : b.Silent) : (e.apply b).Silent := by
  cases e with
  | set t | remove t =>
    exact ⟨(congrArg (·[TraceLog.key]?) (b.objects_onTable t _)).trans silent.log,
      (congrArg (·[Sink.key]?) (b.objects_onTable t _)).trans silent.sink⟩
  | setObj t id x =>
    simp only [apply, Board.setObj]
    constructor
    · simp [Std.ExtTreeMap.getElem?_insert, spares.1.symm, silent.log]
    · simp [Std.ExtTreeMap.getElem?_insert, spares.2.symm, silent.sink]
  | removeObj id =>
    simp only [apply]
    constructor
    · simp [Std.ExtTreeMap.getElem?_erase, silent.log]
    · simp [Std.ExtTreeMap.getElem?_erase, silent.sink]
  | clear => cases spares

theorem Edit.applyAt_traced (reach : Reach) (l : Layers) (log sink : Bool) (events : Array TraceEvent) :
    e.applyAt reach (l.onRoot (·.traced log sink events)) = (e.applyAt reach l).onRoot (·.traced log sink events) := by
  have root : l.onRoot (fun b => e.apply (b.traced log sink events)) =
      l.onRoot fun b => (e.apply b).traced log sink events :=
    congrArg l.onRoot (funext fun _ => apply_traced spares)
  cases reach with
  | root => exact root
  | layer steps =>
    show (l.onRoot _).onLayer steps e.apply = (l.onLayer steps e.apply).onRoot _
    by_cases near : steps < l.overlays.length
    · rw [Layers.onLayer_near near, Layers.onLayer_near (l := l.onRoot _) near]
      rfl
    · rw [Layers.onLayer_far near, Layers.onLayer_far (l := l.onRoot _) near]
      exact root

theorem Edit.applyAt_silent (reach : Reach) {l : Layers} (silent : l.root.Silent) :
    (e.applyAt reach l).root.Silent := by
  cases reach with
  | root => exact apply_silent spares silent
  | layer steps =>
    show (l.onLayer steps e.apply).root.Silent
    by_cases near : steps < l.overlays.length
    · rw [Layers.onLayer_near near]
      exact silent
    · rw [Layers.onLayer_far near]
      exact apply_silent spares silent

end

theorem Edit.overlays_applyAt (e : Edit) (reach : Reach) (l : Layers) :
    (e.applyAt reach l).overlays.length = l.overlays.length := by
  cases reach with
  | root => rfl
  | layer steps => exact Layers.length_onLayer e.apply

/-! ## Machines with destinations -/

/-- The context with destinations on the root board. -/
def Context.traced (log sink : Bool) (events : Array TraceEvent) (c : Context σ) : Context σ :=
  { c with layers := c.layers.onRoot (·.traced log sink events) }

/-- What is left of the context without the destinations. -/
def Context.untraced (c : Context σ) : Context σ := { c with layers := c.layers.onRoot Board.untraced }

/-- No destination of events is on the root board. -/
def Context.Silent (c : Context σ) : Prop := c.layers.root.Silent

/-- The machine with destinations that these events have reached. -/
def Machine.traced {ρ : Type} (log sink : Bool) (events : Array TraceEvent) (m : Machine ρ μ σ) : Machine ρ μ σ :=
  { m with context := m.context.traced log sink events, heard := if sink then m.heard ++ events else m.heard }

/-- What comes of a run, with destinations that these events have reached. -/
def Run.traced {ρ : Type} (log sink : Bool) (events : Array TraceEvent) :
    EStateM.Result Fault (Machine ρ μ σ) α → EStateM.Result Fault (Machine ρ μ σ) α
  | .ok x m => .ok x (m.traced log sink events)
  | .error e m => .error e (m.traced log sink events)

/-- Where a run came to. -/
def Run.reached {ρ : Type} : EStateM.Result Fault (Machine ρ μ σ) α → Machine ρ μ σ
  | .ok _ m | .error _ m => m

theorem Context.untraced_traced (c : Context σ) (log sink : Bool) (events : Array TraceEvent) :
    (c.traced log sink events).untraced = c.untraced :=
  congrArg (fun root => { c with layers := { c.layers with root } }) Board.untraced_traced

theorem Context.untraced_of_silent {c : Context σ} (silent : c.Silent) : c.untraced = c :=
  congrArg (fun root => { c with layers := { c.layers with root } }) (Board.untraced_of_silent silent)

/-- With both destinations there, the silent machine can be told, and the events. -/
theorem Machine.traced_inj {ρ : Type} {n n' : Machine ρ μ σ} {events events' : Array TraceEvent}
    (silent : n.context.Silent) (silent' : n'.context.Silent) (heard : n.heard = n'.heard)
    (same : n.traced true true events = n'.traced true true events') : n = n' ∧ events = events' := by
  have contexts : n.context.traced true true events = n'.context.traced true true events' := congrArg (·.context) same
  have context : n.context = n'.context := by
    have bare := congrArg Context.untraced contexts
    rwa [Context.untraced_traced, Context.untraced_traced, Context.untraced_of_silent silent,
      Context.untraced_of_silent silent'] at bare
  have logs : n.context.layers.root.traced true true events = n'.context.layers.root.traced true true events' :=
    congrArg (·.layers.root) contexts
  have log := congrArg (·.getObj .traceLog TraceLog.key) logs
  rw [Board.getObj_log silent, Board.getObj_log silent'] at log
  refine ⟨?_, by simpa using log⟩
  obtain ⟨_, _, _, _, _⟩ := n
  obtain ⟨_, _, _, _, _⟩ := n'
  simp only [Machine.traced, Machine.mk.injEq] at same context heard ⊢
  exact ⟨context, same.2.1, same.2.2.1, same.2.2.2.1, heard⟩

/-- An event reaches the destinations, whatever overlays are in place. -/
theorem trace_traced {ρ : Type} {n : Machine ρ μ σ} (silent : n.context.Silent) (log sink : Bool)
    (events : Array TraceEvent) (tag : String) (x y : UInt64) : Run.trace tag x y (n.traced log sink events) =
      .ok () (n.traced log sink (events.push ⟨n.context.tick, tag, x, y⟩)) := by
  have emitted : (n.traced log sink events).context.layers.root.emit ⟨n.context.tick, tag, x, y⟩ =
      (n.context.layers.root.traced log sink (events.push ⟨n.context.tick, tag, x, y⟩), .ok _) :=
    Board.emit_traced silent ⟨n.context.tick, tag, x, y⟩
  unfold Run.trace
  dsimp only
  rw [show (n.traced log sink events).context.tick = n.context.tick from rfl, emitted]
  cases sink with
  | false => rfl
  | true =>
    show EStateM.Result.ok () (_ : Machine ρ μ σ) = _
    unfold Machine.traced
    simp only [if_true, Array.push_append]
    rfl

end BehaviorTree
