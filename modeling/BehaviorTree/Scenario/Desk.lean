/-
  BehaviorTree.Scenario.Desk: single steps on boards, layers of boards and trace
  destinations.

  A step answers, or faults; a fault leaves everything else as the step left it, and the
  next step goes on from there.
-/

import BehaviorTree.Board.Layers
import BehaviorTree.Diagnostic
import BehaviorTree.Trace.Emission

namespace BehaviorTree.Scenario

/-- What a step on boards answers. -/
inductive Answer where
  | nothing
  | flag (b : Bool)
  | value (v : Option Value)
  | obj (o : Option Obj)
  | size (n : Nat)
  | sizes (own : Nat) (parent : Option Nat) (root : Nat)
  | compared (id : UInt64) (same less : Bool)
  | noParent

/-! ## One board -/

/-- Adding objects; the trace objects do not add, nor do those of users' types. -/
def addObjs : (t : ObjType) → t.Carrier → t.Carrier → t.Carrier
  | .uint32, x, y => x + y
  | .int32, x, y => x + y
  | .text, x, y => x ++ y
  | .traceLog, x, _ => x
  | .traceSink, x, _ => x
  | .custom _, x, _ => x

/-- A step on one board. -/
inductive TableStep where
  | set (id : UInt64) (v : Value)
  | get (k : Key)
  | remove (k : Key)
  | contains (k : Key)
  | clear
  | setObj (id : UInt64) (o : Obj)
  | getObj (t : ObjType) (id : UInt64)
  | removeObj (t : ObjType) (id : UInt64)
  | containsObj (id : UInt64)
  | addObj (id : UInt64) (o : Obj)
  | compare (id other : UInt64)

/-- The answer of a step on an object, with the board after it. -/
def objAnswer (t : ObjType) (b : Board) :
    Except Fault (Option t.Carrier × Board) → Except Fault Answer × Board
  | .ok (x, b) => (.ok (.obj (x.map (⟨t, ·⟩))), b)
  | .error f => (.error f, b)

def TableStep.run (b : Board) : TableStep → Except Fault Answer × Board
  | set id v => (.ok .nothing, b.set v.type id v.val)
  | get k => (.ok (.value ((b.get? k.type k.id).map (⟨k.type, ·⟩))), b)
  | remove k => (.ok (.value ((b.get? k.type k.id).map (⟨k.type, ·⟩))), b.remove k.type k.id)
  | contains k => (.ok (.flag (b.contains k.type k.id)), b)
  | clear => (.ok .nothing, {})
  | setObj id o => (.ok .nothing, b.setObj o.type id o.val)
  | getObj t id => objAnswer t b ((b.getObj t id).map (·, b))
  | removeObj t id => objAnswer t b (b.removeObj t id)
  | containsObj id => (.ok (.flag (b.containsObj id)), b)
  | addObj id o => objAnswer o.type b (b.modifyObj o.type id (addObjs o.type · o.val))
  | compare id other => (.ok (.compared id (id = other) (id < other)), b)

/-! ## Layers -/

/-- A step on layers of boards. -/
inductive LayerStep where
  | get (k : Key)
  | contains (k : Key)
  | set (id : UInt64) (v : Value)
  | setGlobal (id : UInt64) (v : Value)
  | getObj (t : ObjType) (id : UInt64)
  | sizes
  | ownSize
  | own (s : TableStep)
  | root (s : TableStep)
  | parent (s : LayerStep)

def LayerStep.run : LayerStep → Layers → Except Fault Answer × Layers
  | get k, l => (.ok (.value ((l.get? k.type k.id).map (⟨k.type, ·⟩))), l)
  | contains k, l => (.ok (.flag (l.contains k.type k.id)), l)
  | set id v, l => (.ok .nothing, l.set v.type id v.val)
  | setGlobal id v, l => (.ok .nothing, l.setGlobal v.type id v.val)
  | getObj t id, l => ((l.getObj t id).map fun x => .obj (x.map (⟨t, ·⟩)), l)
  | sizes, l =>
    (.ok (.sizes l.innermost.size (l.pop?.map (·.2.innermost.size)) l.root.size), l)
  | ownSize, l => (.ok (.size l.innermost.size), l)
  | own s, l =>
    let (answer, b) := s.run l.innermost
    (answer, l.onInnermost fun _ => b)
  | root s, l =>
    let (answer, b) := s.run l.root
    (answer, l.onRoot fun _ => b)
  | parent s, l => match l.pop? with
    | none => (.ok .noParent, l)
    | some (b, outer) =>
      let (answer, outer) := s.run outer
      (answer, outer.push b)

/-- Layers whose overlays may have names, and the named overlays that were taken off. -/
structure Easel where
  layers : Layers := {}
  names : List (Option String) := []
  saved : List (String × Board) := []

/-- Puts an overlay on: the one saved under the name, or an empty one. -/
def Easel.push (e : Easel) (name : Option String) : Easel :=
  let overlay := (name.bind fun n => e.saved.lookup n).getD {}
  { layers := e.layers.push overlay
    names := name :: e.names
    saved := e.saved.filter fun (n, _) => some n ≠ name }

/-- Takes the innermost overlay off, and saves it if it has a name. -/
def Easel.pop (e : Easel) : Easel :=
  match e.layers.pop? with
  | none => e
  | some (overlay, layers) => match e.names.head?.join with
    | none => { e with layers, names := e.names.tail }
    | some n =>
      { layers
        names := e.names.tail
        saved := (n, overlay) :: e.saved.filter fun (m, _) => m ≠ n }

/-! ## Trace destinations -/

/-- Which log to install. -/
inductive LogChoice where
  | absent
  | empty
  | bad
  deriving DecidableEq

/-- Which sink to install. -/
inductive SinkChoice where
  | absent
  | sink (s : Sink)
  | bad

/-- The destinations to install on a board; a bad one is an object of another type. -/
structure Destinations where
  log : LogChoice := .absent
  sink : SinkChoice := .absent

def Destinations.install (d : Destinations) (b : Board) : Board :=
  let b := match d.log with
    | .absent => b
    | .empty => b.setObj .traceLog TraceLog.key {}
    | .bad => b.setObj .uint32 TraceLog.key 7
  match d.sink with
  | .absent => b
  | .sink s => b.setObj .traceSink Sink.key s
  | .bad => b.setObj .uint32 Sink.key 7

/-- A step on a log. -/
inductive LogStep where
  | push (e : TraceEvent)
  | clear
  | size
  | events
  | tagged (tag : String)
  | atTick (tick : UInt64)

/-- A step with trace destinations. -/
inductive TraceStep where
  | emit (e : TraceEvent)
  | isRuntime (e : TraceEvent)
  | startingWith (start : String) (events : List TraceEvent)
  | heard
  | boardSize
  | log (s : LogStep)

/-- What a step with trace destinations answers. -/
inductive TraceAnswer where
  | nothing
  | noLog
  | flag (b : Bool)
  | size (n : Nat)
  | sizeAndEmpty (n : Nat)
  | events (es : List TraceEvent)
  | diagnostics (ds : List Diagnostic)

/-- A board with trace destinations, and what recording sinks received. -/
structure Tracer where
  board : Board := {}
  heard : Array TraceEvent := #[]

def LogStep.run (l : TraceLog) : LogStep → TraceAnswer × TraceLog
  | push e => (.nothing, l.push e)
  | clear => (.nothing, {})
  | size => (.sizeAndEmpty l.events.size, l)
  | events => (.events l.events.toList, l)
  | tagged tag => (.events (l.tagged tag).toList, l)
  | atTick tick => (.events (l.atTick tick).toList, l)

def TraceStep.run (t : Tracer) : TraceStep → Except Fault TraceAnswer × Tracer
  | emit e =>
    let (board, outcome) := t.board.emit e
    match outcome with
    | .error f => (.error f, { t with board })
    | .ok none => (.ok (.diagnostics []), { t with board })
    | .ok (some (.recorded e)) => (.ok (.diagnostics []), { board, heard := t.heard.push e })
    | .ok (some (.logged e)) => (.ok (.diagnostics [.event e]), { t with board })
  | isRuntime e => (.ok (.flag e.isRuntime), t)
  | startingWith start events =>
    let sink := Sink.startingWith start .recorder
    (.ok (.events (events.filter fun e => (sink.deliver e).isSome)), t)
  | heard => (.ok (.events t.heard.toList), t)
  | boardSize => (.ok (.size t.board.size), t)
  | log s => match t.board.getObj .traceLog TraceLog.key with
    | .error f => (.error f, t)
    | .ok none => (.ok .noLog, t)
    | .ok (some l) =>
      let (answer, l) := s.run l
      (.ok answer, { t with board := t.board.setObj .traceLog TraceLog.key l })

end BehaviorTree.Scenario
