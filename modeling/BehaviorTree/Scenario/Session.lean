/-
  BehaviorTree.Scenario.Session: running a scenario step by step.

  A session has a system of trees, a machine with one root board, and overlays saved by
  name. After each step the session hands out what the step left: the log of the scripts,
  the trace events, what recording sinks received, diagnostics, and the values that the
  scenario watches. A step that faults hands out the log alone, and is the last one.

  The session holds the trees of its registry, the main one among them, and the choosing
  nodes that can be asked about. A step on a tree that is not registered, or no longer,
  has no answer and refuses the scenario as a whole; so does a board whose trace log is
  another kind of object when its events are to be handed out.
-/

import BehaviorTree.Scenario.Desk
import BehaviorTree.Scenario.Plan
import BehaviorTree.System

namespace BehaviorTree.Scenario

/-- A context to tick a root in. -/
structure HandContext where
  delta : Float32
  tick : UInt64 := 0
  state : Option String := none
  maxDepth : Nat := UInt64.size - 1
  stack : Option Nat := none
  frames : List Frame := []
  returning : Option Status := none

/-- The call stack of such a context; frames that do not fit are left out. -/
def HandContext.callStack (h : HandContext) : Option CallStack :=
  h.stack.map fun capacity =>
    h.frames.foldl (fun s f => (s.push f).toOption.getD s) { capacity }

def HandContext.context (h : HandContext) (layers : Layers) : Context Chain :=
  { tick := h.tick, delta := h.delta, layers, state := h.state.map ([·]), stack := h.callStack
    maxDepth := h.maxDepth, returnRequest := h.returning }

/-- What to do with a tree. -/
inductive TreeAction where
  | tick (delta : Float32) (state overlay : Option String)
  | tickByHand (h : HandContext)
  | reset (fire : Bool) (depth : Option Nat)
  | info

/-- What to do in a step of a scenario. -/
inductive Action where
  /-- With the tree of this name, or with the main one. -/
  | withTree (name : Option String) (a : TreeAction)
  | board (s : TableStep)
  | drop (name : String)
  | picker (id : String)

/-- An action, and how often it is done. -/
structure Step where
  action : Action
  times : Nat := 1

/-- What a picker would do next. -/
inductive PickerView where
  | bag (next : Option Nat)
  | weighted (next : Option Nat) (weights : List Float32)
  | rotation (cursor : UInt64)

def PickerView.ofPicker (count : Nat) (p : Picker) : PickerView :=
  match p with
  | .bag b => bag (b.pick count).1
  | .weighted d => weighted (d.pick count).1 d.weights
  | .rotation r => rotation r.cursor

/-- What an action answers. -/
inductive Result where
  | done
  | ticked (status : Status) (progress : Progress) (overlayWatch : Option (List (Option Value)))
  | tickedByHand (status : Status) (requested taken takenAgain : Option Status)
      (overflow : Option Overflow) (depth : Nat) (frames : Option (List Frame))
  | board (a : Answer)
  | dropped (was : Bool)
  | picker (v : PickerView)
  | info (name : String) (limits : Limits) (progress : Progress)
  | unknown

/-- What a step leaves besides its result and the log of the scripts. -/
structure Traces where
  events : List TraceEvent
  heard : Array TraceEvent
  diagnostics : Array Diagnostic
  watched : List (Option Value)
  size : Nat

/-- What is handed out after a step. -/
inductive Entry where
  | done (result : Result) (log : Array LogEntry) (traces : Traces)
  | failed (f : Fault) (log : Array LogEntry)

/-- A scenario. -/
structure Plan where
  trees : List TreePlan
  destinations : Destinations := {}
  board : List TableStep := []
  watch : List Key := []
  steps : List Step

/-- A scenario in progress. -/
structure Session where
  sys : System Memory Chain
  machine : Machine (Store Chain) Memory Chain
  /-- The name of the main tree. -/
  main : String
  pickers : List (String × PickerSite)
  watch : List Key
  /-- The events of the trace log are handed out. -/
  logged : Bool
  overlays : List (String × Board) := []

namespace Session

/-- Does something with the machine. -/
def perform {α : Type} (s : Session) (action : Run (Store Chain) Memory Chain α) :
    Except Fault α × Session :=
  match action s.machine with
  | .ok a machine => (.ok a, { s with machine })
  | .error f machine => (.error f, { s with machine })

/-- Ticks a tree, over an overlay if there is one, and tells the layers at the end of the tick. -/
def tickOver (s : Session) (tree : TreeId) (delta : Float32) (state : Option String) :
    Option Board → Run (Store Chain) Memory Chain (Status × Layers)
  | none => do
    let status ← s.sys.tick .plain tree delta (state.map ([·]))
    return (status, (← Run.context).layers)
  | some overlay => do
    Run.onContext fun c => { c with layers := c.layers.push overlay }
    let status ← s.sys.tick .plain tree delta (state.map ([·]))
    let layers := (← Run.context).layers
    Run.onContext fun c => { c with layers := { c.layers with overlays := c.layers.overlays.tail } }
    return (status, layers)

/-- Ticks a tree's root in a context made by hand, and tells what the tick left in it. -/
def tickByHand (s : Session) (tree : TreeId) (h : HandContext) :
    Run (Store Chain) Memory Chain Result := do
  let outer ← Run.context
  Run.onContext fun c => h.context c.layers
  let status ← s.sys.tickHere .plain (s.sys.host .plain) tree
  let requested ← Run.returnRequest
  let taken ← Run.takeReturn
  let takenAgain ← Run.takeReturn
  let overflow ← Run.takeOverflow
  let inner ← Run.context
  Run.onContext fun c => { outer with layers := c.layers }
  return .tickedByHand status requested taken takenAgain overflow inner.depth
    (inner.stack.map (·.frames))

/-- Takes a name out of the registry, and lets go of its tree. -/
def drop (s : Session) (name : String) : Bool × Session :=
  let registry := s.machine.memory.registry
  let left := registry.filter fun (n, _) => n ≠ name
  (registry.any fun (n, _) => n = name,
    { s with machine := { s.machine with
        memory := { s.machine.memory with registry := left }
        runs := { s.machine.runs with held := left.map (·.2) } } })

/-- Does something with a tree. -/
def actWith (s : Session) (tree : TreeId) : TreeAction → Except Fault Result × Session
  | .tick delta state overlay =>
    let onTop := overlay.map fun name => (s.overlays.lookup name).getD {}
    match s.perform (s.tickOver tree delta state onTop) with
    | (.error f, s) => (.error f, s)
    | (.ok (status, layers), s) =>
      let progress := s.machine.runs.progress tree
      match overlay with
      | none => (.ok (.ticked status progress none), s)
      | some name =>
        (.ok (.ticked status progress (some (s.watch.map (valueAt layers)))),
          { s with overlays := (name, layers.innermost) ::
              s.overlays.filter fun (n, _) => n ≠ name })
  | .tickByHand h => s.perform (s.tickByHand tree h)
  | .reset fire depth =>
    s.perform do
      s.sys.resetAt .plain tree (depth.getD 0) fire
      return .done
  | .info =>
    (.ok (.info (s.sys.nameOf tree) (s.sys.limitsOf tree) (s.machine.runs.progress tree)), s)

/-- The registered tree of a name, or the main one. -/
def treeOf (s : Session) (name : Option String) : Except Refusal TreeId :=
  let name := name.getD s.main
  match s.machine.memory.tree? name with
  | some tree => .ok tree
  | none => .error (.unknownTree name)

/-- Does an action. -/
def act (s : Session) : Action → Except Refusal (Except Fault Result × Session)
  | .withTree name a => return s.actWith (← s.treeOf name) a
  | .board step =>
    let layers := s.machine.context.layers
    let (answer, root) := step.run layers.root
    .ok (answer.map .board, { s with machine := { s.machine with
      context := { s.machine.context with layers := { layers with root } } } })
  | .drop name =>
    let (was, s) := s.drop name
    .ok (.ok (.dropped was), s)
  | .picker id => match s.pickers.lookup id with
    | none => .ok (.ok .unknown, s)
    | some p =>
      let picker := s.machine.runs.pickerAt p.site p.initial
      .ok (.ok (.picker (.ofPicker p.count picker)), s)

/-- Takes the events out of the log on a board. -/
def takeEvents (b : Board) : Except Fault (List TraceEvent × Board) := do
  match ← b.getObj .traceLog TraceLog.key with
  | some l => return (l.events.toList, b.setObj .traceLog TraceLog.key {})
  | none => return ([], b)

/-- Hands out what a step with a result left. -/
def handOut (s : Session) (result : Result) : Except Refusal (Entry × Session) := do
  let m := s.machine
  let root := m.context.layers.root
  let (events, root) ←
    if s.logged then (takeEvents root).mapError .fault else .ok ([], root)
  return (.done result m.memory.log
    { events
      heard := m.heard
      diagnostics := m.journal
      watched := s.watch.map fun k => (root.get? k.type k.id).map (⟨k.type, ·⟩)
      size := root.size },
    { s with machine := { m with
        context := { m.context with layers := { m.context.layers with root } }
        memory := { m.memory with log := #[] }
        heard := #[]
        journal := #[] } })

/-- Does an action some times, until it faults. -/
def repeatAction (s : Session) (a : Action) :
    (times : Nat) → Except Refusal (List Entry × Option Session)
  | 0 => return ([], some s)
  | times + 1 => do
    match ← s.act a with
    | (.error f, s) => return ([.failed f s.machine.memory.log], none)
    | (.ok result, s) =>
      let (entry, s) ← s.handOut result
      let (entries, s) ← repeatAction s a times
      return (entry :: entries, s)

/-- Runs steps until one faults. -/
def run (s : Session) : List Step → Except Refusal (List Entry)
  | [] => return []
  | step :: rest => do
    match ← s.repeatAction step.action step.times with
    | (entries, none) => return entries
    | (entries, some s) => return entries ++ (← run s rest)

/-- The board after steps that are done before the scenario starts. -/
def prepare (b : Board) : List TableStep → Except Fault Board
  | [] => .ok b
  | step :: rest => match step.run b with
    | (.ok _, b) => prepare b rest
    | (.error f, _) => .error f

/-- Builds the trees of a scenario, and then its board. -/
def start (p : Plan) : Except Refusal Session := do
  let (_, w) ← (buildTrees p.trees).run {}
  let root ← (prepare (p.destinations.install {}) p.board).mapError .fault
  return {
    sys := ⟨w.trees⟩
    machine := {
      context := { layers := { root } }
      memory := { registry := w.registry }
      runs := { held := w.registry.map (·.2), kept := w.pickers.map (·.2.site) } }
    main := (p.trees.getLast?.map TreePlan.name).getD ""
    pickers := w.pickers
    watch := p.watch
    logged := p.destinations.log = .empty }

end Session

/-- The entries of a scenario's steps. -/
def Plan.run (p : Plan) : Except Refusal (List Entry) := do
  (← Session.start p).run p.steps

end BehaviorTree.Scenario
