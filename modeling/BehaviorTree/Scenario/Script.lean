/-
  BehaviorTree.Scenario.Script: callbacks and predicates as scripts.

  A scenario hangs scripts into its trees. They write to one log, count the turns of their
  lists of answers, and find trees by name. A caller's state is a chain of names: its own,
  and those of the callers that it came from.
-/

import Std.Data.ExtTreeMap
import BehaviorTree.Callback
import BehaviorTree.Json.Basic

namespace BehaviorTree.Scenario

/-- A caller's name and those of its own callers, outwards. -/
abbrev Chain := List String

/-- The names of a chain, or `none` if there is no caller. -/
def chainText : Option Chain → String
  | none => "none"
  | some names => "<-".intercalate names

/-- What scripts write to the log. -/
inductive LogEntry where
  | note (v : Json)
  | ticked (id : String) (depth : Nat)
  | reset (id : String) (depth : Nat) (fire : Bool)
  | entered (id : String) (depth : Nat)
  | exited (id : String) (status : Status)
  | tested (id : String) (depth : Nat) (result : Bool)
  | picked (id : String) (count : Nat) (index : Option Nat)
  | completed (id : String) (index : Nat)
  | provided (name : Option String)
  | made (name : String) (parents : String)
  | value (v : Option Value)
  | layers (own : Nat) (hasParent : Bool) (root : Nat)
  | dropped (v : Option Value)
  | depth (depth max : Nat)
  | time (tick : UInt64) (delta : Float32)
  | frames (stack : Option CallStack)
  | state (chain : Option Chain)
  | requested (s : Option Status)
  | returnTaken (s : Option Status)
  | overflow (o : Option Overflow)
  | overflowTaken (o : Option Overflow)
  | treeTicked (name : String) (s : Option Status)

/-- What the scripts of a scenario share. -/
structure Memory where
  log : Array LogEntry := #[]
  /-- How often each list of answers was used. -/
  turns : Std.ExtTreeMap Nat Nat := ∅
  registry : List (String × TreeId) := []

namespace Memory

def write (m : Memory) (e : LogEntry) : Memory := { m with log := m.log.push e }

/-- The number of earlier uses of a list, one more from now on. -/
def turn (m : Memory) (list : Nat) : Nat × Memory :=
  let used := m.turns.getD list 0
  (used, { m with turns := m.turns.insert list (used + 1) })

/-- The next item of a list, the last one again and again in the end. -/
def nextOf {α : Type} (m : Memory) (list : Nat) (items : List α) : Option α × Memory :=
  let (used, m) := m.turn list
  (items[min used (items.length - 1)]?, m)

/-- The next item of a list, from the front again in the end. -/
def cycle {α : Type} (m : Memory) (list : Nat) (items : List α) : Option α × Memory :=
  let (used, m) := m.turn list
  (items[used % items.length]?, m)

/-- The registered tree of a name. -/
def tree? (m : Memory) (name : String) : Option TreeId := m.registry.lookup name

end Memory

/-! ## Predicates -/

/-- A scripted predicate. -/
inductive Test where
  | const (b : Bool)
  | has (k : Key)
  | equals (id : UInt64) (v : Value)
  | lessThan (id : UInt64) (v : Value)
  | not (p : Test)
  | and (p q : Test)
  /-- One answer after the other; `list` numbers the list of answers. -/
  | answers (list : Nat) (items : List Bool)
  | depthBelow (n : Nat)
  | stateIs (name : String)
  | logged (id : String) (p : Test)

/-- What a test says, and what it leaves in the memory. -/
def Test.holds : Test → Predicate Memory Chain
  | .const b, _, m => (b, m)
  | .has k, c, m => (c.layers.contains k.type k.id, m)
  | .equals id v, c, m => ((c.layers.get? v.type id).any fun x => v.type.same x v.val, m)
  | .lessThan id v, c, m => ((c.layers.get? v.type id).any fun x => v.type.below x v.val, m)
  | .not p, c, m =>
    let (b, m) := p.holds c m
    (!b, m)
  | .and p q, c, m =>
    let (b, m) := p.holds c m
    if b then q.holds c m else (false, m)
  | .answers list items, _, m =>
    let (b, m) := m.nextOf list items
    (b.getD false, m)
  | .depthBelow n, c, m => (c.depth < n, m)
  | .stateIs name, c, m => (c.state.bind List.head? = some name, m)
  | .logged id p, c, m =>
    let (b, m) := p.holds c m
    (b, m.write (.tested id c.depth b))

/-! ## Callbacks -/

/-- A step of a scripted callback. -/
inductive Effect where
  | log (v : Json)
  | set (id : UInt64) (v : Value)
  | setGlobal (id : UInt64) (v : Value)
  | setRoot (id : UInt64) (v : Value)
  | add (id : UInt64) (v : Value)
  | get (k : Key)
  | layers
  | dropLayer (k : Key)
  | depth
  | time
  | frames
  | state
  | requestReturn (s : Status)
  | requested
  | takeReturn
  | overflow
  | takeOverflow
  | trace (tag : String) (a b : UInt64)
  | tickTree (name : String) (delta : Float32)
  | resetTree (name : String) (fire : Bool)
  | cond (p : Test) (effects : List Effect)

/-- A scripted callback with a result. -/
abbrev Script (α : Type) := Callback Memory Chain α

namespace Script

def write (e : LogEntry) : Script Unit := .remember (·.write e) (.done ())

/-- Writes an entry that is read off the context. -/
def writeOf (e : Context Chain → LogEntry) : Script Unit := .look fun c _ => write (e c)

/-- The registered tree of a name. -/
def tree? (name : String) : Script (Option TreeId) := .look fun _ m => .done (m.tree? name)

end Script

/-- The value under a key, seen through all layers. -/
def valueAt (l : Layers) (k : Key) : Option Value := (l.get? k.type k.id).map (⟨k.type, ·⟩)

mutual

def Effect.script : Effect → Script Unit
  | .log v => Script.write (.note v)
  | .set id v => .edit (.layer 0) (.set v.type id v.val) (.done ())
  | .setGlobal id v => .setGlobal v.type id v.val (.done ())
  | .setRoot id v => .edit .root (.set v.type id v.val) (.done ())
  | .add id v => .look fun c _ =>
    let before := (c.layers.get? v.type id).getD v.type.zero
    .edit (.layer 0) (.set v.type id (v.type.add before v.val)) (.done ())
  | .get k => Script.writeOf fun c => .value (valueAt c.layers k)
  | .layers => Script.writeOf fun c =>
    .layers c.layers.innermost.size (!c.layers.overlays.isEmpty) c.layers.root.size
  | .dropLayer k => .look fun c _ =>
    let before := (c.layers.innermost.get? k.type k.id).map (⟨k.type, ·⟩)
    .edit (.layer 0) (.remove k.type k.id) (Script.write (.dropped before))
  | .depth => Script.writeOf fun c => .depth c.depth c.maxDepth
  | .time => Script.writeOf fun c => .time c.tick c.delta
  | .frames => Script.writeOf fun c => .frames c.stack
  | .state => Script.writeOf fun c => .state c.state
  | .requestReturn s => .requestReturn s (.done ())
  | .requested => Script.writeOf fun c => .requested c.returnRequest
  | .takeReturn => .takeReturn fun s => Script.write (.returnTaken s)
  | .overflow => Script.writeOf fun c => .overflow c.overflow
  | .takeOverflow => .takeOverflow fun o => Script.write (.overflowTaken o)
  | .trace tag a b => .trace tag a b (.done ())
  | .tickTree name delta => do
    match ← Script.tree? name with
    | none => Script.write (.treeTicked name none)
    | some tree => .tickTree tree delta fun s => Script.write (.treeTicked name (some s))
  | .resetTree name fire => do
    match ← Script.tree? name with
    | none => .done ()
    | some tree => .resetTree tree fire (.done ())
  | .cond p effects => do if ← Callback.ask p.holds then Effect.scriptAll effects else .done ()

/-- The effects one after the other. -/
def Effect.scriptAll : List Effect → Script Unit
  | [] => .done ()
  | e :: rest => do e.script; Effect.scriptAll rest

end

end BehaviorTree.Scenario
