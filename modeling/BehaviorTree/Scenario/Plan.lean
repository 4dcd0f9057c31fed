/-
  BehaviorTree.Scenario.Plan: trees as a scenario describes them, and how they are built.

  A plan may ask for what cannot be built; building it finds the first such fault in the
  order in which the parts are put together: children from left to right, and then the
  node that has them. Trees are referred to by name. Inside a recursive tree its name
  stands for the tree itself, through a weak handle; all other names are looked up among
  the trees that were registered before.
-/

import BehaviorTree.Node
import BehaviorTree.Scenario.Script

namespace BehaviorTree.Scenario

mutual

/-- A node as a scenario describes it. Lists of answers are numbered by `list`. -/
inductive NodePlan where
  | action (id : Option String) (effects : List Effect) (list : Nat) (returns : List Status)
  | probe (id : String) (effects : List Effect) (list : Nat) (returns : List Status)
  | boxed (child : NodePlan)
  | condition (p : Test) (interval : Option Float32)
  | waitUntil (p : Test) (interval : Option Float32)
  | wait (duration : Float32)
  | pause
  | earlyReturn (s : Status)
  | invert (child : NodePlan)
  | force (child : NodePlan) (s : Status)
  | repeatTimes (child : NodePlan) (count : UInt32)
  | repeatUntil (child : NodePlan) (s : Status)
  | retry (child : NodePlan) (retries : UInt32)
  | timeout (child : NodePlan) (duration : Float32)
  | delay (child : NodePlan) (duration : Float32)
  | guard (child : NodePlan) (p : Test)
  | localScope (child : NodePlan)
  | scope (child : NodePlan) (id : Option String) (effects : List Effect)
  | sequence (children : List NodePlan)
  | selector (children : List NodePlan)
  | reactiveSequence (children : List NodePlan)
  | reactiveSelector (children : List NodePlan)
  | race (children : List NodePlan)
  | parallel (children : List NodePlan) (policy : ParallelPolicy)
  | join (children : List NodePlan) (policy : JoinPolicy)
  | shuffle (children : List NodePlan) (seed : UInt64) (id : Option String)
  | weighted (children : List NodePlan) (seed : UInt64) (weights : List Float32)
      (id : Option String) (uncounted : Bool)
  | rotating (children : List NodePlan) (id : Option String)
  | pick (children : List NodePlan) (id : String) (list : Nat) (picks : List (Option Nat))
  | callNamed (name : String) (weak : Bool) (state : Option String)
  | callInline (tree : TreePlan) (weak : Bool) (state : Option String)
  | callDynamic (list : Nat) (names : List (Option String)) (state : Option String)

/-- A tree as a scenario describes it. -/
inductive TreePlan where
  | tree (name : String) (root : NodePlan) (limits : Option Limits) (recursive : Bool)

end

def TreePlan.name : TreePlan → String
  | tree name _ _ _ => name

/-- Why a scenario is refused as a whole. -/
inductive Refusal where
  | fault (f : Fault)
  | limits (e : LimitsError)
  | unknownTree (name : String)

/-- A choosing node that can be asked about. -/
structure PickerSite where
  site : Address
  initial : Picker
  count : Nat

/-- What has been built so far. -/
structure Workshop where
  trees : Array (Tree Memory Chain) := #[]
  registry : List (String × TreeId) := []
  pickers : List (String × PickerSite) := []

abbrev Build := StateT Workshop (Except Refusal)

namespace Build

def check {α : Type} : Except Fault α → Build α
  | .ok a => pure a
  | .error f => throw (.fault f)

def checkLimits : Option Limits → Build { l : Limits // l.Valid }
  | none => pure ⟨{}, Limits.default_valid⟩
  | some l => match l.check with
    | .ok l => pure l
    | .error e => throw (.limits e)

/-- A number for a tree that is yet to be built. -/
def newTree (name : String) : Build TreeId := do
  let tree := (← get).trees.size
  modify fun w => { w with trees := w.trees.push { name, root := .action (.done .failure) } }
  return tree

def putTree (id : TreeId) (t : Tree Memory Chain) : Build Unit :=
  modify fun w => { w with trees := w.trees.setIfInBounds id t }

/-- Lets a choosing node be asked about under its name. -/
def expose (id : Option String) (site : Address) (initial : Picker) (count : Nat) : Build Unit :=
  match id with
  | none => pure ()
  | some id => modify fun w => { w with
      pickers := (id, ⟨site, initial, count⟩) :: w.pickers.filter (·.1 ≠ id) }

/-- A choosing node with one of the library's pickers. -/
def choosing (id : Option String) (site : Address) (initial : Picker)
    (children : List (Node Memory Chain)) : Build (Node Memory Chain) := do
  expose id site initial children.length
  return .selectOne (.picker initial) children

/-- The state of a called tree: a chain that begins with a name of its own. -/
def stateMaker (name : String) : StateMaker Memory Chain := fun parents m =>
  (name :: parents.getD [], m.write (.made name (chainText parents)))

/-- Looks the names up in turn. -/
def provider (list : Nat) (names : List (Option String)) (m : Memory) :
    Option TreeId × Memory :=
  let (name, m) := m.cycle list names
  (name.join.bind m.tree?, m.write (.provided name.join))

/-- A scripted callback that answers with the next of its results. -/
def answering (id : Option String) (effects : List Effect) (list : Nat) (returns : List Status) :
    Script Status := do
  match id with
  | none => pure ()
  | some id => Script.writeOf fun c => .ticked id c.depth
  Effect.scriptAll effects
  .look fun _ m =>
    let (s, m) := m.nextOf list returns
    .remember (fun _ => m) (.done (s.getD .success))

/-- What a scripted scope calls. -/
def hooks (id : Option String) (effects : List Effect) : Hooks Memory Chain :=
  match id with
  | none => {}
  | some id => {
      onEnter := do
        Script.writeOf fun c => .entered id c.depth
        Effect.scriptAll effects
      onExit := fun s m => m.write (.exited id s) }

/-- A scripted policy. -/
def policy (id : String) (list : Nat) (picks : List (Option Nat)) : Policy Memory :=
  .custom
    (fun count m =>
      let (index, m) := m.nextOf list picks
      (index.join, m.write (.picked id count index.join)))
    (fun index m => m.write (.completed id index))

end Build

open Build

mutual

/-- Builds a node for an address. `recursives` are the recursive trees around it. -/
def NodePlan.build (recursives : List (String × TreeId)) (site : Address) :
    NodePlan → Build (Node Memory Chain)
  | .action id effects list returns => return .action (answering id effects list returns)
  | .probe id effects list returns =>
    return .custom (answering (some id) effects list returns)
      fun depth fire m => m.write (.reset id depth fire)
  | .boxed child => child.build recursives site
  | .condition p none => return .condition p.holds .none
  | .condition p (some interval) =>
    return .condition p.holds (← check (Duration.check .conditionInterval interval))
  | .waitUntil p none => return .waitUntil p.holds .none
  | .waitUntil p (some interval) =>
    return .waitUntil p.holds (← check (Duration.check .waitUntilInterval interval))
  | .wait duration => return .wait (← check (Duration.check .wait duration))
  | .pause => return .pause
  | .earlyReturn s => check (Node.earlyReturn? s)
  | .invert child => return .invert (← child.build recursives (0 :: site))
  | .force child s => do
    let child ← child.build recursives (0 :: site)
    check (Node.force? s child)
  | .repeatTimes child count => do
    let child ← child.build recursives (0 :: site)
    check (Node.repeatTimes? count child)
  | .repeatUntil child s => do
    let child ← child.build recursives (0 :: site)
    check (Node.repeatUntil? s child)
  | .retry child retries => return .retry retries (← child.build recursives (0 :: site))
  | .timeout child duration => do
    let child ← child.build recursives (0 :: site)
    return .timeout (← check (Duration.check .timeout duration)) child
  | .delay child duration => do
    let child ← child.build recursives (0 :: site)
    return .delay (← check (Duration.check .delay duration)) child
  | .guard child p => return .guard p.holds (← child.build recursives (0 :: site))
  | .localScope child => return .localScope (← child.build recursives (0 :: site))
  | .scope child id effects => do
    return .scope (hooks id effects) (← child.build recursives (0 :: site))
  | .sequence children => return .sequence (← buildAll recursives site 0 children)
  | .selector children => return .selector (← buildAll recursives site 0 children)
  | .reactiveSequence children => return .reactiveSequence (← buildAll recursives site 0 children)
  | .reactiveSelector children => return .reactiveSelector (← buildAll recursives site 0 children)
  | .race children => return .race (← buildAll recursives site 0 children)
  | .parallel children policy => return .parallel policy (← buildAll recursives site 0 children)
  | .join children policy => return .join policy (← buildAll recursives site 0 children)
  | .shuffle children seed id => do
    let children ← buildAll recursives site 0 children
    choosing id site (.bag (.ofSeed seed)) children
  | .weighted children seed weights id uncounted => do
    let children ← buildAll recursives site 0 children
    let draw ← check (if uncounted then WeightedDraw.ofSeed seed weights
      else WeightedDraw.forChildren children.length seed weights)
    choosing id site (.weighted draw) children
  | .rotating children id => do
    let children ← buildAll recursives site 0 children
    choosing id site (.rotation {}) children
  | .pick children id list picks => do
    return .selectOne (policy id list picks) (← buildAll recursives site 0 children)
  | .callNamed name weak state => do
    let handle ← match recursives.lookup name with
      | some tree => pure (Handle.weak tree)
      | none => match (← get).registry.lookup name with
        | some tree => pure (if weak then .weak tree else .strong tree)
        | none => throw (.unknownTree name)
    return .call (.fixed handle) (state.map stateMaker)
  | .callInline tree weak state => do
    let tree ← tree.build recursives
    return .call (.fixed (if weak then .weak tree else .strong tree)) (state.map stateMaker)
  | .callDynamic list names state =>
    return .call (.provided (provider list names)) (state.map stateMaker)

/-- Builds siblings, the first of them for place `index` below `site`. -/
def buildAll (recursives : List (String × TreeId)) (site : Address) (index : Nat) :
    List NodePlan → Build (List (Node Memory Chain))
  | [] => return []
  | child :: rest => do
    let child ← child.build recursives (index :: site)
    return child :: (← buildAll recursives site (index + 1) rest)

/-- Builds a tree. The limits of a recursive tree are checked before its root is built, those of
another tree after it. -/
def TreePlan.build (recursives : List (String × TreeId)) : TreePlan → Build TreeId
  | .tree name root limits true => do
    let limits ← checkLimits limits
    let id ← newTree name
    putTree id { name, root := ← root.build ((name, id) :: recursives) [id], limits }
    return id
  | .tree name root limits false => do
    let id ← newTree name
    let root ← root.build recursives [id]
    putTree id { name, root, limits := ← checkLimits limits }
    return id

end

/-- Builds trees in order, and registers each by its name. -/
def buildTrees : List TreePlan → Build Unit
  | [] => return
  | plan :: rest => do
    let id ← plan.build []
    modify fun w => { w with
      registry := (plan.name, id) :: w.registry.filter (·.1 ≠ plan.name) }
    buildTrees rest

end BehaviorTree.Scenario
