/-
  BehaviorTree.Proofs.Accord.Trees: whole trees in accord.

  Two systems have the same trees, under limits that may differ, and their callbacks see no
  more of a tick than a given part (`System.Discreet`). An accord that what callbacks do keeps
  up as well, and what trees do between their nodes, is a concord (`Concord`): over it ticks and
  resets of whole trees end alike, also those that callbacks start, and so do runs of any number
  of them (`Concord.serve`).

  An index of a concord says how many calls may still be below (`levels`), so that ticks count
  down from a height of their own in each of the two systems.
-/

import BehaviorTree.Proofs.Accord.Behaviours
import BehaviorTree.Proofs.Copies
import BehaviorTree.Proofs.Lockstep.Trees
import BehaviorTree.Proofs.Walks.Calls

namespace BehaviorTree

variable {μ σ α : Type}

/-! ## Callbacks that see a part of the context -/

/-- The callback looks at nothing in the context but what `see` leaves of it, and edits the layers of the
board in these ways only. -/
def Callback.Discreet (see : Context σ → Context σ) (may : Edit → Prop) : Callback μ σ α → Prop
  | done _ => True
  | look next => ∀ c x, next c x = next (see c) x ∧ (next c x).Discreet see may
  | edit _ e next => may e ∧ next.Discreet see may
  | remember _ next | setGlobal _ _ _ next | requestReturn _ next | trace _ _ _ next | resetTree _ _ next =>
    next.Discreet see may
  | takeReturn next => ∀ s, (next s).Discreet see may
  | takeOverflow next => ∀ o, (next o).Discreet see may
  | tickTree _ _ next => ∀ s, (next s).Discreet see may

/-- The callbacks and predicates of the node itself are discreet. -/
def Node.Discreet (see : Context σ → Context σ) (may : Edit → Prop) : Node μ σ → Prop
  | action body | custom body _ => body.Discreet see may
  | condition holds _ | waitUntil holds _ | guard holds _ => ∀ c x, holds c x = holds (see c) x
  | scope hooks _ => hooks.onEnter.Discreet see may
  | _ => True

/-- All callbacks of the system are discreet. -/
def System.Discreet (sys : System μ σ) (see : Context σ → Context σ) (may : Edit → Prop) : Prop :=
  ∀ site node, sys.nodeAt site = some node → node.Discreet see may

/-- Both systems have the same trees, under limits that may differ. -/
def System.Twins (sys sys' : System μ σ) : Prop :=
  sys.trees.map (fun t => (t.name, t.root)) = sys'.trees.map fun t => (t.name, t.root)

/-- The store without what is known of the ticks of the trees. -/
def Store.apart (s : Store σ) : Store σ := { s with trees := ∅ }

/-! ## What is the same for twins -/

namespace System.Twins

theorem refl (sys : System μ σ) : sys.Twins sys := rfl

variable {sys sys' : System μ σ} (twins : sys.Twins sys')
include twins

theorem lookup (tree : TreeId) : (sys.trees[tree]? = none ∧ sys'.trees[tree]? = none) ∨
    ∃ t t', sys.trees[tree]? = some t ∧ sys'.trees[tree]? = some t' ∧ t.name = t'.name ∧ t.root = t'.root := by
  have same := congrArg (·[tree]?) twins
  simp only [Array.getElem?_map] at same
  cases here : sys.trees[tree]? with
  | none =>
    rw [here, Option.map_none, eq_comm, Option.map_eq_none_iff] at same
    exact .inl ⟨rfl, same⟩
  | some t =>
    rw [here, Option.map_some, eq_comm, Option.map_eq_some_iff] at same
    obtain ⟨t', here', pair⟩ := same
    obtain ⟨name, root⟩ := Prod.mk.inj pair
    exact .inr ⟨t, t', rfl, here', name.symm, root.symm⟩

theorem nameOf (tree : TreeId) : sys.nameOf tree = sys'.nameOf tree := by
  unfold System.nameOf
  rcases twins.lookup tree with ⟨none, none'⟩ | ⟨t, t', here, here', name, -⟩
  · rw [none, none']
  · rw [here, here']
    exact name

theorem owned (s : Store σ) (site : Address) : sys.owned s site = sys'.owned s.apart site := by
  have below : sys.callsBelow site = sys'.callsBelow site := by
    unfold System.callsBelow
    cases site.getLast? with
    | none => rfl
    | some tree =>
      dsimp only
      rcases twins.lookup tree with ⟨none, none'⟩ | ⟨t, t', here, here', -, root⟩
      · rw [none, none']
      · rw [here, here']
        dsimp only
        rw [root]
  unfold System.owned
  rw [below]
  rfl

/-- Which trees are available does not depend on their limits, nor on what is known of their ticks. -/
theorem alive (s : Store σ) (tree : TreeId) : sys.alive s tree = sys'.alive s.apart tree := by
  have pruned : ∀ rounds trees, sys.prune s rounds trees = sys'.prune s.apart rounds trees := by
    intro rounds
    induction rounds with
    | zero => exact fun _ => rfl
    | succ rounds ih =>
      intro trees
      unfold System.prune
      rw [ih, funext (twins.owned s)]
      rfl
  have size : sys.trees.size = sys'.trees.size := by simpa using congrArg Array.size twins
  unfold System.alive
  rw [pruned, size]
  rfl

end System.Twins

/-! ## Sessions with several trees -/

/-- What is done from outside with the trees of a system, with the answers of the ticks. -/
def System.serve {ρ : Type} (sys : System μ σ) (stage : Stage ρ μ σ) :
    List (TreeId × Use σ) → Run ρ μ σ (List Status)
  | [] => return []
  | (tree, .tick delta state) :: rest => do
    let status ← sys.tick stage tree delta state
    let later ← sys.serve stage rest
    return status :: later
  | (tree, .reset fire) :: rest => do
    sys.reset stage tree fire
    sys.serve stage rest

/-! ## How deep a tick may go -/

/-- How many calls deep a tick is, and a bound of how deep it may go. -/
structure Descent where
  depth : Nat
  limit : Nat

namespace Descent

variable {w : Descent} {c c' : Context σ}

def call (w : Descent) : Descent := { w with depth := w.depth + 1 }

/-- The calls that may be below, with the tick itself. -/
def levels (w : Descent) : Nat := w.limit + 1 - w.depth

/-- A tick is there. -/
structure Holds (w : Descent) (c : Context σ) : Prop where
  depth : c.depth = w.depth
  maxDepth : c.maxDepth ≤ w.limit
  inside : w.depth ≤ w.limit

/-- The start of a tick under these limits. -/
def start (limits : Limits) : Descent := ⟨0, limits.maxCallDepth.toNat⟩

/-- A bound for any context. -/
def ofContext (c : Context σ) : Descent := ⟨c.depth, max c.depth c.maxDepth⟩

theorem holds_ofContext (c : Context σ) : (ofContext c).Holds c := ⟨rfl, Nat.le_max_right .., Nat.le_max_left ..⟩

theorem Holds.levels_pos (h : w.Holds c) : 0 < w.levels := by
  have := h.inside
  unfold levels
  omega

theorem levels_call (w : Descent) : w.call.levels = w.levels - 1 := by
  show w.limit + 1 - (w.depth + 1) = w.limit + 1 - w.depth - 1
  omega

theorem Holds.enter (h : w.Holds c) {tree : String} (entered : c.enter tree = .ok c') : w.call.Holds c' := by
  have bound := Context.enter_bounded entered
  obtain ⟨stack, rfl⟩ := Behaviour.enter_ok entered
  refine ⟨congrArg (· + 1) h.depth, h.maxDepth, ?_⟩
  have := h.depth
  have := h.maxDepth
  show w.depth + 1 ≤ w.limit
  omega

theorem Holds.leave (h : w.call.Holds c) : w.Holds c.leave :=
  ⟨congrArg (· - 1) h.depth, h.maxDepth, Nat.le_of_succ_le h.inside⟩

end Descent

/-! ## What keeps up with trees -/

/-- An accord that callbacks keep up, and whole trees. -/
structure Concord (sys sys' : System μ σ) extends Accord (Store σ) μ μ σ where
  twins : sys.Twins sys'
  deeper : ∀ tree, (sys'.limitsOf tree).maxCallDepth.toNat ≤ (sys.limitsOf tree).maxCallDepth.toNat
  /-- What callbacks see of the context. -/
  see : Context σ → Context σ
  /-- How callbacks edit the layers of the board. -/
  may : Edit → Prop
  discreet : sys.Discreet see may
  memory : ∀ {i m m'}, rel i m m' → m.memory = m'.memory
  seen : ∀ {i m m'}, rel i m m' → see m.context = see m'.context
  overflow : ∀ {i m m'}, rel i m m' → m.context.overflow = m'.context.overflow
  store : ∀ {i m m'}, rel i m m' → m.runs.apart = m'.runs.apart
  withMemory : ∀ {i m m'} x, rel i m m' → rel i (m.withMemory x) (m'.withMemory x)
  clearOverflow : ∀ {i m m'}, rel i m m' →
    rel i (m.onContext ({ · with overflow := none })) (m'.onContext ({ · with overflow := none }))
  edited : ∀ {i m m' e} reach, may e → rel i m m' →
    rel i (m.onContext fun c => { c with layers := e.applyAt reach c.layers })
      (m'.onContext fun c => { c with layers := e.applyAt reach c.layers })
  setGlobal : ∀ {i m m'} t id x, rel i m m' →
    rel i (m.onContext fun c => { c with layers := c.layers.setGlobal t id x })
      (m'.onContext fun c => { c with layers := c.layers.setGlobal t id x })
  onStore : ∀ {i m m'} (f : Store σ → Store σ), (∀ s trees, f { s with trees } = { f s with trees }) →
    rel i m m' → rel i (m.onRuns f) (m'.onRuns f)
  noteOverflow : ∀ {i m m'} tree o, rel i m m' →
    rel i (m.onRuns (·.onProgress tree ({ · with overflow := o })))
      (m'.onRuns (·.onProgress tree ({ · with overflow := o })))
  /-- The calls that may be below, with the tick itself. -/
  levels : Index → Nat
  levels_pos : ∀ {i m m'}, rel i m m' → 0 < levels i
  levels_call : ∀ i, levels (call i) = levels i - 1
  levels_overlay : ∀ i, levels (overlay i) = levels i
  /-- Inside a tick that starts here. -/
  fresh : Index → TreeId → Index
  levels_fresh : ∀ i tree, levels (fresh i tree) ≤ (sys'.limitsOf tree).maxCallDepth.toNat + 1
  freshened : ∀ {i m m'} tree tick delta state, rel i m m' →
    rel (fresh i tree) (m.onContext fun c => sys.freshContext tree tick delta state c.layers)
      (m'.onContext fun c => sys'.freshContext tree tick delta state c.layers)
  /-- Contexts around ticks in accord, whatever their layers. -/
  around : Index → Context σ → Context σ → Prop
  surrounded : ∀ {i m m'}, rel i m m' → around i m.context m'.context
  returned : ∀ {i tree m m' c c'}, around i c c' → rel (fresh i tree) m m' →
    rel i (m.onContext fun d => { c with layers := d.layers }) (m'.onContext fun d => { c' with layers := d.layers })

namespace Concord

variable {sys sys' : System μ σ} (C : Concord sys sys') {i : C.Index}

open Accord (Paired)

/-- The hosts do alike to trees. -/
structure Hosts (host host' : Host (Store σ) μ σ) : Prop where
  tick : ∀ (k : C.Index) tree delta, C.Paired k k (host.tickTree tree delta) (host'.tickTree tree delta)
  reset : ∀ (k : C.Index) tree fire, C.Paired k k (host.resetTree tree fire) (host'.resetTree tree fire)

/-! ## The memory and the store -/

theorem consult (f : μ → α × μ) : C.Paired i i (Run.consult f : Run (Store σ) μ σ α) (Run.consult f) :=
  .step (fun m' => (f m'.memory).1) (fun m => m.withMemory (f m.memory).2) (fun m => m.withMemory (f m.memory).2)
    (fun m m' h => by rw [← C.memory h]; rfl) (fun _ => rfl) (fun _ => rfl)
    fun m m' h => by rw [C.memory h]; exact C.withMemory _ h

theorem remember (f : μ → μ) : C.Paired i i (Run.remember f : Run (Store σ) μ σ Unit) (Run.remember f) :=
  .step (fun _ => ()) (fun m => m.withMemory (f m.memory)) (fun m => m.withMemory (f m.memory)) (fun _ _ _ => rfl)
    (fun _ => rfl) (fun _ => rfl) fun m m' h => by rw [C.memory h]; exact C.withMemory _ h

theorem test {p : Predicate μ σ} (blind : ∀ c x, p c x = p (C.see c) x) :
    C.Paired i i (Run.test p : Run (Store σ) μ σ Bool) (Run.test p) := by
  have same : ∀ {i m m'}, C.rel i m m' → p m.context m.memory = p m'.context m'.memory := fun h => by
    rw [blind, C.seen h, C.memory h, ← blind]
  exact .step (fun m' => (p m'.context m'.memory).1) (fun m => m.withMemory (p m.context m.memory).2)
    (fun m => m.withMemory (p m.context m.memory).2) (fun m m' h => by rw [← same h]; rfl) (fun _ => rfl) (fun _ => rfl)
    fun m m' h => by rw [same h]; exact C.withMemory _ h

theorem modifyStore {f : Store σ → Store σ} (aside : ∀ s trees, f { s with trees } = { f s with trees }) :
    C.Paired i i (Stage.plain.modifyStore (μ := μ) f) (Stage.plain.modifyStore f) :=
  .step (fun _ => ()) (·.onRuns f) (·.onRuns f) (fun _ _ _ => rfl) (fun _ => rfl) (fun _ => rfl)
    fun _ _ h => C.onStore f aside h

theorem cells (site : Address) : C.Cells (Stage.plain.cell (μ := μ) (σ := σ) site) where
  get {_ m m'} d h := by
    show (Store.cell site).get m.runs.apart d = (Store.cell site).get m'.runs.apart d
    rw [C.store h]
  set _ _ h := C.onStore _ (fun _ _ => rfl) h
  reset _ h := C.onStore _ (fun _ _ => rfl) h

theorem chooser (site : Address) (policy : Policy μ) :
    (∀ count, C.Paired i i ((Stage.plain.chooser (σ := σ) site policy).pick count)
      ((Stage.plain.chooser site policy).pick count)) ∧
    ∀ n, C.Paired i i ((Stage.plain.chooser (σ := σ) site policy).complete n)
      ((Stage.plain.chooser site policy).complete n) := by
  cases policy with
  | custom pick complete => exact ⟨fun count => C.consult (pick count), fun n => C.remember (complete n)⟩
  | picker initial =>
    have same : ∀ {i m m'}, C.rel i m m' → m.runs.pickerAt site initial = m'.runs.pickerAt site initial :=
      fun h => congrArg (·.pickerAt site initial) (C.store h)
    have keeps : ∀ {i m m'} (f : Picker → Picker), C.rel i m m' →
        C.rel i (m.onRuns fun s => s.setPicker site (f (m.runs.pickerAt site initial)))
          (m'.onRuns fun s => s.setPicker site (f (m'.runs.pickerAt site initial))) := fun f h => by
      rw [same h]
      exact C.onStore _ (fun _ _ => rfl) h
    refine ⟨fun count => ?_, fun n => ?_⟩
    · exact .step (fun m' => ((m'.runs.pickerAt site initial).pick count).1) _ _
        (fun m m' h => by rw [← same h]; rfl) (fun _ => rfl) (fun _ => rfl)
        fun _ _ h => keeps (fun p => (p.pick count).2) h
    · exact .step (fun _ => ()) _ _ (fun _ _ _ => rfl) (fun _ => rfl) (fun _ => rfl) fun _ _ h => keeps (·.complete n) h

theorem stateFor (makeState : Option (StateMaker μ σ)) :
    C.Paired i i (Behaviour.stateFor (ρ := Store σ) makeState) (Behaviour.stateFor makeState) := by
  cases makeState with
  | none => exact .pure _
  | some make =>
    have made : ∀ caller, C.Paired i i (some <$> Run.consult (ρ := Store σ) (σ := σ) (make caller))
        (some <$> Run.consult (make caller)) := fun caller => by
      rw [map_eq_pure_bind]
      exact (C.consult (make caller)).bind fun _ => .pure _
    exact Paired.caller made

theorem callback {host host' : Host (Store σ) μ σ} (hosts : C.Hosts host host') {body : Callback μ σ α}
    (discreet : body.Discreet C.see C.may) : C.Paired i i (body.run host) (body.run host') := by
  induction body with
  | done => exact .pure _
  | look next ih =>
    have blind : ∀ host : Host (Store σ) μ σ, (Callback.look next).run host =
        fun m => (next (C.see m.context) m.memory).run host m := fun host =>
      funext fun m => by rw [← (discreet m.context m.memory).1]; rfl
    rw [blind, blind]
    have next_paired : ∀ seen : Context σ × μ, C.Paired i i ((next seen.1 seen.2).run host)
        ((next seen.1 seen.2).run host') :=
      fun seen => ih _ _ (discreet seen.1 seen.2).2
    exact .reading next_paired (r := fun m => (C.see m.context, m.memory))
      (s := fun m => (C.see m.context, m.memory)) fun _ _ h => by rw [C.seen h, C.memory h]
  | remember f next ih => exact (C.remember f).bind fun _ => ih discreet
  | edit reach e next ih =>
    exact (Paired.onContext fun _ _ h => C.edited reach discreet.1 h).bind fun _ => ih discreet.2
  | setGlobal t id x next ih => exact (Paired.onContext fun _ _ h => C.setGlobal t id x h).bind fun _ => ih discreet
  | requestReturn s next ih => exact (Paired.requestReturn s).bind fun _ => ih discreet
  | takeReturn next ih => exact Paired.takeReturn.bind fun s => ih s (discreet s)
  | takeOverflow next ih =>
    refine Paired.bind (.step (·.context.overflow) (·.onContext ({ · with overflow := none }))
      (·.onContext ({ · with overflow := none })) (fun m m' h => ?_) (fun _ => rfl) (fun _ => rfl)
      fun _ _ h => C.clearOverflow h) fun o => ih o (discreet o)
    rw [← C.overflow h]
    rfl
  | trace tag x y next ih => exact (Paired.trace tag x y).bind fun _ => ih discreet
  | tickTree tree delta next ih => exact (hosts.tick i tree delta).bind fun s => ih s (discreet s)
  | resetTree tree fire next ih => exact (hosts.reset i tree fire).bind fun _ => ih discreet

/-! ## Nodes with all that is below -/

/-- What the nodes of both systems find around them, with so many levels below. -/
structure LinksAgree (below : Nat) (links links' : Links (Store σ) μ σ) : Prop where
  cell : links.cell = (Stage.plain (μ := μ)).cell
  cell' : links'.cell = (Stage.plain (μ := μ)).cell
  chooser : links.chooser = Stage.plain.chooser
  chooser' : links'.chooser = Stage.plain.chooser
  watch : links.watch = Stage.plain.watch
  watch' : links'.watch = Stage.plain.watch
  host : C.Hosts links.host links'.host
  resolve : ∀ (k : C.Index) source, C.Paired k k (links.resolve source) (links'.resolve source)
  name : ∀ tree, (links.callee tree).name = (links'.callee tree).name
  callee : ∀ (k : C.Index) tree, C.levels k ≤ below → C.Goes k (links.callee tree).root (links'.callee tree).root

open Behaviour in
theorem node {below : Nat} {links links' : Links (Store σ) μ σ} (agree : C.LinksAgree below links links')
    (node : Node μ σ) : ∀ site, sys.nodeAt site = some node → ∀ i, C.levels i ≤ below + 1 →
    C.Goes i (node.behaviour links site) (node.behaviour links' site) := by
  intro site here
  induction here using System.nodeAt_upward with
  | step site node here inner =>
    intro i high
    have one : ∀ child : Node μ σ, node.children[0]? = some child →
        C.Goes i (child.behaviour links (0 :: site)) (child.behaviour links' (0 :: site)) :=
      fun child hc => inner 0 child hc i high
    have several : List.Forall₂ (C.Goes i) (Node.behaviours links site 0 node.children)
        (Node.behaviours links' site 0 node.children) := by
      have each : List.Forall₂ (C.Goes i) (Node.behaviours links site 0 (node.children.map id))
          (Node.behaviours links' site 0 (node.children.map id)) :=
        Node.behaviours_forall₂ node.children 0 fun n child hc => by
          rw [Nat.zero_add]
          exact inner n child hc i high
      rwa [List.map_id] at each
    have blind := C.discreet site node here
    rw [Node.behaviour.eq_def, Node.behaviour.eq_def, agree.watch, agree.watch', agree.cell, agree.cell']
    have unwatched : ∀ {b b' : Behaviour (Store σ) μ σ}, C.Goes i b b' →
        C.Goes i (Stage.plain.watch site b) (Stage.plain.watch site b') := fun goes => goes
    refine unwatched ?_
    have c := C.cells site
    cases node
    case action => exact ofTick_goes (C.callback agree.host blind)
    case custom body onReset => exact ⟨C.callback agree.host blind, fun _ _ _ => C.remember _⟩
    case condition => exact condition_goes c (C.test blind)
    case waitUntil => exact waitUntil_goes c (C.test blind)
    case wait => exact wait_goes c
    case pause => exact pause_goes c
    case earlyReturn => exact earlyReturn_goes
    case invert child => exact invert_goes c (one child rfl)
    case force child => exact force_goes c (one child rfl)
    case guard child => exact guard_goes c (C.test blind) (one child rfl)
    case repeatTimes child | retry child => exact iterate_goes c (one child rfl)
    case repeatUntil child => exact repeatUntil_goes c (one child rfl)
    case timeout child => exact timeout_goes c (one child rfl)
    case delay child => exact delay_goes c (one child rfl)
    case scope hooks child =>
      exact scope_goes c (C.callback agree.host blind) (fun _ _ => C.remember _) (one child rfl)
    case localScope child => exact localScope_goes c (inner 0 child rfl _ (C.levels_overlay i ▸ high))
    case sequence | selector => exact inOrder_goes c several
    case reactiveSequence | reactiveSelector => exact reactive_goes c several
    case parallel => exact parallel_goes c several
    case join => exact join_goes c several
    case race => exact race_goes c several
    case selectOne policy children =>
      rw [agree.chooser, agree.chooser']
      obtain ⟨picks, completes⟩ := C.chooser (i := i) site policy
      exact selectOne_goes c picks completes several
    case call source makeState =>
      have deeper : C.levels (C.call i) ≤ below := by rw [C.levels_call]; omega
      exact call_goes c (agree.resolve i source) (C.stateFor makeState) rfl agree.name fun tree =>
        agree.callee _ tree deeper

theorem rootOf {below : Nat} {links links' : Links (Store σ) μ σ} (agree : C.LinksAgree below links links')
    (tree : TreeId) (high : C.levels i ≤ below + 1) : C.Goes i (sys.rootOf links tree) (sys'.rootOf links' tree) := by
  unfold System.rootOf
  rcases C.twins.lookup tree with ⟨none, none'⟩ | ⟨t, t', here, here', -, root⟩
  · rw [none, none']
    exact ⟨.pure _, fun _ _ _ => .pure _⟩
  · rw [here, here']
    dsimp only
    rw [← root]
    exact C.node agree t.root [tree] (sys.nodeAt_root here) i high

theorem resolve (source : Source μ) : C.Paired i i (sys.resolve .plain source) (sys'.resolve .plain source) := by
  rcases source with (tree | tree) | provide
  · exact .pure _
  · refine .step (fun m' => if sys'.alive m'.runs tree then some tree else none) id id (fun m m' h => ?_) (fun _ => rfl)
      (fun _ => rfl) fun _ _ h => h
    have itself : sys'.Twins sys' := rfl
    have alike : sys'.alive m'.runs.apart tree = sys'.alive m'.runs tree := (itself.alive m'.runs tree).symm
    show EStateM.Result.ok (if sys.alive m.runs tree then some tree else none) m = _
    rw [C.twins.alive, C.store h, alike]
    rfl
  · exact C.consult provide

/-! ## Resets -/

theorem resetRoot (k : C.Index) (levels : Nat) (tree : TreeId) (d : Nat) (fire : Bool) :
    C.Paired k k (sys.resetRoot .plain levels tree d fire) (sys'.resetRoot .plain levels tree d fire) := by
  induction levels generalizing k tree d fire with
  | zero => exact .throw _
  | succ levels ih =>
    have agree : C.LinksAgree (C.levels k) (sys.resetLinks .plain (sys.resetRoot .plain levels))
        (sys'.resetLinks .plain (sys'.resetRoot .plain levels)) := {
      cell := rfl
      cell' := rfl
      chooser := rfl
      chooser' := rfl
      watch := rfl
      watch' := rfl
      host := ⟨fun _ _ _ => .throw _, fun _ _ _ => .throw _⟩
      resolve := fun _ _ => .throw _
      name := C.twins.nameOf
      callee := fun _ tree _ => ⟨.throw _, fun k d fire => ih k tree d fire⟩ }
    exact (C.rootOf agree tree (Nat.le_succ _)).reset k d fire

theorem resetAt (k : C.Index) (tree : TreeId) (d : Nat) (fire : Bool) :
    C.Paired k k (sys.resetAt .plain tree d fire) (sys'.resetAt .plain tree d fire) :=
  .reading (f := fun height => sys.resetRoot .plain (height - d + 1) tree d fire)
    (g := fun height => sys'.resetRoot .plain (height - d + 1) tree d fire) (r := (·.runs.height))
    (s := (·.runs.height)) (fun _ => C.resetRoot k _ tree d fire) fun _ _ h => congrArg (·.height) (C.store h)

/-! ## Ticks -/

/-- The end of a tick: the context around it is back, with the layers as they are then, and the first refused
call is noted. -/
def conclude (tree : TreeId) (outer : Context σ) (status : Status) : Run (Store σ) μ σ Status := fun m =>
  .ok status <| (m.onContext fun c => { outer with layers := c.layers }).onRuns
    (·.onProgress tree ({ · with overflow := m.context.overflow }))

theorem tickFresh_apply (sys : System μ σ) (host : Host (Store σ) μ σ) (tree : TreeId) (tick : UInt64) (delta : Float32)
    (state : Option σ) (m : Machine (Store σ) μ σ) :
    sys.tickFresh .plain host tree tick delta state m = (do
      Run.onContext fun c => sys.freshContext tree tick delta state c.layers
      let status ← sys.tickRoot .plain host ((sys.limitsOf tree).maxCallDepth.toNat + 1) tree
      conclude tree m.context status) m := rfl

section
variable {host host' : Host (Store σ) μ σ} (hosts : C.Hosts host host')
include hosts

/-- Both ticks have at least the levels that the index allows. -/
theorem tickRoot {k k' : Nat} (tree : TreeId) (high : C.levels i ≤ k') (more : k' ≤ k) :
    C.Paired i i (sys.tickRoot .plain host k tree) (sys'.tickRoot .plain host' k' tree) := by
  induction k' generalizing i k tree with
  | zero =>
    refine ⟨fun _ h => h, fun m m' h _ => ?_⟩
    exact absurd (C.levels_pos h) (by omega)
  | succ k' ih =>
    obtain ⟨k, rfl⟩ : ∃ n, k = n + 1 := ⟨k - 1, by omega⟩
    have agree : C.LinksAgree k' (sys.tickLinks .plain host (sys.tickRoot .plain host k))
        (sys'.tickLinks .plain host' (sys'.tickRoot .plain host' k')) := {
      cell := rfl
      cell' := rfl
      chooser := rfl
      chooser' := rfl
      watch := rfl
      watch' := rfl
      host := hosts
      resolve := fun _ => C.resolve
      name := C.twins.nameOf
      callee := fun _ tree low => ⟨ih tree low (by omega), fun k d fire => C.resetAt k tree d fire⟩ }
    refine (C.modifyStore fun _ _ => rfl).bind fun _ => (C.rootOf agree tree high).tick.bind fun _ => ?_
    exact (C.modifyStore fun _ _ => rfl).bind fun _ => .pure _

/-- The tick has a context of its own, and goes back to the one around it. -/
theorem tickFresh (tree : TreeId) (tick : UInt64) (delta : Float32) (state : Option σ) :
    C.Paired i i (sys.tickFresh .plain host tree tick delta state)
      (sys'.tickFresh .plain host' tree tick delta state) := by
  have depth : (sys'.limitsOf tree).maxCallDepth.toNat + 1 ≤ (sys.limitsOf tree).maxCallDepth.toNat + 1 :=
    Nat.succ_le_succ (C.deeper tree)
  have root : C.Paired (C.fresh i tree) (C.fresh i tree)
      (sys.tickRoot .plain host ((sys.limitsOf tree).maxCallDepth.toNat + 1) tree)
      (sys'.tickRoot .plain host' ((sys'.limitsOf tree).maxCallDepth.toNat + 1) tree) :=
    C.tickRoot hosts tree (C.levels_fresh i tree) depth
  have starts : C.Paired i (C.fresh i tree)
      (Run.onContext fun c => sys.freshContext tree tick delta state c.layers)
      (Run.onContext fun c => sys'.freshContext tree tick delta state c.layers) :=
    .step (fun _ => ()) _ _ (fun _ _ _ => rfl) (fun _ => rfl) (fun _ => rfl)
      fun _ _ h => C.freshened tree tick delta state h
  have ends : ∀ c c', C.around i c c' → ∀ status, C.Paired (C.fresh i tree) i (conclude tree c status)
      (conclude tree c' status) := by
    intro c c' around status
    refine .step (fun _ => status) _ _ (fun _ _ _ => rfl) (fun _ => rfl) (fun _ => rfl) fun m m' h => ?_
    rw [C.overflow h]
    exact C.noteOverflow tree _ (C.returned around h)
  have backs : ∀ c' status, C.Backs (conclude (μ := μ) tree c' status) := fun _ status =>
    .silent (x := fun _ => status) (fun _ => rfl) fun _ => rfl
  refine ⟨fun m' h => ?_, fun m m' h fine => ?_⟩
  · unfold Run.last at h
    rw [tickFresh_apply] at h
    exact starts.before.bind (fun _ => root.before.bind (backs m'.context)) m' h
  · unfold Run.last at fine
    rw [tickFresh_apply] at fine ⊢
    rw [tickFresh_apply]
    exact (starts.bind fun _ => root.bind (ends _ _ (C.surrounded h))).agree m m' h fine

end

/-- Top-level ticks are in accord if what they do in contexts of their own is. -/
def Begins : Prop := ∀ (host host' : Host (Store σ) μ σ) (tree : TreeId) (delta : Float32) (state : Option σ),
  (∀ (k : C.Index) tick, C.Paired k k (sys.tickFresh .plain host tree tick delta state)
    (sys'.tickFresh .plain host' tree tick delta state)) →
  ∀ i : C.Index, C.Paired i i (sys.tickWith .plain host tree delta state) (sys'.tickWith .plain host' tree delta state)

theorem tickAfter {host host' : Host (Store σ) μ σ} {tree : TreeId} {delta : Float32} {state : Option σ}
    (guarded : (sys.limitsOf tree).stackCapacity.isNone = (sys'.limitsOf tree).stackCapacity.isNone)
    (notes : ∀ f, C.Paired i i (Stage.plain.modifyStore (μ := μ) (·.onProgress tree f))
      (Stage.plain.modifyStore (·.onProgress tree f)))
    (fresh : ∀ tick, C.Paired i i (sys.tickFresh .plain host tree tick delta state)
      (sys'.tickFresh .plain host' tree tick delta state)) (before : Progress) :
    C.Paired i i (sys.tickAfter .plain before host tree delta state)
      (sys'.tickAfter .plain before host' tree delta state) := by
  unfold System.tickAfter
  rw [guarded, C.twins.nameOf tree]
  refine .ite (fresh _) (.ite ((Paired.report _).bind fun _ => .pure _) ?_)
  exact (notes _).bind fun _ => (fresh _).bind fun _ => (notes _).bind fun _ => .pure _

/-- So they are if the limits are the same, and the stores. -/
theorem begins_of_same (limits : ∀ tree, sys.limitsOf tree = sys'.limitsOf tree)
    (same : ∀ {i m m'}, C.rel i m m' → m.runs = m'.runs)
    (kept : ∀ {i m m'} (f : Store σ → Store σ), C.rel i m m' → C.rel i (m.onRuns f) (m'.onRuns f)) : C.Begins := by
  intro host host' tree delta state fresh i
  have notes : ∀ f, C.Paired i i (Stage.plain.modifyStore (μ := μ) (·.onProgress tree f))
      (Stage.plain.modifyStore (·.onProgress tree f)) := fun f =>
    .step (fun _ => ()) _ _ (fun _ _ _ => rfl) (fun _ => rfl) (fun _ => rfl) fun _ _ h => kept (·.onProgress tree f) h
  exact .reading (f := fun before : Progress => do
      Stage.plain.modifyStore (·.onProgress tree ({ · with ticks := before.ticks + 1 }))
      sys.tickAfter .plain before host tree delta state)
    (g := fun before : Progress => do
      Stage.plain.modifyStore (·.onProgress tree ({ · with ticks := before.ticks + 1 }))
      sys'.tickAfter .plain before host' tree delta state)
    (r := (·.runs.progress tree)) (s := (·.runs.progress tree))
    (fun before => (notes _).bind fun _ => C.tickAfter (by rw [limits]) notes (fresh i) before)
    fun _ _ h => congrArg (·.progress tree) (same h)

section
variable (begins : C.Begins)
include begins

theorem nestedHost (nesting : Nat) : C.Hosts (sys.nestedHost .plain nesting) (sys'.nestedHost .plain nesting) := by
  induction nesting with
  | zero => exact ⟨fun _ _ _ => .throw _, fun k tree fire => C.resetAt k tree 0 fire⟩
  | succ nesting ih =>
    exact ⟨fun k tree delta => begins _ _ tree delta none (fun _ tick => C.tickFresh ih tree tick delta none) k,
      fun k tree fire => C.resetAt k tree 0 fire⟩

theorem tick (tree : TreeId) (delta : Float32) (state : Option σ) :
    C.Paired i i (sys.tick .plain tree delta state) (sys'.tick .plain tree delta state) :=
  begins _ _ tree delta state
    (fun _ tick => C.tickFresh (C.nestedHost begins System.nestingBound) tree tick delta state) i

/-- Runs of any number of ticks and resets are in accord. -/
theorem serve (orders : List (TreeId × Use σ)) :
    C.Paired i i (sys.serve .plain orders) (sys'.serve .plain orders) := by
  induction orders with
  | nil => exact .pure _
  | cons order rest ih =>
    obtain ⟨tree, use⟩ := order
    cases use with
    | tick delta state => exact (C.tick begins tree delta state).bind fun _ => ih.bind fun _ => .pure _
    | reset fire => exact (C.resetAt i tree 0 fire).bind fun _ => ih

end

end Concord

end BehaviorTree
