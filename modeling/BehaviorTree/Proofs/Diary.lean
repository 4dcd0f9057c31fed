/-
  BehaviorTree.Proofs.Diary: a run that writes down what its scopes are told.

  The memory of the callbacks gets a diary beside it, which no callback looks at. The hooks of
  scopes write down that they are called; what happens around the nodes writes down which
  place is at work, how its ticks end and when it is abandoned. All else is as before: a
  callback of the system with a diary does to its own memory what it did without.
-/

import BehaviorTree.Proofs.Copies
import BehaviorTree.Proofs.Place
import BehaviorTree.Proofs.Run

namespace BehaviorTree

variable {μ σ α : Type}

/-! ## Diaries -/

/-- What is written down of a place. -/
inductive Entry where
  /-- The hook for the start of a run is called. -/
  | entered
  /-- The hook for the end of a run is called. -/
  | exited (status : Status)
  /-- A tick ends. -/
  | answered (status : Status)
  /-- The place is being abandoned. -/
  | abandoned (fire : Bool)
  deriving DecidableEq

/-- A memory with a diary. -/
structure Diary (μ : Type) where
  own : μ
  /-- The place at work. -/
  here : Place
  entries : List (Place × Entry) := []

namespace Diary

/-- Writes something down about the place at work. -/
def write (x : Entry) (n : Diary μ) : Diary μ := { n with entries := n.entries ++ [(n.here, x)] }

/-- Changes the memory. -/
def onOwn (f : μ → μ) (n : Diary μ) : Diary μ := { n with own := f n.own }

/-- Uses the memory. -/
def use (f : μ → α × μ) (n : Diary μ) : α × Diary μ := ((f n.own).1, { n with own := (f n.own).2 })

/-- What was written down about a place. -/
def about (n : Diary μ) (p : Place) : List Entry := n.entries.filterMap fun (q, x) => if q = p then some x else none

theorem about_write (x : Entry) (n : Diary μ) (p : Place) :
    (n.write x).about p = n.about p ++ if n.here = p then [x] else [] := by
  simp only [about, write, List.filterMap_append, List.filterMap_cons, List.filterMap_nil]
  split <;> simp_all

end Diary

/-! ## Systems with a diary -/

/-- The callback, on the memory beside a diary. -/
def Callback.beside : Callback μ σ α → Callback (Diary μ) σ α
  | done result => done result
  | look next => look fun c n => (next c n.own).beside
  | remember f next => remember (Diary.onOwn f) next.beside
  | edit reach e next => edit reach e next.beside
  | setGlobal t id x next => setGlobal t id x next.beside
  | requestReturn s next => requestReturn s next.beside
  | takeReturn next => takeReturn fun s => (next s).beside
  | takeOverflow next => takeOverflow fun o => (next o).beside
  | trace tag a b next => trace tag a b next.beside
  | tickTree tree delta next => tickTree tree delta fun s => (next s).beside
  | resetTree tree fire next => resetTree tree fire next.beside

/-- Hooks that write down that they are called. -/
def Hooks.beside (hooks : Hooks μ σ) : Hooks (Diary μ) σ where
  onEnter := .remember (Diary.write .entered) hooks.onEnter.beside
  onExit status n := (n.write (.exited status)).onOwn (hooks.onExit status)

def Policy.beside : Policy μ → Policy (Diary μ)
  | picker initial => picker initial
  | custom pick complete => custom (fun count => Diary.use (pick count)) fun index => Diary.onOwn (complete index)

def Source.beside : Source μ → Source (Diary μ)
  | fixed handle => fixed handle
  | provided provide => provided (Diary.use provide)

namespace Node

mutual

/-- The node with a diary beside its memory. -/
def beside (node : Node μ σ) : Node (Diary μ) σ :=
  match node with
  | action body => action body.beside
  | custom body onReset => custom body.beside fun depth fire => Diary.onOwn (onReset depth fire)
  | condition holds every => condition (fun c => Diary.use (holds c)) every
  | waitUntil holds every => waitUntil (fun c => Diary.use (holds c)) every
  | wait duration => wait duration
  | pause => pause
  | earlyReturn verdict => earlyReturn verdict
  | invert child => invert child.beside
  | force verdict child => force verdict child.beside
  | guard holds child => guard (fun c => Diary.use (holds c)) child.beside
  | repeatTimes count child => repeatTimes count child.beside
  | repeatUntil target child => repeatUntil target child.beside
  | retry retries child => retry retries child.beside
  | timeout duration child => timeout duration child.beside
  | delay duration child => delay duration child.beside
  | scope hooks child => scope hooks.beside child.beside
  | localScope child => localScope child.beside
  | sequence children => sequence (besideAll children)
  | selector children => selector (besideAll children)
  | reactiveSequence children => reactiveSequence (besideAll children)
  | reactiveSelector children => reactiveSelector (besideAll children)
  | parallel policy children => parallel policy (besideAll children)
  | join policy children => join policy (besideAll children)
  | race children => race (besideAll children)
  | selectOne policy children => selectOne policy.beside (besideAll children)
  | call source makeState => call source.beside (makeState.map fun make s => Diary.use (make s))

/-- Siblings with a diary beside their memory. -/
def besideAll : List (Node μ σ) → List (Node (Diary μ) σ)
  | [] => []
  | child :: rest => child.beside :: besideAll rest

end

theorem besideAll_eq_map (nodes : List (Node μ σ)) : besideAll nodes = nodes.map beside := by
  induction nodes with
  | nil => rfl
  | cons node rest ih => rw [besideAll, ih, List.map_cons]

theorem children_beside (node : Node μ σ) : node.beside.children = node.children.map beside := by
  cases node <;> simp [beside, children, besideAll_eq_map]

end Node

def Tree.beside (tree : Tree μ σ) : Tree (Diary μ) σ := { tree with root := tree.root.beside }

namespace System

variable (sys : System μ σ)

/-- The system with a diary beside the memory of its callbacks. -/
def beside : System (Diary μ) σ := ⟨(sys.trees.toList.map Tree.beside).toArray⟩

theorem nodeAt_beside : ∀ site, sys.beside.nodeAt site = (sys.nodeAt site).map Node.beside
  | [] => rfl
  | [tree] => by simp [nodeAt, beside, Tree.beside, Function.comp_def]
  | i :: j :: site => by
    show (sys.beside.nodeAt (j :: site)).bind (·.children[i]?) =
      Option.map Node.beside ((sys.nodeAt (j :: site)).bind (·.children[i]?))
    rw [nodeAt_beside (j :: site)]
    cases sys.nodeAt (j :: site) with
    | none => rfl
    | some node => simp [Node.children_beside]

/-- A node of the system with a diary is one of the system. -/
theorem beside_nodeAt {sys : System μ σ} {site : Address} {node : Node (Diary μ) σ}
    (h : sys.beside.nodeAt site = some node) : ∃ plain, sys.nodeAt site = some plain ∧ plain.beside = node := by
  rw [nodeAt_beside] at h
  exact Option.map_eq_some_iff.mp h

end System

/-! ## What happens around the nodes -/

namespace Stage

/-- The run of a place: it is the one at work meanwhile. -/
def atWork (p : Place) (first : Diary μ → Diary μ) (a : Run (Store σ) (Diary μ) σ α)
    (last : α → Diary μ → Diary μ) : Run (Store σ) (Diary μ) σ α := do
  let outer ← Run.consult fun n => (n.here, first { n with here := p })
  let x ← a
  Run.remember fun n => { last x n with here := outer }
  return x

theorem atWork_apply (p : Place) (first : Diary μ → Diary μ) (a : Run (Store σ) (Diary μ) σ α)
    (last : α → Diary μ → Diary μ) (m : Machine (Store σ) (Diary μ) σ) :
    atWork p first a last m =
      match a (m.withMemory (first { m.memory with here := p })) with
      | .ok x m' => .ok x (m'.withMemory { last x m'.memory with here := m.memory.here })
      | .error e m' => .error e m' := by
  refine (Run.bind_ok (a := Run.consult fun n : Diary μ => (n.here, first { n with here := p })) (m := m) rfl).trans ?_
  show EStateM.bind a _ (m.withMemory (first { m.memory with here := p })) = _
  unfold EStateM.bind
  generalize a (m.withMemory (first { m.memory with here := p })) = r
  cases r <;> rfl

/-- Around each node is written down which place is at work, how its ticks end and when it is abandoned. -/
def diary : Stage (Store σ) (Diary μ) σ := { plain (μ := Diary μ) with
  watch := fun site b => {
    tick := do
      let depth ← Run.depth
      atWork ⟨site, depth⟩ id b.tick fun status => Diary.write (.answered status)
    reset := fun depth fire =>
      atWork ⟨site, depth⟩ (Diary.write (.abandoned fire)) (b.reset depth fire) fun _ => id } }

end Stage

end BehaviorTree
