/-
  BehaviorTree.Proofs.Minutes: what a node does with what it is made of.

  The memory of the callbacks gets minutes beside it, which no callback looks at. The parts of a
  node take down what becomes of them: the predicate that is asked, the callback that is called at
  the start of a run, the tree that is looked up and the state made for it, the child that is picked
  and told to be done, and each tick of a child. What a child does in turn is none of this node's
  business and is not taken down, nor is what is broken off.

  Nothing depends on the minutes (`minuted_nodes`).
-/

import BehaviorTree.Proofs.Accord.Behaviours
import BehaviorTree.Proofs.Mirror.Trees
import BehaviorTree.Proofs.Rounds

namespace BehaviorTree

variable {ρ μ σ α β : Type}

/-- What a node does with one of its parts. -/
inductive Act (σ : Type) where
  | asked (answer : Bool)
  | entered
  | looked (tree : Option TreeId)
  | made (state : σ)
  | picked (child : Option Nat)
  | completed (child : Nat)
  /-- A child, or the tree of this number, is ticked, and the caller's state is this. -/
  | ticked (child : Nat) (state : Option σ) (answer : Status)
  deriving DecidableEq

/-- The act belongs to the start of a run. -/
def Act.starts : Act σ → Bool
  | asked _ | entered | looked _ | made _ | picked _ => true
  | completed _ | ticked .. => false

/-- A memory with minutes. -/
structure Minutes (μ σ : Type) where
  own : μ
  acts : List (Act σ) := []

namespace Minutes

/-- Takes an act down. -/
def add (act : Act σ) (n : Minutes μ σ) : Minutes μ σ := { n with acts := n.acts ++ [act] }

/-- Changes the memory. -/
def onOwn (f : μ → μ) (n : Minutes μ σ) : Minutes μ σ := { n with own := f n.own }

/-- Uses the memory, and takes down what comes of it. -/
def use (act : α → Act σ) (f : μ → α × μ) (n : Minutes μ σ) : α × Minutes μ σ :=
  ((f n.own).1, ⟨(f n.own).2, n.acts ++ [act (f n.own).1]⟩)

end Minutes

/-- The machine with these minutes beside its memory. -/
def Machine.with (m : Machine ρ μ σ) (acts : List (Act σ)) : Machine ρ (Minutes μ σ) σ :=
  ⟨m.context, ⟨m.memory, acts⟩, m.runs, m.journal, m.heard⟩

/-- Work that knows nothing of the minutes. -/
def Run.unminuted (work : Run ρ μ σ α) : Run ρ (Minutes μ σ) σ α := fun m =>
  match work (m.part Minutes.own) with
  | .ok x n => .ok x (n.with m.memory.acts)
  | .error e n => .error e (n.with m.memory.acts)

/-- Work that is taken down when it is over, together with the state of the caller. -/
def Run.minuted (act : Option σ → α → Act σ) (work : Run ρ μ σ α) : Run ρ (Minutes μ σ) σ α := do
  let state := (← Run.context).state
  let x ← work.unminuted
  Run.remember (Minutes.add (act state x))
  return x

/-! ## The parts of a node -/

/-- The child with this number. -/
def Behaviour.minuted (number : Nat) (child : Behaviour ρ μ σ) : Behaviour ρ (Minutes μ σ) σ where
  tick := child.tick.minuted (.ticked number)
  reset depth fire := (child.reset depth fire).unminuted

def Predicate.minuted (holds : Predicate μ σ) : Predicate (Minutes μ σ) σ := fun c => Minutes.use .asked (holds c)

def StateMaker.minuted (make : StateMaker μ σ) : StateMaker (Minutes μ σ) σ :=
  fun caller => Minutes.use .made (make caller)

/-- The callback, on the memory beside the minutes. -/
def Callback.minuted : Callback μ σ α → Callback (Minutes μ σ) σ α
  | done result => done result
  | look next => look fun c n => (next c n.own).minuted
  | remember f next => remember (Minutes.onOwn f) next.minuted
  | edit reach e next => edit reach e next.minuted
  | setGlobal t id x next => setGlobal t id x next.minuted
  | requestReturn s next => requestReturn s next.minuted
  | takeReturn next => takeReturn fun s => (next s).minuted
  | takeOverflow next => takeOverflow fun o => (next o).minuted
  | trace tag a b next => trace tag a b next.minuted
  | tickTree tree delta next => tickTree tree delta fun s => (next s).minuted
  | resetTree tree fire next => resetTree tree fire next.minuted

def Host.minuted (host : Host ρ μ σ) : Host ρ (Minutes μ σ) σ where
  tickTree tree delta := (host.tickTree tree delta).unminuted
  resetTree tree fire := (host.resetTree tree fire).unminuted

def Hooks.minuted (hooks : Hooks μ σ) : Hooks (Minutes μ σ) σ where
  onEnter := .remember (Minutes.add .entered) hooks.onEnter.minuted
  onExit status := Minutes.onOwn (hooks.onExit status)

def Chooser.minuted (chooser : Chooser ρ μ σ) : Chooser ρ (Minutes μ σ) σ where
  pick count := (chooser.pick count).minuted fun _ => .picked
  complete child := (chooser.complete child).minuted fun _ _ => .completed child

def Callee.minuted (tree : TreeId) (callee : Callee ρ μ σ) : Callee ρ (Minutes μ σ) σ :=
  ⟨callee.name, callee.root.minuted tree⟩

namespace Behaviour

/-- The guard, with minutes. -/
abbrev minutedGuard (cell : Cell ρ σ) (holds : Predicate μ σ) (child : Behaviour ρ μ σ) :
    Behaviour ρ (Minutes μ σ) σ :=
  guard cell holds.minuted (child.minuted 0)

/-- The scope, with minutes. -/
abbrev minutedScope (cell : Cell ρ σ) (host : Host ρ μ σ) (hooks : Hooks μ σ) (child : Behaviour ρ μ σ) :
    Behaviour ρ (Minutes μ σ) σ :=
  scope cell host.minuted hooks.minuted (child.minuted 0)

/-- The call, with minutes. -/
abbrev minutedCall (cell : Cell ρ σ) (resolve : Run ρ μ σ (Option TreeId)) (makeState : Option (StateMaker μ σ))
    (callee : TreeId → Callee ρ μ σ) : Behaviour ρ (Minutes μ σ) σ :=
  call cell (resolve.minuted fun _ => .looked) (makeState.map StateMaker.minuted) fun tree =>
    (callee tree).minuted tree

/-- The node that runs one child, with minutes. -/
abbrev minutedChoice (cell : Cell ρ σ) (chooser : Chooser ρ μ σ) (children : List (Behaviour ρ μ σ)) :
    Behaviour ρ (Minutes μ σ) σ :=
  selectOne cell chooser.minuted (children.mapIdx fun i child => child.minuted i)

end Behaviour

/-! ## Without the minutes -/

namespace Run

theorem unminuted_mirrors (work : Run ρ μ σ α) : Mirrors Minutes.own work work.unminuted := by
  intro m
  unfold unminuted
  cases work (m.part Minutes.own) <;> rfl

theorem minuted_apply (act : Option σ → α → Act σ) (work : Run ρ μ σ α) (m : Machine ρ (Minutes μ σ) σ) :
    work.minuted act m = match work (m.part Minutes.own) with
      | .ok x n => .ok x (n.with (m.memory.acts ++ [act m.context.state x]))
      | .error e n => .error e (n.with m.memory.acts) := by
  show EStateM.bind work.unminuted _ m = _
  unfold EStateM.bind unminuted
  cases work (m.part Minutes.own) <;> rfl

theorem minuted_mirrors (act : Option σ → α → Act σ) (work : Run ρ μ σ α) :
    Mirrors Minutes.own work (work.minuted act) := by
  intro m
  rw [minuted_apply]
  cases work (m.part Minutes.own) <;> rfl

theorem unminuted_bind (work : Run ρ μ σ α) (rest : α → Run ρ μ σ β) :
    (work >>= rest).unminuted = work.unminuted >>= fun x => (rest x).unminuted := by
  funext m
  show Run.unminuted (EStateM.bind work rest) m = EStateM.bind work.unminuted (fun x => (rest x).unminuted) m
  unfold EStateM.bind unminuted
  dsimp only
  cases work (m.part Minutes.own) <;> rfl

theorem unminuted_trace (tag : String) (a b : UInt64) :
    (Run.trace tag a b : Run ρ μ σ Unit).unminuted = Run.trace tag a b := by
  funext m
  unfold unminuted Run.trace Machine.part
  dsimp only
  generalize (m.context.layers.root.emit ⟨m.context.tick, tag, a, b⟩) = emission
  obtain ⟨root, outcome | outcome⟩ := emission
  · rfl
  · rcases outcome with _ | (e | e) <;> rfl

end Run

theorem Behaviour.minuted_mirrored (number : Nat) (child : Behaviour ρ μ σ) :
    Mirrored Minutes.own child (child.minuted number) :=
  ⟨Run.minuted_mirrors _ _, fun _ _ => Run.unminuted_mirrors _⟩

/-- The callback does not know of the minutes. -/
theorem Callback.run_minuted (host : Host ρ μ σ) (body : Callback μ σ α) :
    body.minuted.run host.minuted = (body.run host).unminuted := by
  induction body with
  | done => rfl
  | look next ih => exact funext fun m => congrFun (ih m.context m.memory.own) m
  | trace _ _ _ _ ih =>
    rw [run, Run.unminuted_bind, Run.unminuted_trace, ← ih]
    rfl
  | remember _ _ ih | edit _ _ _ ih | setGlobal _ _ _ _ ih | requestReturn _ _ ih | takeReturn _ ih
  | takeOverflow _ ih | tickTree _ _ _ ih | resetTree _ _ _ ih =>
    simp only [run, Run.unminuted_bind, ← ih]
    rfl

theorem StateMaker.minuted_mirrors (makeState : Option (StateMaker μ σ)) :
    Mirrors Minutes.own (Behaviour.stateFor (ρ := ρ) makeState)
      (Behaviour.stateFor (makeState.map StateMaker.minuted)) := by
  cases makeState with
  | none => exact .pure _
  | some make => exact Mirrors.context.bind fun c => Mirrors.bind (.consult fun _ => rfl) fun _ => .pure _

open Accord Behaviour in
/-- With minutes, the nodes do what they do without. -/
theorem minuted_nodes (cell : Cell ρ σ) :
    (∀ holds child, Mirrored Minutes.own (guard (μ := μ) cell holds child) (minutedGuard cell holds child)) ∧
      (∀ host hooks child, Mirrored Minutes.own (scope (μ := μ) cell host hooks child)
        (minutedScope cell host hooks child)) ∧
      (∀ resolve makeState callee, Mirrored Minutes.own (call (μ := μ) cell resolve makeState callee)
        (minutedCall cell resolve makeState callee)) ∧
      ∀ chooser children, Mirrored Minutes.own (selectOne (μ := μ) cell chooser children)
        (minutedChoice cell chooser children) := by
  have cells : (mirror ρ σ (Minutes.own (μ := μ) (σ := σ))).Cells cell := mirror_cells cell
  have paired {α : Type} {a : Run ρ μ σ α} {b : Run ρ (Minutes μ σ) σ α} (h : Mirrors Minutes.own a b) :
      (mirror ρ σ Minutes.own).Paired () () a b := paired_of_mirrors h () ()
  have below (number : Nat) (child : Behaviour ρ μ σ) :
      (mirror ρ σ Minutes.own).Goes () child (child.minuted number) :=
    goes_of_mirrored (child.minuted_mirrored number) ()
  refine ⟨fun holds child => ?_, fun host hooks child => ?_, fun resolve makeState callee => ?_,
    fun chooser children => ?_⟩
  · exact (guard_goes cells (paired (.test fun _ _ => rfl)) (below 0 child)).mirrored
  · have enters : Mirrors Minutes.own (hooks.onEnter.run host) (hooks.minuted.onEnter.run host.minuted) := by
      show Mirrors _ _ (do Run.remember (Minutes.add .entered); hooks.onEnter.minuted.run host.minuted)
      rw [Callback.run_minuted]
      exact Mirrors.beforehand (fun _ => rfl) (Run.unminuted_mirrors _)
    exact (scope_goes cells (paired enters) (fun _ _ => paired (.remember fun _ => rfl)) (below 0 child)).mirrored
  · have goes : (mirror ρ σ Minutes.own).Goes () (call cell resolve makeState callee)
        (minutedCall cell resolve makeState callee) :=
      call_goes cells (paired (Run.minuted_mirrors _ _)) (paired (StateMaker.minuted_mirrors makeState))
        Option.isSome_map.symm (fun _ => rfl) fun tree => below tree (callee tree).root
    exact goes.mirrored
  · have several : List.Forall₂ ((mirror ρ σ Minutes.own).Goes ()) children
        (children.mapIdx fun i child => child.minuted i) := by
      refine List.forall₂_iff_get.mpr ⟨List.length_mapIdx.symm, fun i _ _ => ?_⟩
      simpa using below i children[i]
    exact (selectOne_goes cells (fun count => paired (Run.minuted_mirrors (fun _ => .picked) (chooser.pick count)))
      (fun i => paired (Run.minuted_mirrors (fun _ _ => .completed i) (chooser.complete i))) several).mirrored

/-! ## Work that is taken down -/

/-- Work at depth `e` that leaves alone what a node remembers at depth `d`, and ends at the depth at which it
started. -/
def Run.Sidesteps (cell : Cell ρ σ) (d e : Nat) (work : Run ρ μ σ α) : Prop :=
  ∀ m x n, m.context.depth = e → work m = .ok x n → n.context.depth = e ∧ cell.get n.runs d = cell.get m.runs d

/-- Ticks and resets of the behaviour at depth `e` leave alone what a node remembers at depth `d`, and the ticks end at
the depth at which they started. -/
structure Behaviour.Avoids (cell : Cell ρ σ) (d e : Nat) (b : Behaviour ρ μ σ) : Prop where
  tick : b.tick.Sidesteps cell d e
  reset : ∀ fire m n, b.reset e fire m = .ok () n → cell.get n.runs d = cell.get m.runs d

/-- A tick at depth `e` is in progress, the node remembers this at depth `d`, and this has been taken down. -/
structure Minuted (cell : Cell ρ σ) (d : Nat) (slot : Slot σ) (acts : List (Act σ)) (e : Nat)
    (m : Machine ρ (Minutes μ σ) σ) : Prop where
  slot : cell.get m.runs d = slot
  acts : m.memory.acts = acts
  depth : m.context.depth = e

/-- What comes of work: it has ended so, or was broken off when this had been taken down. -/
inductive Concludes (post : α → Machine ρ (Minutes μ σ) σ → Prop) (broken : List (Act σ) → Prop) :
    EStateM.Result Fault (Machine ρ (Minutes μ σ) σ) α → Prop
  | ok {x : α} {m : Machine ρ (Minutes μ σ) σ} : post x m → Concludes post broken (.ok x m)
  | error {e : Fault} {m : Machine ρ (Minutes μ σ) σ} : broken m.memory.acts → Concludes post broken (.error e m)

namespace Concludes

variable {post post' : α → Machine ρ (Minutes μ σ) σ → Prop} {after : β → Machine ρ (Minutes μ σ) σ → Prop}
  {broken broken' : List (Act σ) → Prop} {m : Machine ρ (Minutes μ σ) σ}

theorem bind {a : Run ρ (Minutes μ σ) σ α} {f : α → Run ρ (Minutes μ σ) σ β} (first : Concludes post broken (a m))
    (rest : ∀ x n, post x n → Concludes after broken (f x n)) : Concludes after broken ((a >>= f) m) := by
  show Concludes after broken (EStateM.bind a f m)
  unfold EStateM.bind
  generalize a m = result at first
  cases first with
  | ok h => exact rest _ _ h
  | error known => exact .error known

theorem mono {result : EStateM.Result Fault (Machine ρ (Minutes μ σ) σ) α} (h : Concludes post broken result)
    (weaker : ∀ x n, post x n → post' x n) (known : ∀ acts, broken acts → broken' acts) :
    Concludes post' broken' result := by
  cases h with
  | ok h => exact .ok (weaker _ _ h)
  | error h => exact .error (known _ h)

theorem of_ok {result : EStateM.Result Fault (Machine ρ (Minutes μ σ) σ) α} {x : α} (h : Concludes post broken result)
    (ok : result = .ok x m) : post x m := by
  rw [ok] at h
  cases h with
  | ok h => exact h

end Concludes

theorem Run.trace_error {tag : String} {a b : UInt64} {e : Fault} {m n : Machine ρ μ σ}
    (h : Run.trace tag a b m = .error e n) : n.memory = m.memory := by
  obtain ⟨_, _, ran⟩ | ⟨_, -, ran⟩ := Run.trace_spec tag a b m
  all_goals cases ran.symm.trans h
  rfl

namespace Minuted

variable {cell : Cell ρ σ} {d e : Nat} {slot x : Slot σ} {acts : List (Act σ)} {m n : Machine ρ (Minutes μ σ) σ}
  {broken : List (Act σ) → Prop} (h : Minuted cell d slot acts e m)
include h

/-- What the node remembers, the minutes and the depth are as they were. -/
theorem same (runs : n.runs = m.runs) (memory : n.memory.acts = m.memory.acts)
    (depth : n.context.depth = m.context.depth) : Minuted cell d slot acts e n :=
  ⟨by rw [runs, h.slot], memory.trans h.acts, depth.trans h.depth⟩

theorem set (holds : cell.Holds d) : Minuted cell d x acts e (m.onRuns (cell.set · d x)) :=
  ⟨holds.set _ _, h.acts, h.depth⟩

theorem reset (holds : cell.Holds d) : Minuted cell d .idle acts e (m.onRuns (cell.reset · d)) :=
  ⟨holds.reset _, h.acts, h.depth⟩

theorem minuted (act : Option σ → α → Act σ) {work : Run ρ μ σ α} (sidesteps : work.Sidesteps cell d e)
    (known : broken acts) : Concludes (fun x n => Minuted cell d slot (acts ++ [act m.context.state x]) e n) broken
      (work.minuted act m) := by
  rw [Run.minuted_apply]
  cases ran : work (m.part Minutes.own) with
  | ok x n =>
    obtain ⟨depth, slot⟩ := sidesteps _ x n h.depth ran
    exact .ok ⟨slot.trans h.slot, congrArg (· ++ _) h.acts, depth⟩
  | error fault n => exact .error (h.acts.symm ▸ known)

theorem unminuted {work : Run ρ μ σ α} (sidesteps : work.Sidesteps cell d e) (known : broken acts) :
    Concludes (fun _ n => Minuted cell d slot acts e n) broken (work.unminuted m) := by
  unfold Run.unminuted
  cases ran : work (m.part Minutes.own) with
  | ok x n =>
    obtain ⟨depth, slot⟩ := sidesteps _ x n h.depth ran
    exact .ok ⟨slot.trans h.slot, h.acts, depth⟩
  | error fault n => exact .error (h.acts.symm ▸ known)

/-- Something else is reset. Resets have no depth of their own. -/
theorem resets {work : Run ρ μ σ Unit} (leaves : ∀ m n, work m = .ok () n → cell.get n.runs d = cell.get m.runs d)
    (known : broken acts) :
    Concludes (fun _ n => Minuted cell d slot acts n.context.depth n) broken (work.unminuted m) := by
  unfold Run.unminuted
  cases ran : work (m.part Minutes.own) with
  | ok x n => exact .ok ⟨(leaves _ n ran).trans h.slot, h.acts, rfl⟩
  | error fault n => exact .error (h.acts.symm ▸ known)

theorem traces {tag : String} {a b : UInt64} (known : broken acts) :
    Concludes (fun _ n => Minuted cell d slot acts e n) broken (Run.trace tag a b m) := by
  cases ran : Run.trace tag a b m with
  | ok u n =>
    have alike := Run.trace_alike ran
    exact .ok (h.same alike.runs (congrArg Minutes.acts alike.memory) alike.depth)
  | error fault n =>
    refine .error ?_
    rw [Run.trace_error ran, h.acts]
    exact known

end Minuted

end BehaviorTree
