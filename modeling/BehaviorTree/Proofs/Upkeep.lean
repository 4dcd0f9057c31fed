/-
  BehaviorTree.Proofs.Upkeep: what runs keep up.

  An upkeep is a property that machines have between two actions, with what faults may leave of
  it. It is enough that the primitive actions keep it up: `Yields` says that a run does, and what
  is then known of its answer, and there is one rule for each way that runs are put together. Of
  the context an upkeep looks at the layers, the depth and the state of the caller. It may look at
  what nodes remember: then a node that reads its slot knows that it is about a child of its own
  (`Owns`), and has to write such slots only (`Slot.Within`).
-/

import BehaviorTree.Proofs.Residue
import BehaviorTree.Proofs.Run

namespace BehaviorTree

variable {ρ μ σ α β : Type}

namespace Run

variable {post mid : α → Machine ρ μ σ → Prop} {fail : Fault → Machine ρ μ σ → Prop}

/-- What a run comes to: an answer and a machine, or a fault and the machine that it leaves. -/
inductive Ends (post : α → Machine ρ μ σ → Prop) (fail : Fault → Machine ρ μ σ → Prop) :
    EStateM.Result Fault (Machine ρ μ σ) α → Prop
  | ok {x : α} {n : Machine ρ μ σ} : post x n → Ends post fail (.ok x n)
  | error {e : Fault} {n : Machine ρ μ σ} : fail e n → Ends post fail (.error e n)

theorem Ends.mono {less : Fault → Machine ρ μ σ → Prop} {r : EStateM.Result Fault (Machine ρ μ σ) α}
    (h : Ends mid less r) (ok : ∀ x n, mid x n → post x n) (error : ∀ e n, less e n → fail e n) : Ends post fail r := by
  cases h with
  | ok h => exact .ok (ok _ _ h)
  | error h => exact .error (error _ _ h)

theorem Ends.bind {after : β → Machine ρ μ σ → Prop} {a : Run ρ μ σ α} {f : α → Run ρ μ σ β} {m : Machine ρ μ σ}
    (first : Ends mid fail (a m)) (rest : ∀ x n, mid x n → Ends after fail (f x n)) : Ends after fail ((a >>= f) m) := by
  show Ends after fail (EStateM.bind a f m)
  unfold EStateM.bind
  generalize a m = r at first
  cases first with
  | ok h => exact rest _ _ h
  | error h => exact .error h

end Run

/-- A property of the machines between two actions. -/
structure Upkeep (stage : Stage ρ μ σ) where
  holds : Machine ρ μ σ → Prop
  /-- What is left of it when a fault breaks a run off. -/
  breaks : Fault → Machine ρ μ σ → Prop
  passive : ∀ {m n}, holds m → n.runs = m.runs → n.context.layers = m.context.layers →
    n.context.depth = m.context.depth → n.context.state = m.context.state → holds n
  /-- Nothing is done to the slots and the pickers. -/
  aside : ∀ {f : Store σ → Store σ} {m}, holds m → (∀ s q, (f s).slot q = s.slot q) →
    (∀ s, (f s).pickers = s.pickers) → holds (m.onRuns (stage.onStore f))

/-- What the slot holds is about a node with so many children. -/
def Slot.Within (count : Nat) : Slot σ → Prop
  | child index => index < count
  | children states => states.length = count
  | _ => True

namespace Upkeep

variable {stage : Stage ρ μ σ} (U : Upkeep stage)

/-- The run keeps it up, and its answers are good. -/
def Yields (good : α → Prop) (a : Run ρ μ σ α) : Prop :=
  ∀ m, U.holds m → Run.Ends (fun x n => good x ∧ U.holds n) U.breaks (a m)

/-- The run keeps it up, whatever it answers. -/
def Keeps (a : Run ρ μ σ α) : Prop := U.Yields (fun _ => True) a

/-- The fault may break a run off anywhere. -/
def Allows (e : Fault) : Prop := ∀ m, U.holds m → U.breaks e m

/-- A node with so many children may look for this one: it is there, or the fault is allowed. -/
def Permits (count i : Nat) : Prop := i < count ∨ U.Allows (.noSuchChild count i)

/-- Resets of the behaviour keep it up, and so do its ticks when they are due. -/
structure Tends (ticking : Prop) (b : Behaviour ρ μ σ) : Prop where
  tick : ticking → U.Keeps b.tick
  reset : ∀ d fire, U.Keeps (b.reset d fire)

/-- The cell is that of a node with so many children. -/
structure Owns (cell : Cell ρ σ) (count : Nat) : Prop where
  reads : ∀ {m d i}, U.holds m → cell.get m.runs d = .child i → U.Permits count i
  set : ∀ {m d slot}, U.holds m → slot.Within count → U.holds (m.onRuns (cell.set · d slot))
  reset : ∀ {m d}, U.holds m → U.holds (m.onRuns (cell.reset · d))

/-- Events of these tags may go out. -/
def Tells (tags : List String) : Prop :=
  ∀ tag ∈ tags, ∀ x y, U.Keeps (Run.trace (ρ := ρ) (μ := μ) (σ := σ) tag x y)

/-- The layers do not matter. -/
def Layered : Prop := ∀ m l, U.holds m → U.holds { m with context := { m.context with layers := l } }

/-- Nothing of the context matters. -/
def Unbound : Prop := ∀ m c, U.holds m → U.holds { m with context := c }

variable {U} {good : α → Prop} {a : Run ρ μ σ α}

theorem Yields.keeps (h : U.Yields good a) : U.Keeps a :=
  fun m held => (h m held).mono (fun _ _ came => ⟨trivial, came.2⟩) fun _ _ => id

theorem Tends.mono {ticking due : Prop} {b : Behaviour ρ μ σ} (h : U.Tends ticking b) (only : due → ticking) :
    U.Tends due b := ⟨fun t => h.tick (only t), h.reset⟩

/-! ## Runs put together -/

theorem Yields.pure {x : α} (h : good x) : U.Yields good (Pure.pure x) := fun _ held => .ok ⟨h, held⟩

theorem Yields.throw {e : Fault} (allowed : U.Allows e) : U.Yields good (throw e : Run ρ μ σ α) :=
  fun m held => .error (allowed m held)

theorem Yields.bind {like : β → Prop} {f : α → Run ρ μ σ β} (first : U.Yields good a)
    (rest : ∀ x, good x → U.Yields like (f x)) : U.Yields like (a >>= f) :=
  fun m held => (first m held).bind fun x n came => rest x came.1 n came.2

theorem Yields.ite {c : Prop} [Decidable c] {a b : Run ρ μ σ α} (yes : c → U.Yields good a)
    (no : ¬ c → U.Yields good b) : U.Yields good (if c then a else b) := by
  split
  · exact yes ‹_›
  · exact no ‹_›

/-- What is read is as the property says. -/
theorem Yields.reading {f : Machine ρ μ σ → α} (h : ∀ m, U.holds m → good (f m)) :
    U.Yields good fun m => .ok (f m) m := fun m held => .ok ⟨h m held, held⟩

namespace Keeps

theorem pure (x : α) : U.Keeps (pure x) := Yields.pure trivial

theorem throw {e : Fault} (allowed : U.Allows e) : U.Keeps (throw e : Run ρ μ σ α) := Yields.throw allowed

theorem bind {f : α → Run ρ μ σ β} (first : U.Keeps a) (rest : ∀ x, U.Keeps (f x)) : U.Keeps (a >>= f) :=
  Yields.bind first fun x _ => rest x

theorem ite {c : Prop} [Decidable c] {a b : Run ρ μ σ α} (yes : U.Keeps a) (no : U.Keeps b) :
    U.Keeps (if c then a else b) := Yields.ite (fun _ => yes) fun _ => no

/-! ## Primitive actions -/

theorem reading {f : Machine ρ μ σ → α} : U.Keeps fun m => .ok (f m) m := Yields.reading fun _ _ => trivial

theorem report {d : Diagnostic} : U.Keeps (Run.report (ρ := ρ) (μ := μ) (σ := σ) d) :=
  fun _ held => .ok ⟨trivial, U.passive held rfl rfl rfl rfl⟩

theorem onContext {f : Context σ → Context σ} (layers : ∀ c, (f c).layers = c.layers)
    (depth : ∀ c, (f c).depth = c.depth) (state : ∀ c, (f c).state = c.state) :
    U.Keeps (Run.onContext (ρ := ρ) (μ := μ) f) :=
  fun _ held => .ok ⟨trivial, U.passive held rfl (layers _) (depth _) (state _)⟩

theorem requestReturn {s : Status} : U.Keeps (Run.requestReturn (ρ := ρ) (μ := μ) (σ := σ) s) :=
  onContext (fun _ => rfl) (fun _ => rfl) fun _ => rfl

theorem takeReturn : U.Keeps (Run.takeReturn (ρ := ρ) (μ := μ) (σ := σ)) :=
  fun _ held => .ok ⟨trivial, U.passive held rfl rfl rfl rfl⟩

theorem takeOverflow : U.Keeps (Run.takeOverflow (ρ := ρ) (μ := μ) (σ := σ)) :=
  fun _ held => .ok ⟨trivial, U.passive held rfl rfl rfl rfl⟩

theorem test {holds : Predicate μ σ} : U.Keeps (Run.test (ρ := ρ) holds) :=
  fun _ held => .ok ⟨trivial, U.passive held rfl rfl rfl rfl⟩

theorem consult {f : μ → α × μ} : U.Keeps (Run.consult (ρ := ρ) (σ := σ) f) :=
  fun _ held => .ok ⟨trivial, U.passive held rfl rfl rfl rfl⟩

theorem remember {f : μ → μ} : U.Keeps (Run.remember (ρ := ρ) (σ := σ) f) :=
  fun _ held => .ok ⟨trivial, U.passive held rfl rfl rfl rfl⟩

theorem modifyStore {f : Store σ → Store σ} (slots : ∀ s q, (f s).slot q = s.slot q)
    (pickers : ∀ s, (f s).pickers = s.pickers) : U.Keeps (stage.modifyStore f) :=
  fun _ held => .ok ⟨trivial, U.aside held slots pickers⟩

end Keeps

namespace Layered

variable (layered : U.Layered)
include layered

theorem onContext {f : Context σ → Layers} :
    U.Keeps (Run.onContext (ρ := ρ) (μ := μ) fun c => { c with layers := f c }) :=
  fun m held => .ok ⟨trivial, layered m _ held⟩

theorem trace (mismatch : ∀ id, U.Allows (.typeMismatch id)) {tag : String} {x y : UInt64} :
    U.Keeps (Run.trace (ρ := ρ) (μ := μ) (σ := σ) tag x y) := by
  intro m held
  have emitted := layered m { m.context.layers with
    root := (m.context.layers.root.emit { tick := m.context.tick, tag, a := x, b := y }).1 } held
  obtain ⟨_, _, ran⟩ | ⟨_, raised, ran⟩ := Run.trace_spec tag x y m <;> rw [ran]
  · exact .ok ⟨trivial, U.passive emitted rfl rfl rfl rfl⟩
  · obtain ⟨id, rfl⟩ := Board.emit_error raised
    exact .error (mismatch id _ emitted)

theorem tells (mismatch : ∀ id, U.Allows (.typeMismatch id)) (tags : List String) : U.Tells tags :=
  fun _ _ _ _ => layered.trace mismatch

end Layered

namespace Unbound

variable (unbound : U.Unbound)
include unbound

theorem layered : U.Layered := fun m _ held => unbound m _ held

theorem onContext {f : Context σ → Context σ} : U.Keeps (Run.onContext (ρ := ρ) (μ := μ) f) :=
  fun m held => .ok ⟨trivial, unbound m _ held⟩

theorem enter {name : String} : U.Keeps (Run.enter (ρ := ρ) (μ := μ) (σ := σ) name) := by
  intro m held
  unfold Run.enter
  split
  · exact .ok ⟨trivial, unbound m _ held⟩
  · exact .ok ⟨trivial, held⟩

theorem withState {state : Option σ} (work : U.Keeps a) : U.Keeps (Run.withState state a) :=
  Keeps.reading.bind fun _ => unbound.onContext.bind fun _ => work.bind fun _ => unbound.onContext.bind fun _ => .pure _

end Unbound

/-! ## Slots -/

namespace Owns

variable {cell : Cell ρ σ} {count d : Nat} (own : U.Owns cell count)
include own

/-- What a slot says about a child. -/
def Named (U : Upkeep stage) (count : Nat) (slot : Slot σ) : Prop :=
  ∀ i, slot = .child i → U.Permits count i

theorem read : U.Yields (Named U count) (cell.read d (μ := μ)) := .reading fun _ held _ => own.reads held

theorem take : U.Yields (Named U count) (cell.take d (μ := μ)) :=
  fun _ held => .ok ⟨fun _ => own.reads held, own.reset held⟩

theorem keep {slot : Slot σ} (within : slot.Within count) : U.Keeps (cell.keep d slot (μ := μ)) :=
  fun _ held => .ok ⟨trivial, own.set held within⟩

theorem forget : U.Keeps (cell.forget d (μ := μ)) := fun _ held => .ok ⟨trivial, own.reset held⟩

theorem note {st : Status} : U.Keeps (cell.note d st (μ := μ)) := by
  refine own.keep ?_
  split <;> trivial

end Owns

end Upkeep

end BehaviorTree
