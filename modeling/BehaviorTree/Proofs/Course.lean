/-
  BehaviorTree.Proofs.Course: what holds between the machines before and after a run.

  A course relates a machine to those that runs lead to from it, and to those that faults leave
  of them. It is enough that the primitive actions keep to it: `Leads` says that a run does, and
  there is one rule for each way that runs are put together. Of the context a course looks at
  the layers and the depth. So it does not notice when a run has another context over the same
  layers, be it in a call or in a tick that a callback starts (`lent`).
-/

import BehaviorTree.Proofs.Residue
import BehaviorTree.Proofs.Run

namespace BehaviorTree

variable {ρ μ σ α β : Type}

/-- A relation between the machines before and after a run. -/
structure Course (stage : Stage ρ μ σ) where
  /-- The run has ended. -/
  goes : Machine ρ μ σ → Machine ρ μ σ → Prop
  /-- A fault has broken the run off. -/
  breaks : Machine ρ μ σ → Machine ρ μ σ → Prop
  refl : ∀ m, goes m m
  trans : ∀ {m n k}, goes m n → goes n k → goes m k
  broken : ∀ m, breaks m m
  further : ∀ {m n k}, goes m n → breaks n k → breaks m k
  depth : ∀ {m n}, goes m n → n.context.depth = m.context.depth
  passive : ∀ {m n}, n.runs = m.runs → n.context.layers = m.context.layers → n.context.depth = m.context.depth →
    goes m n
  /-- Nothing is done to the slots. -/
  aside : ∀ {f : Store σ → Store σ} m, (∀ s q, (f s).slot q = s.slot q) → goes m (m.onRuns (stage.onStore f))
  /-- Another context over the same layers is in place meanwhile. -/
  lent : ∀ {m n c c'}, c.layers = m.context.layers → goes { m with context := c } n →
    c'.layers = n.context.layers → c'.depth = m.context.depth → goes m { n with context := c' }
  lost : ∀ {m n c}, breaks { m with context := c } n → breaks m n

namespace Course

variable {stage : Stage ρ μ σ} (C : Course stage)

/-- What a run from the machine has come to. -/
inductive Came (m : Machine ρ μ σ) : EStateM.Result Fault (Machine ρ μ σ) α → Prop
  | ok {x : α} {n : Machine ρ μ σ} : C.goes m n → Came m (.ok x n)
  | error {e : Fault} {n : Machine ρ μ σ} : C.breaks m n → Came m (.error e n)

/-- The run keeps to the course. -/
def Leads (a : Run ρ μ σ α) : Prop := ∀ m, C.Came m (a m)

/-- Ticks and resets of the behaviour keep to the course. -/
structure Carries (b : Behaviour ρ μ σ) : Prop where
  tick : C.Leads b.tick
  reset : ∀ d fire, C.Leads (b.reset d fire)

/-- The cell may be written. -/
structure Writes (cell : Cell ρ σ) : Prop where
  set : ∀ m d slot, C.goes m (m.onRuns (cell.set · d slot))
  reset : ∀ m d, C.goes m (m.onRuns (cell.reset · d))

/-- Events of these tags may go out. -/
def Tells (tags : List String) : Prop :=
  ∀ tag ∈ tags, ∀ x y, C.Leads (Run.trace (ρ := ρ) (μ := μ) (σ := σ) tag x y)

variable {C} {m n : Machine ρ μ σ}

theorem Came.after {r : EStateM.Result Fault (Machine ρ μ σ) α} (first : C.goes m n) (h : C.Came n r) : C.Came m r := by
  cases h with
  | ok goes => exact .ok (C.trans first goes)
  | error breaks => exact .error (C.further first breaks)

namespace Leads

variable {a : Run ρ μ σ α}

/-! ## Runs put together -/

theorem pure (x : α) : C.Leads (pure x) := fun m => .ok (C.refl m)

theorem throw (e : Fault) : C.Leads (throw e : Run ρ μ σ α) := fun m => .error (C.broken m)

theorem bind {f : α → Run ρ μ σ β} (first : C.Leads a) (rest : ∀ x, C.Leads (f x)) : C.Leads (a >>= f) := by
  intro m
  have came := first m
  show C.Came m (EStateM.bind a f m)
  unfold EStateM.bind
  generalize a m = r at came
  cases came with
  | ok goes => exact (rest _ _).after goes
  | error breaks => exact .error breaks

theorem ite {c : Prop} [Decidable c] {a b : Run ρ μ σ α} (yes : C.Leads a) (no : C.Leads b) :
    C.Leads (if c then a else b) := by
  split
  · exact yes
  · exact no

/-! ## Primitive actions -/

theorem reading {f : Machine ρ μ σ → α} : C.Leads fun m => .ok (f m) m := fun m => .ok (C.refl m)

theorem report {d : Diagnostic} : C.Leads (Run.report (ρ := ρ) (μ := μ) (σ := σ) d) :=
  fun _ => .ok (C.passive rfl rfl rfl)

theorem onContext {f : Context σ → Context σ} (layers : ∀ c, (f c).layers = c.layers)
    (depth : ∀ c, (f c).depth = c.depth) : C.Leads (Run.onContext (ρ := ρ) (μ := μ) f) :=
  fun _ => .ok (C.passive rfl (layers _) (depth _))

theorem requestReturn {s : Status} : C.Leads (Run.requestReturn (ρ := ρ) (μ := μ) (σ := σ) s) :=
  onContext (fun _ => rfl) fun _ => rfl

theorem takeReturn : C.Leads (Run.takeReturn (ρ := ρ) (μ := μ) (σ := σ)) := fun _ => .ok (C.passive rfl rfl rfl)

theorem takeOverflow : C.Leads (Run.takeOverflow (ρ := ρ) (μ := μ) (σ := σ)) := fun _ => .ok (C.passive rfl rfl rfl)

theorem consult {f : μ → α × μ} : C.Leads (Run.consult (ρ := ρ) (σ := σ) f) := fun _ => .ok (C.passive rfl rfl rfl)

theorem remember {f : μ → μ} : C.Leads (Run.remember (ρ := ρ) (σ := σ) f) := fun _ => .ok (C.passive rfl rfl rfl)

/-- Something is changed in the store beside the slots. -/
theorem store {f : Machine ρ μ σ → α} {g : Machine ρ μ σ → Store σ → Store σ}
    (slots : ∀ m s q, (g m s).slot q = s.slot q) : C.Leads fun m => .ok (f m) (m.onRuns (stage.onStore (g m))) :=
  fun m => .ok (C.aside m (slots m))

theorem modifyStore {f : Store σ → Store σ} (slots : ∀ s q, (f s).slot q = s.slot q) :
    C.Leads (stage.modifyStore f) := store fun _ => slots

/-! ## Other contexts -/

/-- A run in another context over the same layers, which the layers that it leaves are taken out of. -/
theorem lent {f : α → Run ρ μ σ β} {c : Context σ} (work : C.Leads a) (layers : c.layers = m.context.layers)
    (rest : ∀ x n, C.goes { m with context := c } n → ∃ c', c'.layers = n.context.layers ∧ c'.depth = m.context.depth ∧
      C.Came { n with context := c' } (f x n)) : C.Came m ((a >>= f) { m with context := c }) := by
  have came := work { m with context := c }
  show C.Came m (EStateM.bind a f _)
  unfold EStateM.bind
  generalize a { m with context := c } = r at came
  cases came with
  | error breaks => exact .error (C.lost breaks)
  | @ok x n goes =>
    obtain ⟨c', layers', depth, later⟩ := rest x n goes
    exact later.after (C.lent layers goes layers' depth)

theorem withState (state : Option σ) (work : C.Leads a) : C.Leads (Run.withState state a) := by
  intro m
  show C.Came m ((a >>= _) { m with context := { m.context with state } })
  exact lent work rfl fun x n goes => ⟨{ n.context with state := m.context.state }, rfl, (C.depth goes :),
    .ok (C.refl _)⟩

end Leads

namespace Writes

variable {cell : Cell ρ σ} (own : C.Writes cell) {d : Nat}
include own

theorem forget : C.Leads (cell.forget d (μ := μ)) := fun m => .ok (own.reset m d)

theorem take : C.Leads (cell.take d (μ := μ)) := fun m => .ok (own.reset m d)

end Writes

end Course

end BehaviorTree
