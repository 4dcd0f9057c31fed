/-
  BehaviorTree.Proofs.Run: what a run that succeeds went through.

  A run is taken apart at its binds: it succeeded, so its first action did and the rest
  did from there. Each primitive action says what it answers and which machine it leaves.
-/

import Mathlib.Logic.Basic
import BehaviorTree.Machine

namespace BehaviorTree

variable {ρ μ σ α β : Type}

/-! ## Machines that differ in what no node looks at -/

/-- Where a tick stands: everything that decides how it goes on, apart from the board, the callers'
state and what is told to the outside. -/
structure Machine.Alike (m m' : Machine ρ μ σ) : Prop where
  depth : m'.context.depth = m.context.depth
  maxDepth : m'.context.maxDepth = m.context.maxDepth
  stack : m'.context.stack = m.context.stack
  request : m'.context.returnRequest = m.context.returnRequest
  memory : m'.memory = m.memory
  runs : m'.runs = m.runs

namespace Machine

/-- Changes the run states. -/
def onRuns (m : Machine ρ μ σ) (f : ρ → ρ) : Machine ρ μ σ := { m with runs := f m.runs }

/-- Puts another memory in place. -/
def withMemory (m : Machine ρ μ σ) (memory : μ) : Machine ρ μ σ := { m with memory }

/-- No request to return early is pending. -/
def cleared (m : Machine ρ μ σ) : Machine ρ μ σ :=
  { m with context := { m.context with returnRequest := none } }

@[simp] theorem onRuns_context (m : Machine ρ μ σ) (f : ρ → ρ) : (m.onRuns f).context = m.context := rfl
@[simp] theorem onRuns_memory (m : Machine ρ μ σ) (f : ρ → ρ) : (m.onRuns f).memory = m.memory := rfl
@[simp] theorem onRuns_runs (m : Machine ρ μ σ) (f : ρ → ρ) : (m.onRuns f).runs = f m.runs := rfl
@[simp] theorem withMemory_context (m : Machine ρ μ σ) (x : μ) : (m.withMemory x).context = m.context := rfl
@[simp] theorem withMemory_memory (m : Machine ρ μ σ) (x : μ) : (m.withMemory x).memory = x := rfl
@[simp] theorem withMemory_runs (m : Machine ρ μ σ) (x : μ) : (m.withMemory x).runs = m.runs := rfl
@[simp] theorem withMemory_self (m : Machine ρ μ σ) : m.withMemory m.memory = m := rfl

theorem cleared_of_none {m : Machine ρ μ σ} (h : m.context.returnRequest = none) : m.cleared = m := by
  obtain ⟨c, memory, runs, journal, heard⟩ := m
  obtain ⟨tick, delta, layers, state, stack, maxDepth, depth, request, overflow⟩ := c
  cases h
  rfl

theorem Alike.refl (m : Machine ρ μ σ) : m.Alike m := ⟨rfl, rfl, rfl, rfl, rfl, rfl⟩

theorem Alike.trans {a b c : Machine ρ μ σ} (h : a.Alike b) (k : b.Alike c) : a.Alike c :=
  ⟨k.depth.trans h.depth, k.maxDepth.trans h.maxDepth, k.stack.trans h.stack, k.request.trans h.request,
    k.memory.trans h.memory, k.runs.trans h.runs⟩

end Machine

/-! ## Runs that succeed -/

namespace Run

/-- The answer of a run that ends well. -/
def answer? (a : Run ρ μ σ α) (m : Machine ρ μ σ) : Option α :=
  match a m with
  | .ok x _ => some x
  | .error _ _ => none

theorem ok_of_answer {a : Run ρ μ σ α} {m : Machine ρ μ σ} {x : α} (h : a.answer? m = some x) :
    ∃ m', a m = .ok x m' := by
  unfold answer? at h
  split at h
  · cases h
    exact ⟨_, ‹_›⟩
  · cases h

theorem bind_eq_ok {a : Run ρ μ σ α} {f : α → Run ρ μ σ β} {m m' : Machine ρ μ σ} {y : β} :
    (a >>= f) m = .ok y m' ↔ ∃ x m₁, a m = .ok x m₁ ∧ f x m₁ = .ok y m' := by
  show EStateM.bind a f m = _ ↔ _
  unfold EStateM.bind
  cases a m with
  | ok x m₁ => exact ⟨fun h => ⟨x, m₁, rfl, h⟩, fun ⟨_, _, ha, h⟩ => by cases ha; exact h⟩
  | error e m₁ => simp

/-- A bind goes on from where its first action succeeded. -/
theorem bind_ok {a : Run ρ μ σ α} {f : α → Run ρ μ σ β} {m m₁ : Machine ρ μ σ} {x : α} (h : a m = .ok x m₁) :
    (a >>= f) m = f x m₁ := by
  show EStateM.bind a f m = _
  simp [EStateM.bind, h]

/-- A bind ends where its first action fails. -/
theorem bind_error {a : Run ρ μ σ α} {f : α → Run ρ μ σ β} {m m₁ : Machine ρ μ σ} {e : Fault}
    (h : a m = .error e m₁) : (a >>= f) m = .error e m₁ := by
  show EStateM.bind a f m = _
  simp [EStateM.bind, h]

theorem depth_bind {f : Nat → Run ρ μ σ α} {m : Machine ρ μ σ} : (depth >>= f) m = f m.context.depth m := rfl

theorem returning_bind {f : Bool → Run ρ μ σ α} {m : Machine ρ μ σ} :
    (returning >>= f) m = f m.context.returnRequest.isSome m := rfl

theorem delta_bind {f : Float32 → Run ρ μ σ α} {m : Machine ρ μ σ} : (delta >>= f) m = f m.context.delta m := rfl

theorem test_bind {p : Predicate μ σ} {f : Bool → Run ρ μ σ α} {m : Machine ρ μ σ} :
    (test p >>= f) m = f (p m.context m.memory).1 (m.withMemory (p m.context m.memory).2) := rfl

/-- A call that is admitted goes on one level deeper. -/
theorem enter_bind_ok {a : Option Overflow → Run ρ μ σ α} {name : String} {m : Machine ρ μ σ} {c : Context σ}
    (h : m.context.enter name = .ok c) : (enter name >>= a) m = a none { m with context := c } :=
  bind_ok (by rw [enter, h])

/-- A call that is refused leaves all as it was. -/
theorem enter_bind_error {a : Option Overflow → Run ρ μ σ α} {name : String} {m : Machine ρ μ σ} {o : Overflow}
    (h : m.context.enter name = .error o) : (enter name >>= a) m = a (some o) m :=
  bind_ok (by rw [enter, h])

@[simp] theorem pure_eq_ok {x y : α} {m m' : Machine ρ μ σ} :
    (pure x : Run ρ μ σ α) m = .ok y m' ↔ x = y ∧ m = m' := by
  show EStateM.Result.ok x m = _ ↔ _
  simp

@[simp] theorem throw_eq_ok {e : Fault} {y : α} {m m' : Machine ρ μ σ} :
    (throw e : Run ρ μ σ α) m = .ok y m' ↔ False := by
  show EStateM.Result.error e m = _ ↔ _
  simp

theorem ite_eq_ok {c : Prop} [Decidable c] {a b : Run ρ μ σ α} {y : α} {m m' : Machine ρ μ σ} :
    (if c then a else b) m = .ok y m' ↔ c ∧ a m = .ok y m' ∨ ¬ c ∧ b m = .ok y m' := by
  split <;> simp_all

theorem map_eq_ok {f : α → β} {a : Run ρ μ σ α} {m m' : Machine ρ μ σ} {y : β} :
    (f <$> a) m = .ok y m' ↔ ∃ x, a m = .ok x m' ∧ f x = y := by
  show EStateM.map f a m = _ ↔ _
  unfold EStateM.map
  cases a m with
  | ok x m₁ => exact ⟨fun h => by cases h; exact ⟨x, rfl, rfl⟩, fun ⟨_, ha, h⟩ => by cases ha; subst h; rfl⟩
  | error e m₁ => simp

@[simp] theorem context_eq_ok {m m' : Machine ρ μ σ} {c : Context σ} :
    Run.context m = .ok c m' ↔ m.context = c ∧ m = m' := by
  simp [Run.context]

@[simp] theorem onContext_eq_ok {f : Context σ → Context σ} {u : Unit} {m m' : Machine ρ μ σ} :
    Run.onContext f m = .ok u m' ↔ { m with context := f m.context } = m' := by
  simp [Run.onContext]

@[simp] theorem depth_eq_ok {m m' : Machine ρ μ σ} {d : Nat} :
    Run.depth m = .ok d m' ↔ m.context.depth = d ∧ m = m' := by
  simp [Run.depth]

@[simp] theorem delta_eq_ok {m m' : Machine ρ μ σ} {t : Float32} :
    Run.delta m = .ok t m' ↔ m.context.delta = t ∧ m = m' := by
  simp [Run.delta]

@[simp] theorem get_eq_ok {m m' n : Machine ρ μ σ} :
    (get : Run ρ μ σ (Machine ρ μ σ)) m = .ok n m' ↔ m = n ∧ m = m' := by
  show EStateM.Result.ok m m = _ ↔ _
  simp

@[simp] theorem returning_eq_ok {m m' : Machine ρ μ σ} {b : Bool} :
    Run.returning m = .ok b m' ↔ m.context.returnRequest.isSome = b ∧ m = m' := by
  simp [Run.returning]

@[simp] theorem takeReturn_eq_ok {m m' : Machine ρ μ σ} {r : Option Status} :
    Run.takeReturn m = .ok r m' ↔ m.context.returnRequest = r ∧ m.cleared = m' := by
  simp [Run.takeReturn, Machine.cleared]

@[simp] theorem consult_eq_ok {f : μ → α × μ} {x : α} {m m' : Machine ρ μ σ} :
    Run.consult f m = .ok x m' ↔ (f m.memory).1 = x ∧ m.withMemory (f m.memory).2 = m' := by
  simp [Run.consult, Machine.withMemory]

@[simp] theorem remember_eq_ok {f : μ → μ} {u : Unit} {m m' : Machine ρ μ σ} :
    Run.remember f m = .ok u m' ↔ m.withMemory (f m.memory) = m' := by
  simp [Run.remember, Machine.withMemory]

@[simp] theorem test_eq_ok {p : Predicate μ σ} {b : Bool} {m m' : Machine ρ μ σ} :
    Run.test p m = .ok b m' ↔ (p m.context m.memory).1 = b ∧
      m.withMemory (p m.context m.memory).2 = m' := by
  simp [Run.test, Machine.withMemory]

@[simp] theorem report_eq_ok {d : Diagnostic} {u : Unit} {m m' : Machine ρ μ σ} :
    Run.report d m = .ok u m' ↔ { m with journal := m.journal.push d } = m' := by
  simp [Run.report]

end Run

theorem Run.report_alike {d : Diagnostic} {u : Unit} {m m' : Machine ρ μ σ}
    (h : Run.report d m = .ok u m') : m.Alike m' := by
  simp only [Run.report, EStateM.Result.ok.injEq, true_and] at h
  subst h
  exact ⟨rfl, rfl, rfl, rfl, rfl, rfl⟩

/-- The board has seen the event. -/
def Machine.emitted (m : Machine ρ μ σ) (e : TraceEvent) : Machine ρ μ σ :=
  { m with context := { m.context with layers := { m.context.layers with root := (m.context.layers.root.emit e).1 } } }

/-- All that a trace can do: the board sees the event, and something may go out, or what stands in the event's place ends
the run. -/
theorem Run.trace_spec (tag : String) (a b : UInt64) (m : Machine ρ μ σ) :
    (∃ journal heard, Run.trace tag a b m = .ok () { m.emitted ⟨m.context.tick, tag, a, b⟩ with journal, heard }) ∨
      ∃ fault, (m.context.layers.root.emit ⟨m.context.tick, tag, a, b⟩).2 = .error fault ∧
        Run.trace tag a b m = .error fault (m.emitted ⟨m.context.tick, tag, a, b⟩) := by
  unfold Run.trace Machine.emitted
  generalize m.context.layers.root.emit ⟨m.context.tick, tag, a, b⟩ = r
  obtain ⟨root, fault | delivery⟩ := r
  · exact .inr ⟨fault, rfl, rfl⟩
  · refine .inl ?_
    rcases delivery with _ | (e | e)
    all_goals exact ⟨_, _, rfl⟩

theorem Run.trace_ok {tag : String} {a b : UInt64} {u : Unit} {m m' : Machine ρ μ σ}
    (h : Run.trace tag a b m = .ok u m') :
    ∃ journal heard, m' = { m.emitted ⟨m.context.tick, tag, a, b⟩ with journal, heard } := by
  obtain ⟨journal, heard, ran⟩ | ⟨fault, -, ran⟩ := Run.trace_spec tag a b m
  · cases ran.symm.trans h
    exact ⟨journal, heard, rfl⟩
  · cases ran.symm.trans h

theorem Run.trace_alike {tag : String} {a b : UInt64} {u : Unit} {m m' : Machine ρ μ σ}
    (h : Run.trace tag a b m = .ok u m') : m.Alike m' := by
  obtain ⟨_, _, rfl⟩ := Run.trace_ok h
  exact ⟨rfl, rfl, rfl, rfl, rfl, rfl⟩

namespace Cell

variable {cell : Cell ρ σ}

@[simp] theorem read_eq_ok {d : Nat} {slot : Slot σ} {m m' : Machine ρ μ σ} :
    cell.read d m = .ok slot m' ↔ cell.get m.runs d = slot ∧ m = m' := by
  simp [Cell.read]

@[simp] theorem keep_eq_ok {d : Nat} {slot : Slot σ} {u : Unit} {m m' : Machine ρ μ σ} :
    cell.keep d slot m = .ok u m' ↔ m.onRuns (cell.set · d slot) = m' := by
  simp [Cell.keep, Machine.onRuns]

@[simp] theorem forget_eq_ok {d : Nat} {u : Unit} {m m' : Machine ρ μ σ} :
    cell.forget d m = .ok u m' ↔ m.onRuns (cell.reset · d) = m' := by
  simp [Cell.forget, Machine.onRuns]

@[simp] theorem take_eq_ok {d : Nat} {slot : Slot σ} {m m' : Machine ρ μ σ} :
    cell.take d m = .ok slot m' ↔
      cell.get m.runs d = slot ∧ m.onRuns (cell.reset · d) = m' := by
  simp [Cell.take, Machine.onRuns]

theorem read_bind {d : Nat} {f : Slot σ → Run ρ μ σ α} {m : Machine ρ μ σ} :
    (cell.read d >>= f) m = f (cell.get m.runs d) m := rfl

theorem take_bind {d : Nat} {f : Slot σ → Run ρ μ σ α} {m : Machine ρ μ σ} :
    (cell.take d >>= f) m = f (cell.get m.runs d) (m.onRuns (cell.reset · d)) := rfl

end Cell

end BehaviorTree
