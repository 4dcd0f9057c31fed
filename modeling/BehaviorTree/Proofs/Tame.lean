/-
  BehaviorTree.Proofs.Tame: callbacks that leave the run of the trees alone.

  A tame callback neither asks for an early return nor ticks or resets a tree. A tame
  system is built from the library's nodes only, with tame callbacks: there, requests to
  return early come from `earlyReturn` alone. Running a tame callback changes nothing that
  decides how the tick goes on, apart from the memory and the board (`Callback.Tame.stays`).
  A mild callback may ask for an early return besides (`Callback.Mild.stays`).
-/

import BehaviorTree.Proofs.Place
import BehaviorTree.Proofs.Run

namespace BehaviorTree

variable {ρ μ σ α : Type}

/-- The tick goes on from where it stood: apart from the board and the memory, only a pending request
may be gone, and one may be there if `asks`. -/
structure Machine.Stays (asks : Prop) (m m' : Machine ρ μ σ) : Prop where
  depth : m'.context.depth = m.context.depth
  maxDepth : m'.context.maxDepth = m.context.maxDepth
  stack : m'.context.stack = m.context.stack
  request : m'.context.returnRequest = m.context.returnRequest ∨ m'.context.returnRequest = none ∨ asks
  runs : m'.runs = m.runs

namespace Machine.Stays

variable {asks : Prop} {a b c : Machine ρ μ σ}

theorem refl (m : Machine ρ μ σ) : m.Stays asks m := ⟨rfl, rfl, rfl, .inl rfl, rfl⟩

theorem trans (h : a.Stays asks b) (k : b.Stays asks c) : a.Stays asks c where
  depth := k.depth.trans h.depth
  maxDepth := k.maxDepth.trans h.maxDepth
  stack := k.stack.trans h.stack
  request := by
    rcases k.request with k | k
    · exact h.request.imp k.trans (.imp_left k.trans)
    · exact .inr k
  runs := k.runs.trans h.runs

theorem of_alike (h : a.Alike b) : a.Stays asks b :=
  ⟨h.depth, h.maxDepth, h.stack, .inl h.request, h.runs⟩

theorem withMemory (m : Machine ρ μ σ) (x : μ) : m.Stays asks (m.withMemory x) := ⟨rfl, rfl, rfl, .inl rfl, rfl⟩

theorem cleared (m : Machine ρ μ σ) : m.Stays asks m.cleared := ⟨rfl, rfl, rfl, .inr (.inl rfl), rfl⟩

theorem calm (h : a.Stays False b) (calm : a.context.returnRequest = none) : b.context.returnRequest = none := by
  rcases h.request with h | h
  · exact h.trans calm
  · exact h.resolve_right id

end Machine.Stays

/-- Neither asks for an early return nor ticks or resets a tree. -/
def Callback.Tame : Callback μ σ α → Prop
  | done _ => True
  | look next => ∀ context memory, (next context memory).Tame
  | remember _ next | edit _ _ next | setGlobal _ _ _ next | trace _ _ _ next => next.Tame
  | takeReturn next => ∀ request, (next request).Tame
  | takeOverflow next => ∀ overflow, (next overflow).Tame
  | requestReturn _ _ | tickTree _ _ _ | resetTree _ _ _ => False

/-- Neither ticks nor resets a tree, and asks for an early return only if `asks`. -/
def Callback.Mild (asks : Prop) : Callback μ σ α → Prop
  | done _ => True
  | look next => ∀ context memory, (next context memory).Mild asks
  | remember _ next | edit _ _ next | setGlobal _ _ _ next | trace _ _ _ next => next.Mild asks
  | takeReturn next => ∀ request, (next request).Mild asks
  | takeOverflow next => ∀ overflow, (next overflow).Mild asks
  | requestReturn _ next => asks ∧ next.Mild asks
  | tickTree _ _ _ | resetTree _ _ _ => False

theorem Callback.Mild.stays {asks : Prop} {host : Host ρ μ σ} {body : Callback μ σ α} {x : α} {m m' : Machine ρ μ σ}
    (mild : body.Mild asks) (h : body.run host m = .ok x m') : m.Stays asks m' := by
  induction body generalizing m with
  | done => simp only [run, Run.pure_eq_ok] at h; exact h.2 ▸ .refl m
  | look next ih => exact ih _ _ (mild _ _) h
  | remember f next ih =>
    simp only [run, Run.bind_eq_ok, Run.remember_eq_ok] at h
    obtain ⟨_, _, rfl, h⟩ := h
    exact (Machine.Stays.withMemory m _).trans (ih mild h)
  | edit reach e next ih | setGlobal t id v next ih =>
    simp only [run, Run.bind_eq_ok, Run.onContext_eq_ok] at h
    obtain ⟨_, _, rfl, h⟩ := h
    refine .trans ?_ (ih mild h)
    exact ⟨rfl, rfl, rfl, .inl rfl, rfl⟩
  | takeReturn next ih =>
    simp only [run, Run.bind_eq_ok, Run.takeReturn_eq_ok] at h
    obtain ⟨_, _, ⟨-, rfl⟩, h⟩ := h
    exact (Machine.Stays.cleared m).trans (ih _ (mild _) h)
  | takeOverflow next ih =>
    simp only [run, Run.bind_eq_ok, Run.takeOverflow, EStateM.Result.ok.injEq] at h
    obtain ⟨_, _, ⟨-, rfl⟩, h⟩ := h
    refine .trans ?_ (ih _ (mild _) h)
    exact ⟨rfl, rfl, rfl, .inl rfl, rfl⟩
  | trace tag a b next ih =>
    simp only [run, Run.bind_eq_ok] at h
    obtain ⟨_, _, ht, h⟩ := h
    exact (Machine.Stays.of_alike (Run.trace_alike ht)).trans (ih mild h)
  | requestReturn s next ih =>
    simp only [run, Run.requestReturn, Run.bind_eq_ok, Run.onContext_eq_ok] at h
    obtain ⟨_, _, rfl, h⟩ := h
    refine .trans ?_ (ih mild.2 h)
    exact ⟨rfl, rfl, rfl, .inr (.inr mild.1), rfl⟩
  | tickTree | resetTree => exact absurd mild id

theorem Callback.Tame.mild {body : Callback μ σ α} (tame : body.Tame) : body.Mild False := by
  induction body with
  | done => trivial
  | look next ih => exact fun context memory => ih _ _ (tame _ _)
  | remember f next ih | edit reach e next ih | setGlobal t id v next ih | trace tag a b next ih => exact ih tame
  | takeReturn next ih | takeOverflow next ih => exact fun taken => ih _ (tame _)
  | requestReturn | tickTree | resetTree => exact absurd tame id

theorem Callback.Tame.stays {host : Host ρ μ σ} {body : Callback μ σ α} {x : α} {m m' : Machine ρ μ σ}
    (tame : body.Tame) (h : body.run host m = .ok x m') : m.Stays False m' := tame.mild.stays h

/-- A node of the library, with callbacks that leave the run of the trees alone. -/
def Node.Tame : Node μ σ → Prop
  | .action body => body.Tame
  | .scope hooks _ => hooks.onEnter.Tame
  | .custom _ _ => False
  | _ => True

/-- Every node is tame. -/
def System.Tame (sys : System μ σ) : Prop := ∀ site node, sys.nodeAt site = some node → node.Tame

/-- A node of the library, with mild callbacks. -/
def Node.Mild (asks : Prop) : Node μ σ → Prop
  | .action body => body.Mild asks
  | .scope hooks _ => hooks.onEnter.Mild asks
  | .custom _ _ => False
  | _ => True

/-- Every node is mild. -/
def System.Mild (sys : System μ σ) (asks : Prop) : Prop := ∀ site node, sys.nodeAt site = some node → node.Mild asks

theorem System.Tame.mild {sys : System μ σ} (tame : sys.Tame) : sys.Mild False := by
  intro site node hn
  have here := tame site node hn
  cases node with
  | action | scope => exact Callback.Tame.mild here
  | custom => exact absurd here id
  | _ => trivial

end BehaviorTree
