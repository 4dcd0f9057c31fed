/-
  BehaviorTree.Proofs.ResetFrame: what a reset leaves alone.

  A reset is given a depth and a flag, and no context. What it does it does behind the scenes: to
  the run states, and to the memory through the hooks that are told of it (`Run.Offstage`). The
  context is the same afterwards, the board's layers and the call stack in it, and nothing has
  been put out (`reset_offstage`).
-/

import BehaviorTree.Proofs.Passage
import BehaviorTree.Proofs.Place

namespace BehaviorTree

variable {ρ μ σ α β : Type}

/-- The machines differ in the run states and the memory only. -/
structure Machine.Offstage (m m' : Machine ρ μ σ) : Prop where
  context : m'.context = m.context
  journal : m'.journal = m.journal
  heard : m'.heard = m.heard

/-- When the run ends, it has changed the run states and the memory only. -/
def Run.Offstage (a : Run ρ μ σ α) : Prop := ∀ m x m', a m = .ok x m' → m.Offstage m'

namespace Run.Offstage

theorem done {m m' : Machine ρ μ σ} {x y : α} (h : (EStateM.Result.ok x m : EStateM.Result Fault _ _) = .ok y m') :
    m.Offstage m' := by
  cases h
  exact ⟨rfl, rfl, rfl⟩

theorem pure (x : α) : (Pure.pure x : Run ρ μ σ α).Offstage := fun _ _ _ h => done h

theorem throw (e : Fault) : (throw e : Run ρ μ σ α).Offstage := fun _ _ _ h => nomatch h

theorem bind {a : Run ρ μ σ α} {f : α → Run ρ μ σ β} (first : a.Offstage) (rest : ∀ x, (f x).Offstage) :
    (a >>= f).Offstage := by
  intro m y m' h
  obtain ⟨x, m₁, ran, onwards⟩ := Run.bind_eq_ok.mp h
  have one := first m x m₁ ran
  have two := rest x m₁ y m' onwards
  exact ⟨two.context.trans one.context, two.journal.trans one.journal, two.heard.trans one.heard⟩

theorem ite {c : Prop} [Decidable c] {a b : Run ρ μ σ α} (yes : a.Offstage) (no : b.Offstage) :
    (if c then a else b).Offstage := by
  split
  · exact yes
  · exact no

theorem remember {f : μ → μ} : (Run.remember (ρ := ρ) (σ := σ) f).Offstage := by
  intro m x m' h
  cases h
  exact ⟨rfl, rfl, rfl⟩

section
variable {cell : Cell ρ σ} {d : Nat}

theorem read : (cell.read (μ := μ) d).Offstage := fun _ _ _ h => done h

theorem forget : (cell.forget (μ := μ) d).Offstage := by
  intro m x m' h
  cases h
  exact ⟨rfl, rfl, rfl⟩

theorem take : (cell.take (μ := μ) d).Offstage := by
  intro m x m' h
  cases h
  exact ⟨rfl, rfl, rfl⟩

end

end Run.Offstage

open Run.Offstage

/-! ## The resets of the nodes -/

/-- All resets of a behaviour are. -/
def Behaviour.ResetsOffstage (b : Behaviour ρ μ σ) : Prop := ∀ d fire, (b.reset d fire).Offstage

namespace Behaviour

variable {cell : Cell ρ σ} {child : Behaviour ρ μ σ} {children : List (Behaviour ρ μ σ)} {d : Nat} {fire : Bool}

section
variable (h : child.ResetsOffstage)
include h

theorem resetStarted_offstage : (cell.resetStarted child d fire).Offstage :=
  read.bind fun slot => by cases slot <;> first | exact forget.bind fun _ => h d fire | exact .pure ()

theorem resetIteration_offstage : (cell.resetIteration child d fire).Offstage :=
  take.bind fun slot => by
    cases slot
    case iterations count running =>
      cases running
      · exact .pure ()
      · exact h d fire
    all_goals exact .pure ()

theorem timeout_resets (duration : Duration) : (timeout cell duration child).ResetsOffstage := fun d fire =>
  take.bind fun slot => by cases slot <;> first | exact h d fire | exact .pure ()

theorem delay_resets (duration : Duration) : (delay cell duration child).ResetsOffstage := fun d fire =>
  take.bind fun slot => by cases slot <;> first | exact h d fire | exact .pure ()

theorem localScope_resets : (localScope cell child).ResetsOffstage := fun d fire =>
  take.bind fun slot => by cases slot <;> first | exact h d fire | exact .pure ()

theorem scope_resets (host : Host ρ μ σ) (hooks : Hooks μ σ) : (scope cell host hooks child).ResetsOffstage :=
  fun d fire => read.bind fun slot => by
    cases slot
    case started =>
      exact forget.bind fun _ => (h d fire).bind fun _ => .ite .remember (.pure ())
    all_goals exact .pure ()

end

section
variable (h : ∀ b ∈ children, b.ResetsOffstage)
include h

theorem resetChild_offstage : (cell.resetChild children d fire).Offstage :=
  take.bind fun slot => by
    cases slot
    case child index =>
      dsimp only
      cases hb : children[index]? with
      | none => exact .throw _
      | some b => exact h b (List.mem_of_getElem? hb) d fire
    all_goals exact .pure ()

theorem resetTracked_offstage : (resetTracked cell children d fire).Offstage :=
  take.bind fun slot => by
    cases slot
    case children states =>
      show (abort d fire (children.zip states)).Offstage
      induction children generalizing states with
      | nil => exact .pure ()
      | cons b bs ih =>
        cases states with
        | nil => exact .pure ()
        | cons state states =>
          have rest := ih (fun b hb => h b (List.mem_cons_of_mem _ hb)) states
          cases state
          case running => exact (h b (List.mem_cons_self ..) d fire).bind fun _ => rest
          all_goals exact rest
    all_goals exact .pure ()

end

theorem call_resets {resolve : Run ρ μ σ (Option TreeId)} {makeState : Option (StateMaker μ σ)}
    {callee : TreeId → Callee ρ μ σ} (h : ∀ tree, (callee tree).root.ResetsOffstage) :
    (call cell resolve makeState callee).ResetsOffstage := fun d fire =>
  take.bind fun slot => by
    cases slot
    case call tree state => exact h tree (d + 1) fire
    all_goals exact .pure ()

end Behaviour

/-! ## Trees -/

namespace System

variable {sys : System μ σ} {stage : Stage ρ μ σ}

/-- Every node resets offstage, if the trees that it calls do, and what happens around it is such. -/
theorem node_resets (links : Links ρ μ σ) (callee : ∀ tree, (links.callee tree).root.ResetsOffstage)
    (watch : ∀ site b, b.ResetsOffstage → (links.watch site b).ResetsOffstage) (node : Node μ σ) :
    ∀ site, (node.behaviour links site).ResetsOffstage := by
  induction node using Node.induction with
  | step node ih =>
  intro site
  have several : ∀ b ∈ Node.behaviours links site 0 node.children, b.ResetsOffstage :=
    Node.forall_behaviours fun i child hc => ih child (List.mem_of_getElem? hc) _
  rw [Node.behaviour.eq_def]
  refine watch site _ ?_
  cases node
  case action | earlyReturn => exact fun _ _ => .pure ()
  case custom => exact fun _ _ => .remember
  case condition | waitUntil | wait | pause => exact fun _ _ => .forget
  case invert child | force child | guard child | repeatUntil child =>
    exact fun _ _ => Behaviour.resetStarted_offstage (ih child (by simp [Node.children]) _)
  case repeatTimes child | retry child =>
    exact fun _ _ => Behaviour.resetIteration_offstage (ih child (by simp [Node.children]) _)
  case timeout child => exact Behaviour.timeout_resets (ih child (by simp [Node.children]) _) _
  case delay child => exact Behaviour.delay_resets (ih child (by simp [Node.children]) _) _
  case scope child => exact Behaviour.scope_resets (ih child (by simp [Node.children]) _) _ _
  case localScope child => exact Behaviour.localScope_resets (ih child (by simp [Node.children]) _)
  case sequence | selector | reactiveSequence | reactiveSelector | selectOne =>
    exact fun _ _ => Behaviour.resetChild_offstage several
  case parallel | join | race => exact fun _ _ => Behaviour.resetTracked_offstage several
  case call => exact Behaviour.call_resets callee

variable (watch : ∀ site b, b.ResetsOffstage → (stage.watch site b).ResetsOffstage)
include watch

theorem rootOf_resets (links : Links ρ μ σ) (callee : ∀ tree, (links.callee tree).root.ResetsOffstage)
    (same : links.watch = stage.watch) (tree : TreeId) : (sys.rootOf links tree).ResetsOffstage := by
  unfold rootOf
  split
  · exact node_resets links callee (by rwa [same]) _ _
  · exact fun _ _ => .pure ()

theorem resetRoot_offstage (levels : Nat) (tree : TreeId) (d : Nat) (fire : Bool) :
    (sys.resetRoot stage levels tree d fire).Offstage := by
  induction levels generalizing tree d fire with
  | zero => exact .throw _
  | succ levels ih =>
    exact rootOf_resets watch (sys.resetLinks stage (sys.resetRoot stage levels)) ih rfl tree d fire

/-- Abandoning the run of a tree leaves the context as it was, and puts nothing out. -/
theorem reset_offstage (tree : TreeId) (d : Nat) (fire : Bool) : (sys.resetAt stage tree d fire).Offstage :=
  fun m => resetRoot_offstage watch ((stage.store m.runs).height - d + 1) tree d fire m

/-- So does abandoning the run of a node. -/
theorem inTick_resets (host : Host ρ μ σ) (below : TreeId → Run ρ μ σ Status) (node : Node μ σ) (site : Address) :
    (node.behaviour (sys.tickLinks stage host below) site).ResetsOffstage :=
  node_resets (sys.tickLinks stage host below) (fun tree => reset_offstage watch tree) watch node site

end System

end BehaviorTree
