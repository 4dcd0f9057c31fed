/-
  BehaviorTree.Proofs.Lockstep.Calls: calls, in lockstep.

  The tree that a call looks up may have another number in the other run. It has the same
  name, and goes in lockstep one call further down.
-/

import BehaviorTree.Proofs.Lockstep.Behaviours
import BehaviorTree.Proofs.Run

namespace BehaviorTree

variable {ρ ρ' μ σ α β : Type} {fine : ρ' → Prop} {π : TreeId → TreeId}

/-! ## Entering and leaving -/

theorem Context.enter_depth {c entered : Context σ} {name : String} (h : c.enter name = .ok entered) :
    entered.depth = c.depth + 1 := by
  unfold enter at h
  split at h
  · cases h
  · split at h
    · cases h
      rfl
    · split at h
      · cases h
        rfl
      · cases h

namespace Lock

variable {R : ρ → ρ' → Prop} {d : Nat}

/-- Both recursion guards admit a call, one level deeper, or both refuse it. -/
theorem enter {name : String} {φ : β → α} {a : Option Overflow → Run ρ μ σ α} {b : Option Overflow → Run ρ' μ σ β}
    {post : Machine ρ μ σ → Machine ρ' μ σ → Prop}
    (refused : ∀ o, Sim fine (Along R d) φ (a (some o)) (b (some o)) post)
    (entered : Sim fine (Along R (d + 1)) φ (a none) (b none) post) :
    Sim fine (Along R d) φ (Run.enter name >>= a) (Run.enter name >>= b) post where
  before m' h := by
    unfold Run.last at h
    cases enters : m'.context.enter name with
    | ok c =>
      rw [Run.enter_bind_ok enters] at h
      exact entered.before { m' with context := c } h
    | error o =>
      rw [Run.enter_bind_error enters] at h
      exact (refused o).before m' h
  agree m m' related h := by
    unfold Run.last at h
    cases enters : m'.context.enter name with
    | ok c =>
      rw [Run.enter_bind_ok enters] at h ⊢
      rw [Run.enter_bind_ok (by rw [related.same.context, enters])]
      refine entered.agree _ _ ⟨?_, (Context.enter_depth enters).trans (by rw [related.depth]), related.runs⟩ h
      exact ⟨rfl, related.same.memory, related.same.journal, related.same.heard⟩
    | error o =>
      rw [Run.enter_bind_error enters] at h ⊢
      rw [Run.enter_bind_error (by rw [related.same.context, enters])]
      exact (refused o).agree _ _ related h

theorem leave :
    Sim fine (Along R (d + 1)) id (Run.onContext (μ := μ) (σ := σ) (·.leave)) (Run.onContext (·.leave)) (Along R d) :=
  .step (fun _ => ()) (fun m => { m with context := m.context.leave }) (fun _ => rfl) (fun _ h => h) fun m _ h _ =>
    ⟨{ m with context := m.context.leave }, rfl,
      ⟨congrArg Context.leave h.same.context, h.same.memory, h.same.journal, h.same.heard⟩,
      congrArg (· - 1) h.depth, h.runs⟩

theorem withState {state : Option σ} {a : Run ρ μ σ α} {b : Run ρ' μ σ α} (h : Lock fine R d a b) :
    Lock fine R d (Run.withState state a) (Run.withState state b) := by
  refine Lock.context.bind fun _ => Lock.bind (onContext fun _ => rfl) fun _ => h.bind fun _ => ?_
  exact Lock.bind (onContext fun _ => rfl) fun _ => .pure _

theorem refuse {o : Overflow} : Lock fine R d (Run.refuse (μ := μ) (σ := σ) o) (Run.refuse o) :=
  Lock.report.bind fun _ => Lock.trace.bind fun _ => onContext fun _ => rfl

end Lock

/-! ## Ticks of calls -/

/-- The called tree goes in lockstep, one call further down. -/
structure Callee.Locked (fine : ρ' → Prop) (own : Nat → ρ → ρ' → Prop) (callee : Callee ρ μ σ)
    (callee' : Callee ρ' μ σ) : Prop where
  name : callee.name = callee'.name
  tick : ∀ d, Lock fine (own d) (d + 1) callee.root.tick callee'.root.tick

namespace Behaviour

variable {own : Nat → ρ → ρ' → Prop} {cell : Cell ρ σ} {cell' : Cell ρ' σ} (c : Cells fine π own cell cell')
  {resolve : Run ρ μ σ (Option TreeId)} {resolve' : Run ρ' μ σ (Option TreeId)}
  {makeState : Option (StateMaker μ σ)}

theorem stateFor_lock (d : Nat) : Lock fine (own d) d (stateFor makeState) (stateFor makeState) := by
  cases makeState with
  | none => exact .pure _
  | some make => exact Lock.context.bind fun _ => Lock.consult.bind fun _ => .pure _

theorem announceCall_lock {name : String} {fresh : Bool} (d e : Nat) :
    Lock fine (own d) e (announceCall (μ := μ) (σ := σ) name fresh d) (announceCall name fresh d) :=
  .ite (fun _ => Lock.report.bind fun _ => Lock.trace) fun _ => .pure _

theorem runCallee_lock {callee : Callee ρ μ σ} {callee' : Callee ρ' μ σ} (called : callee.Locked fine own callee')
    (forgets : ∀ d, Lock fine (own d) d (Cell.forget (μ := μ) cell d) (cell'.forget d)) {ownState fresh : Bool}
    {state : Option σ} (d : Nat) :
    Sim fine (Along (own d) (d + 1)) id (runCallee cell callee ownState fresh state d)
      (runCallee cell' callee' ownState fresh state d) (Along (own d) d) := by
  unfold runCallee
  rw [called.name]
  have finish : ∀ s,
      Lock fine (own d) d (finishCall (μ := μ) cell callee'.name d s) (finishCall cell' callee'.name d s) :=
    fun s => .ite (fun _ => Lock.report.bind fun _ => Lock.trace.bind fun _ => forgets d) fun _ => .pure _
  have settles : ∀ s, Sim fine (Along (own d) (d + 1)) id
      (do Run.onContext (·.leave); finishCall (μ := μ) cell callee'.name d s; return s)
      (do Run.onContext (·.leave); finishCall cell' callee'.name d s; return s) (Along (own d) d) :=
    fun s => Lock.leave.bind fun _ => (finish s).bind fun _ => .pure s
  refine (announceCall_lock d (d + 1)).bind fun _ => ?_
  dsimp only
  exact .ite (fun _ => (called.tick d).withState.bind settles) fun _ => (called.tick d).bind settles

include c

/-- Both calls find a tree, the same up to its number, or none. -/
theorem callTarget_lock (d : Nat)
    (found : Sim fine (Along (own d) d) (Option.map π) resolve resolve' (Along (own d) d)) :
    Sim fine (Along (own d) d) (Option.map (Prod.map π id)) (callTarget cell resolve makeState d)
      (callTarget cell' resolve' makeState d) (Along (own d) d) := by
  refine (c.read d d).bind fun y => ?_
  cases y
  case call tree state => exact .pure (some (tree, state, false))
  all_goals
    refine found.bind fun o => ?_
    cases o with
    | none => exact Lock.report.bind fun _ => .pure none
    | some tree =>
      refine (stateFor_lock d).bind fun state => ?_
      exact (c.keep d d (.call tree state)).bind fun _ => .pure (some (tree, state, true))

theorem call_lock {callee : TreeId → Callee ρ μ σ} {callee' : TreeId → Callee ρ' μ σ}
    (found : ∀ d, Sim fine (Along (own d) d) (Option.map π) resolve resolve' (Along (own d) d))
    (called : ∀ tree, (callee (π tree)).Locked fine own (callee' tree)) (d : Nat) :
    Lock fine (own d) d (call cell resolve makeState callee).tick (call cell' resolve' makeState callee').tick := by
  refine Lock.depth (R := own) (fun e => ?_) d
  refine (callTarget_lock c e (found e)).bind fun o => ?_
  cases o with
  | none => exact .pure _
  | some target =>
    obtain ⟨tree, state, fresh⟩ := target
    simp only [Option.map_some, Prod.map_apply, id_eq, (called tree).name]
    refine Lock.enter (fun o => ?_) (runCallee_lock (called tree) (fun d => c.forget d d) e)
    exact Lock.refuse.bind fun _ => (c.forget e e).bind fun _ => .pure _

end Behaviour

end BehaviorTree
