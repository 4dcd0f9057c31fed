/-
  BehaviorTree.Proofs.Lockstep.Resets: abandoned runs, in lockstep.

  A node that is abandoned puts its own slot away first, while its cells are related. What
  is left related then is enough for the resets of its children.
-/

import BehaviorTree.Proofs.Lockstep.Calls
import BehaviorTree.Proofs.Lockstep.Several

namespace BehaviorTree

variable {ρ ρ' μ σ α β : Type} {fine : ρ' → Prop} {π : TreeId → TreeId} {T Q : Nat → ρ → ρ' → Prop}
  {cell : Cell ρ σ} {cell' : Cell ρ' σ} {b : Behaviour ρ μ σ} {b' : Behaviour ρ' μ σ}
  {bs : List (Behaviour ρ μ σ)} {bs' : List (Behaviour ρ' μ σ)}

theorem Along.mono {R R' : ρ → ρ' → Prop} {e : Nat} {m : Machine ρ μ σ} {m' : Machine ρ' μ σ} (h : Along R e m m')
    (k : ∀ s r, R s r → R' s r) : Along R' e m m' := ⟨h.same, h.depth, k _ _ h.runs⟩

theorem Lock.of {R R' : ρ → ρ' → Prop} {e : Nat} {a : Run ρ μ σ α} {a' : Run ρ' μ σ α} (h : Lock fine R' e a a')
    (k : ∀ s r, R s r → R' s r) : Sim fine (Along R e) id a a' (Along R' e) :=
  h.weaken (fun _ _ h => h.mono k) fun _ _ h => h

/-- A reset goes in lockstep, at whatever depth the tick stands. What was related at the reset's depth ends
up related otherwise. -/
abbrev ResetLock (fine : ρ' → Prop) (T Q : Nat → ρ → ρ' → Prop)
    (reset : (depth : Nat) → (fire : Bool) → Run ρ μ σ Unit)
    (reset' : (depth : Nat) → (fire : Bool) → Run ρ' μ σ Unit) :
    Prop := ∀ d e fire, Sim fine (Along (T d) e) id (reset d fire) (reset' d fire) (Along (Q d) e)

namespace Behaviour

section
variable (c : Cells fine π T cell cell') (after : ∀ d s r, T d s r → Q d s r)
include after

/-- Nothing more is to be done. -/
theorem done_reset_lock (d e : Nat) :
    Sim fine (Along (T d) e) id (pure () : Run ρ μ σ Unit) (pure () : Run ρ' μ σ Unit) (Along (Q d) e) :=
  Lock.of (.pure ()) (after d)

theorem ofTick_reset_lock {tick : Run ρ μ σ Status} {tick' : Run ρ' μ σ Status} :
    ResetLock fine T Q (ofTick tick).reset (ofTick tick').reset := fun d e _ => done_reset_lock after d e

theorem custom_reset_lock {host : Host ρ μ σ} {host' : Host ρ' μ σ} {body : Callback μ σ Status}
    {onReset : (depth : Nat) → (fire : Bool) → μ → μ} :
    ResetLock fine T Q (custom host body onReset).reset (custom host' body onReset).reset := fun d _ _ =>
  Lock.remember.of (after d)

include c

theorem leaf_reset_lock {tick : Nat → Run ρ μ σ Status} {tick' : Nat → Run ρ' μ σ Status} :
    ResetLock fine T Q (cell.leaf tick).reset (cell'.leaf tick').reset := fun d e _ =>
  (c.forget d e).weaken (fun _ _ h => h) fun _ _ h => h.mono (after d)

/-! ## Nodes with one child -/

theorem resetStarted_lock (child : Locked fine Q b b') :
    ResetLock fine T Q (cell.resetStarted b) (cell'.resetStarted b') := by
  intro d e fire
  refine (c.read d e).bind fun y => ?_
  cases y
  case started => exact (c.forget d e).bind fun _ => (child.reset d e fire).of (after d)
  all_goals exact done_reset_lock after d e

theorem resetIteration_lock (child : Locked fine Q b b') :
    ResetLock fine T Q (cell.resetIteration b) (cell'.resetIteration b') := by
  intro d e fire
  refine (c.take d e).bind fun y => ?_
  cases y
  case iterations n childRunning =>
    cases childRunning
    · exact done_reset_lock after d e
    · exact (child.reset d e fire).of (after d)
  all_goals exact done_reset_lock after d e

theorem timeout_reset_lock {duration : Duration} (child : Locked fine Q b b') :
    ResetLock fine T Q (timeout cell duration b).reset (timeout cell' duration b').reset := by
  intro d e fire
  refine (c.take d e).bind fun y => ?_
  cases y
  case elapsed => exact (child.reset d e fire).of (after d)
  all_goals exact done_reset_lock after d e

theorem delay_reset_lock {duration : Duration} (child : Locked fine Q b b') :
    ResetLock fine T Q (delay cell duration b).reset (delay cell' duration b').reset := by
  intro d e fire
  refine (c.take d e).bind fun y => ?_
  cases y
  case released => exact (child.reset d e fire).of (after d)
  all_goals exact done_reset_lock after d e

theorem localScope_reset_lock (child : Locked fine Q b b') :
    ResetLock fine T Q (localScope cell b).reset (localScope cell' b').reset := by
  intro d e fire
  refine (c.take d e).bind fun y => ?_
  cases y
  case overlay => exact (child.reset d e fire).of (after d)
  all_goals exact done_reset_lock after d e

theorem scope_reset_lock {host : Host ρ μ σ} {host' : Host ρ' μ σ} {hooks : Hooks μ σ}
    (child : Locked fine Q b b') :
    ResetLock fine T Q (scope cell host hooks b).reset (scope cell' host' hooks b').reset := by
  intro d e fire
  refine (c.read d e).bind fun y => ?_
  cases y
  case started =>
    refine (c.forget d e).bind fun _ => Lock.of ?_ (after d)
    exact (child.reset d e fire).bind fun _ => .ite (fun _ => Lock.remember) fun _ => .pure _
  all_goals exact done_reset_lock after d e

/-! ## Nodes with several children, and calls -/

theorem resetChild_lock (children : LockedAll fine Q bs bs') :
    ResetLock fine T Q (cell.resetChild bs) (cell'.resetChild bs') := by
  intro d e fire
  refine (c.take d e).bind fun y => ?_
  cases y
  case child k =>
    refine Lock.of ?_ (after d)
    simp only [Slot.mapTrees]
    rcases children.lookup k with ⟨none, none'⟩ | ⟨b, b', here, here', child⟩
    · simp only [none, none', children.length_eq]
      exact Lock.throw
    · simp only [here, here']
      exact child.reset d e fire
  all_goals exact done_reset_lock after d e

theorem resetTracked_lock (children : LockedAll fine Q bs bs') :
    ResetLock fine T Q (resetTracked cell bs) (resetTracked cell' bs') := by
  intro d e fire
  refine (c.take d e).bind fun y => ?_
  cases y
  case children states =>
    refine Lock.of ?_ (after d)
    exact abort_lock (.zip children states) d e fire
  all_goals exact done_reset_lock after d e

theorem call_reset_lock {resolve : Run ρ μ σ (Option TreeId)} {resolve' : Run ρ' μ σ (Option TreeId)}
    {makeState : Option (StateMaker μ σ)} {callee : TreeId → Callee ρ μ σ} {callee' : TreeId → Callee ρ' μ σ}
    (called : ∀ tree d e fire,
      Lock fine (Q d) e ((callee (π tree)).root.reset (d + 1) fire) ((callee' tree).root.reset (d + 1) fire)) :
    ResetLock fine T Q (call cell resolve makeState callee).reset (call cell' resolve' makeState callee').reset := by
  intro d e fire
  refine (c.take d e).bind fun y => ?_
  cases y
  case call tree state => exact (called tree d e fire).of (after d)
  all_goals exact done_reset_lock after d e

end

end Behaviour

end BehaviorTree
