/-
  BehaviorTree.Proofs.Lockstep.Several: brackets, nodes with several children, and calls,
  in lockstep.

  The children of the two nodes are behaviours in the same order that go in lockstep one by
  one. A call goes on one depth further down, in the tree that its slot names.
-/

import Mathlib.Data.List.Forall2
import BehaviorTree.Proofs.Lockstep.Behaviours

namespace BehaviorTree

variable {ρ ρ' μ σ α : Type} {fine : ρ' → Prop} {π : TreeId → TreeId} {own : Nat → ρ → ρ' → Prop}
  {cell : Cell ρ σ} {cell' : Cell ρ' σ} {b : Behaviour ρ μ σ} {b' : Behaviour ρ' μ σ}
  {bs : List (Behaviour ρ μ σ)} {bs' : List (Behaviour ρ' μ σ)}

open List (Forall₂)

/-- Behaviours in the same order that go in lockstep. -/
abbrev LockedAll (fine : ρ' → Prop) (own : Nat → ρ → ρ' → Prop) (bs : List (Behaviour ρ μ σ))
    (bs' : List (Behaviour ρ' μ σ)) : Prop := Forall₂ (Locked fine own) bs bs'

theorem LockedAll.lookup (h : LockedAll fine own bs bs') (i : Nat) :
    (bs[i]? = none ∧ bs'[i]? = none) ∨ ∃ b b', bs[i]? = some b ∧ bs'[i]? = some b' ∧ Locked fine own b b' := by
  induction h generalizing i with
  | nil => exact .inl ⟨rfl, rfl⟩
  | cons first _ ih =>
    cases i with
    | zero => exact .inr ⟨_, _, rfl, rfl, first⟩
    | succ i => exact ih i

namespace Behaviour

/-- Behaviours that go in lockstep, of which the same is remembered. -/
def TrackedAll (fine : ρ' → Prop) (own : Nat → ρ → ρ' → Prop) : List (Tracked ρ μ σ) → List (Tracked ρ' μ σ) → Prop :=
  Forall₂ fun t t' => Locked fine own t.1 t'.1 ∧ t.2 = t'.2

theorem TrackedAll.zip (h : LockedAll fine own bs bs') (states : List ChildState) :
    TrackedAll fine own (bs.zip states) (bs'.zip states) := by
  induction h generalizing states with
  | nil => exact .nil
  | cons first _ ih =>
    cases states with
    | nil => exact .nil
    | cons state states => exact .cons ⟨first, rfl⟩ (ih states)

theorem TrackedAll.states {ts : List (Tracked ρ μ σ)} {ts' : List (Tracked ρ' μ σ)} (h : TrackedAll fine own ts ts') :
    ts.map (·.2) = ts'.map (·.2) := by
  induction h with
  | nil => rfl
  | cons first _ ih => rw [List.map_cons, List.map_cons, first.2, ih]

theorem TrackedAll.append {ts us : List (Tracked ρ μ σ)} {ts' us' : List (Tracked ρ' μ σ)}
    (h : TrackedAll fine own ts ts') (k : TrackedAll fine own us us') :
    TrackedAll fine own (ts ++ us) (ts' ++ us') := List.rel_append h k

section
variable (c : Cells fine π own cell cell')

/-! ## Callbacks and brackets -/

theorem openScope_lock {kind : TreeId → Prop} {host : Host ρ μ σ} {host' : Host ρ' μ σ} {hooks : Hooks μ σ} (d : Nat)
    (c : Cells fine π own cell cell') (hosts : host.Lock fine (own d) d kind host') (only : hooks.onEnter.Only kind) :
    Lock fine (own d) d (openScope cell host hooks d) (openScope cell' host' hooks d) := by
  have opens : Lock fine (own d) d
      (do cell.keep d .started; Run.trace Tag.scopeEnter (UInt64.ofNat d) 0; hooks.onEnter.run host)
      (do cell'.keep d .started; Run.trace Tag.scopeEnter (UInt64.ofNat d) 0; hooks.onEnter.run host') :=
    (c.keep d d .started).bind fun _ => Lock.trace.bind fun _ => Lock.callback hosts only
  refine (c.read d d).bind fun y => ?_
  cases y
  case started => exact .pure _
  all_goals exact opens

theorem settleReturn_lock (child : Locked fine own b b') (d : Nat) (ticked : Status) :
    Lock fine (own d) d (settleReturn b d ticked) (settleReturn b' d ticked) := by
  refine Lock.takeReturn.bind fun request => ?_
  cases request with
  | none => exact .pure _
  | some requested =>
    refine Lock.report.bind fun _ => .ite (fun _ => ?_) fun _ => .pure _
    exact (child.reset d d true).bind fun _ => .pure _

include c

theorem closeScope_lock {hooks : Hooks μ σ} (d : Nat) (s : Status) :
    Lock fine (own d) d (closeScope cell hooks d s) (closeScope cell' hooks d s) :=
  .ite (fun _ => (c.forget d d).bind fun _ => Lock.trace.bind fun _ => Lock.remember) fun _ => .pure _

theorem scope_lock {kind : TreeId → Prop} {host : Host ρ μ σ} {host' : Host ρ' μ σ} {hooks : Hooks μ σ}
    (hosts : ∀ d, host.Lock fine (own d) d kind host') (only : hooks.onEnter.Only kind) (child : Locked fine own b b')
    (d : Nat) : Lock fine (own d) d (scope cell host hooks b).tick (scope cell' host' hooks b').tick := by
  refine Lock.depth (R := own) (fun e => ?_) d
  refine (openScope_lock e c (hosts e) only).bind fun _ => (child.tick e).bind fun ticked => ?_
  exact (settleReturn_lock child e ticked).bind fun s => (closeScope_lock c e s).bind fun _ => .pure _

theorem localScope_lock (child : Locked fine own b b') (d : Nat) :
    Lock fine (own d) d (localScope cell b).tick (localScope cell' b').tick := by
  refine Lock.depth (R := own) (fun e => ?_) d
  refine (c.take e e).bind fun y => ?_
  rw [Slot.mapTrees_board]
  refine Lock.bind (Lock.onContext fun _ => rfl) fun _ => (child.tick e).bind fun s => ?_
  refine Lock.context.bind fun context =>
    Lock.bind (Lock.onContext fun _ => rfl) fun _ => .ite (fun _ => ?_) fun _ => .pure _
  exact (c.keep e e (.overlay _)).bind fun _ => .pure _

/-! ## Children in order -/

theorem inOrderFrom_lock {pass : Verdict} (children : LockedAll fine own bs bs') (d i : Nat) :
    Lock fine (own d) d (inOrderFrom cell pass d i bs) (inOrderFrom cell' pass d i bs') := by
  induction children generalizing i with
  | nil => exact (c.forget d d).bind fun _ => .pure _
  | cons child _ ih =>
    refine (child.tick d).bind fun s => Lock.returning.bind fun _ => ?_
    refine .ite (fun _ => (c.forget d d).bind fun _ => .pure _) fun _ => ?_
    refine .ite (fun _ => (c.keep d d (.child i)).bind fun _ => .pure _) fun _ => ?_
    exact .ite (fun _ => ih (i + 1)) fun _ => (c.forget d d).bind fun _ => .pure _

theorem inOrder_lock {pass : Verdict} (children : LockedAll fine own bs bs') (d : Nat) :
    Lock fine (own d) d (inOrder cell pass bs).tick (inOrder cell' pass bs').tick := by
  refine Lock.depth (R := own) (fun e => ?_) d
  refine (c.read e e).bind fun y => ?_
  rw [Slot.mapTrees_child?]
  exact inOrderFrom_lock c (List.forall₂_drop _ children) e _

theorem preempt_lock (children : LockedAll fine own bs bs') (d i : Nat) :
    Lock fine (own d) d (cell.preempt bs d i) (cell'.preempt bs' d i) := by
  refine (c.take d d).bind fun y => ?_
  cases y
  case child k =>
    refine .ite (fun _ => ?_) fun _ => .pure _
    rcases children.lookup k with ⟨none, none'⟩ | ⟨b, b', here, here', child⟩
    · simp only [none, none', children.length_eq]
      exact Lock.throw
    · simp only [here, here']
      exact child.reset d d true
  all_goals exact .pure _

theorem reactiveFrom_lock {pass : Verdict} {all : List (Behaviour ρ μ σ)} {all' : List (Behaviour ρ' μ σ)}
    (every : LockedAll fine own all all') (children : LockedAll fine own bs bs') (d i : Nat) :
    Lock fine (own d) d (reactiveFrom cell pass all d i bs) (reactiveFrom cell' pass all' d i bs') := by
  induction children generalizing i with
  | nil => exact (c.forget d d).bind fun _ => .pure _
  | cons child _ ih =>
    refine (child.tick d).bind fun s => Lock.returning.bind fun _ => ?_
    refine .ite (fun _ => (preempt_lock c every d i).bind fun _ => .pure _) fun _ => ?_
    refine .ite (fun _ => ih (i + 1)) fun _ => (preempt_lock c every d i).bind fun _ => ?_
    exact .ite (fun _ => (c.keep d d (.child i)).bind fun _ => .pure _) fun _ => .pure _

theorem reactive_lock {pass : Verdict} (children : LockedAll fine own bs bs') (d : Nat) :
    Lock fine (own d) d (reactive cell pass bs).tick (reactive cell' pass bs').tick := by
  refine Lock.depth (R := own) (fun e => ?_) d
  exact reactiveFrom_lock c children children e 0

/-! ## Children side by side -/

omit c in
theorem abort_lock {ts : List (Tracked ρ μ σ)} {ts' : List (Tracked ρ' μ σ)} (h : TrackedAll fine own ts ts')
    (d e : Nat) (fire : Bool) : Lock fine (own d) e (abort d fire ts) (abort d fire ts') := by
  induction h with
  | nil => exact .pure _
  | @cons t t' _ _ first _ ih =>
    obtain ⟨b, state⟩ := t
    obtain ⟨b', state'⟩ := t'
    obtain ⟨child, rfl⟩ := first
    cases state with
    | running => exact (child.reset d e fire).bind fun _ => ih
    | idle | finished => exact ih

omit c in
theorem visit_lock {stop : Status → Bool} {seen rest : List (Tracked ρ μ σ)} {seen' rest' : List (Tracked ρ' μ σ)}
    (before : TrackedAll fine own seen seen') (after : TrackedAll fine own rest rest') (d : Nat) :
    Lock fine (own d) d (visit stop d seen rest) (visit stop d seen' rest') := by
  induction after generalizing seen seen' with
  | nil =>
    show Lock fine (own d) d (pure (Sum.inr (seen.map (·.2)))) (pure (Sum.inr (seen'.map (·.2))))
    rw [before.states]
    exact .pure _
  | @cons t t' rest rest' first after ih =>
    obtain ⟨b, state⟩ := t
    obtain ⟨b', state'⟩ := t'
    obtain ⟨child, rfl⟩ := first
    have visited : ∀ s, TrackedAll fine own (seen ++ [(b, s)]) (seen' ++ [(b', s)]) :=
      fun s => before.append (.cons ⟨child, rfl⟩ .nil)
    cases state with
    | finished s => exact ih (visited _)
    | running | idle =>
      refine (child.tick d).bind fun s => Lock.returning.bind fun _ => .ite (fun _ => ?_) fun _ => ih (visited _)
      exact (abort_lock ((visited _).append after) d d true).bind fun _ => .pure _

theorem visitAll_lock {stop : Status → Bool} {otherwise : List ChildState → Status}
    (children : LockedAll fine own bs bs') (d : Nat) :
    Lock fine (own d) d (visitAll cell stop otherwise bs) (visitAll cell' stop otherwise bs') := by
  refine Lock.depth (R := own) (fun e => ?_) d
  refine (c.take e e).bind fun y => ?_
  rw [Slot.mapTrees_childStates, children.length_eq]
  refine (visit_lock .nil (.zip children _) e).bind fun r => ?_
  cases r with
  | inl s => exact .pure _
  | inr states => exact .ite (fun _ => (c.keep e e (.children states)).bind fun _ => .pure _) fun _ => .pure _

theorem raceFrom_lock {seen rest : List (Tracked ρ μ σ)} {seen' rest' : List (Tracked ρ' μ σ)}
    (before : TrackedAll fine own seen seen') (after : TrackedAll fine own rest rest') (d : Nat) :
    Lock fine (own d) d (raceFrom cell d seen rest) (raceFrom cell' d seen' rest') := by
  induction after generalizing seen seen' with
  | nil =>
    refine Lock.bind (a := cell.keep d (.children (seen.map (·.2)))) (b := cell'.keep d (.children (seen'.map (·.2))))
      ?_ fun _ => .pure _
    rw [before.states]
    exact c.keep d d (.children _)
  | @cons t t' rest rest' first after ih =>
    obtain ⟨b, state⟩ := t
    obtain ⟨b', state'⟩ := t'
    obtain ⟨child, rfl⟩ := first
    refine (child.tick d).bind fun s => Lock.returning.bind fun _ => .ite (fun _ => ?_) fun _ => ?_
    · have ended : TrackedAll fine own (seen ++ (b, .finished s) :: rest) (seen' ++ (b', .finished s) :: rest') :=
        before.append (.cons ⟨child, rfl⟩ after)
      exact (abort_lock ended d d true).bind fun _ => .pure _
    · exact ih (before.append (.cons ⟨child, rfl⟩ .nil))

theorem race_lock (children : LockedAll fine own bs bs') (d : Nat) :
    Lock fine (own d) d (race cell bs).tick (race cell' bs').tick := by
  cases children with
  | nil => exact .pure _
  | cons first rest =>
    refine Lock.depth (R := own) (fun e => ?_) d
    refine (c.take e e).bind fun y => ?_
    have children := List.Forall₂.cons first rest
    rw [Slot.mapTrees_childStates, children.length_eq]
    exact raceFrom_lock c .nil (.zip children _) e

/-! ## One child among several -/

theorem selectOne_lock {chooser : Chooser ρ μ σ} {chooser' : Chooser ρ' μ σ}
    (picks : ∀ count d, Lock fine (own d) d (chooser.pick count) (chooser'.pick count))
    (completes : ∀ i d, Lock fine (own d) d (chooser.complete i) (chooser'.complete i))
    (children : LockedAll fine own bs bs') (d : Nat) :
    Lock fine (own d) d (selectOne cell chooser bs).tick (selectOne cell' chooser' bs').tick := by
  refine Lock.depth (R := own) (fun e => ?_) d
  have chosen : Lock fine (own e) e (choose cell chooser bs.length e) (choose cell' chooser' bs'.length e) := by
    refine (c.read e e).bind fun y => ?_
    rw [Slot.mapTrees_child?, children.length_eq]
    cases y.child? with
    | some i => exact .pure _
    | none => exact picks _ e
  refine chosen.bind fun o => ?_
  cases o with
  | none => exact .pure _
  | some i =>
    show Lock fine (own e) e (tickChosen cell chooser bs e i) (tickChosen cell' chooser' bs' e i)
    unfold tickChosen
    rcases children.lookup i with ⟨none, none'⟩ | ⟨b, b', here, here', child⟩
    · simp only [none, none', children.length_eq]
      exact Lock.throw
    · simp only [here, here']
      refine (child.tick e).bind fun s => .ite (fun _ => (c.keep e e (.child i)).bind fun _ => .pure _) fun _ => ?_
      exact (c.forget e e).bind fun _ => (completes i e).bind fun _ => .pure _

end

end Behaviour

end BehaviorTree
