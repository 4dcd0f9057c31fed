/-
  BehaviorTree.Proofs.Course.Behaviours: nodes keep to a course if their children do.

  To keep to a course is to keep up, from wherever a run starts, that the course leads on from
  there (`Course.upkeep`). So a node keeps to a course if it may write its own slot and put out its
  events, and if what it asks from elsewhere keeps to it. It does not matter what the slot holds, at
  which depth it is, or what the children answer. A call has a context of its own meanwhile, which
  courses do not notice. A node that puts an overlay in place is not among them: what it does to the
  layers is for each course to tell.
-/

import BehaviorTree.Proofs.Course
import BehaviorTree.Proofs.Passage
import BehaviorTree.Proofs.Upkeep.Behaviours

namespace BehaviorTree

variable {ρ μ σ α : Type} {stage : Stage ρ μ σ} {C : Course stage} {cell : Cell ρ σ} {b : Behaviour ρ μ σ}
  {bs : List (Behaviour ρ μ σ)}

/-- The tags of the events that the node itself puts out. -/
def Node.tags : Node μ σ → List String
  | .earlyReturn _ => [Tag.earlyReturn]
  | .scope _ _ => [Tag.scopeEnter, Tag.scopeExit]
  | .call _ _ => [Tag.subtreeEnter, Tag.subtreeExit, Tag.subtreeOverflow]
  | _ => []

namespace Course

open Behaviour

/-! ## Courses as upkeeps -/

/-- The course leads on from this machine. -/
def upkeep (C : Course stage) (m : Machine ρ μ σ) : Upkeep stage where
  holds n := C.goes m n
  breaks _ n := C.breaks m n
  passive held runs layers depth _ := C.trans held (C.passive runs layers depth)
  aside held slots _ := C.trans held (C.aside _ slots)

/-- A fault may break off a run anywhere. -/
theorem upkeep_allows (m : Machine ρ μ σ) (e : Fault) : (C.upkeep m).Allows e :=
  fun _ held => C.further held (C.broken _)

theorem Leads.upkeep {a : Run ρ μ σ α} (leads : C.Leads a) (m : Machine ρ μ σ) : (C.upkeep m).Keeps a := by
  intro n held
  have came := (leads n).after held
  generalize a n = r at came
  cases came with
  | ok goes => exact .ok ⟨trivial, goes⟩
  | error breaks => exact .error breaks

theorem Leads.of_upkeep {a : Run ρ μ σ α} (keeps : ∀ m, (C.upkeep m).Keeps a) : C.Leads a := by
  intro m
  have ended := keeps m m (C.refl m)
  generalize a m = r at ended
  cases ended with
  | ok came => exact .ok came.2
  | error breaks => exact .error breaks

theorem Carries.upkeep (carries : C.Carries b) (m : Machine ρ μ σ) : (C.upkeep m).Tends True b where
  tick _ := carries.tick.upkeep m
  reset d fire := (carries.reset d fire).upkeep m

theorem Carries.of_upkeep (tends : ∀ m, (C.upkeep m).Tends True b) : C.Carries b where
  tick := Leads.of_upkeep fun m => (tends m).tick trivial
  reset d fire := Leads.of_upkeep fun m => (tends m).reset d fire

theorem Writes.owns (own : C.Writes cell) (m : Machine ρ μ σ) (count : Nat) : (C.upkeep m).Owns cell count where
  reads _ _ := .inr (upkeep_allows m _)
  set held _ := C.trans held (own.set _ _ _)
  reset held := C.trans held (own.reset _ _)

theorem Tells.upkeep {tags : List String} (tells : C.Tells tags) (m : Machine ρ μ σ) : (C.upkeep m).Tells tags :=
  fun tag among x y => (tells tag among x y).upkeep m

/-! ## Leaves -/

theorem Carries.ofTick {tick : Run ρ μ σ Status} (ticks : C.Leads tick) : C.Carries (ofTick tick) :=
  Carries.of_upkeep fun m => .ofTick fun _ => ticks.upkeep m

theorem Carries.custom {host : Host ρ μ σ} {body : Callback μ σ Status}
    {onReset : (depth : Nat) → (fire : Bool) → μ → μ} (ticks : C.Leads (body.run host)) :
    C.Carries (custom host body onReset) :=
  Carries.of_upkeep fun m => .custom fun _ => ticks.upkeep m

theorem Carries.earlyReturn {v : Verdict} (tells : C.Tells [Tag.earlyReturn]) : C.Carries (earlyReturn v) :=
  Carries.of_upkeep fun m => .earlyReturn (tells.upkeep m)

section
variable (own : C.Writes cell)
include own

theorem Writes.condition {holds : Predicate μ σ} {every : Duration} : C.Carries (condition cell holds every) :=
  Carries.of_upkeep fun m => (own.owns m 0).condition

theorem Writes.waitUntil {holds : Predicate μ σ} {every : Duration} : C.Carries (waitUntil cell holds every) :=
  Carries.of_upkeep fun m => (own.owns m 0).waitUntil

theorem Writes.wait {duration : Duration} : C.Carries (wait cell duration (μ := μ)) :=
  Carries.of_upkeep fun m => (own.owns m 0).wait

theorem Writes.pause : C.Carries (pause cell (μ := μ)) := Carries.of_upkeep fun m => (own.owns m 0).pause

/-! ## One child -/

variable (child : C.Carries b)
include child

theorem Writes.invert : C.Carries (invert cell b) :=
  Carries.of_upkeep fun m => (own.owns m 1).invert (child.upkeep m)

theorem Writes.force {v : Verdict} : C.Carries (force cell v b) :=
  Carries.of_upkeep fun m => (own.owns m 1).force (child.upkeep m)

theorem Writes.repeatUntil {v : Verdict} : C.Carries (repeatUntil cell v b) :=
  Carries.of_upkeep fun m => (own.owns m 1).repeatUntil (child.upkeep m)

theorem Writes.guard {holds : Predicate μ σ} : C.Carries (guard cell holds b) :=
  Carries.of_upkeep fun m => (own.owns m 1).guard (child.upkeep m)

theorem Writes.iterate {goOn : Verdict} {spent : UInt32 → Bool} : C.Carries (iterate cell goOn spent b) :=
  Carries.of_upkeep fun m => (own.owns m 1).iterate (child.upkeep m)

theorem Writes.timeout {duration : Duration} : C.Carries (timeout cell duration b) :=
  Carries.of_upkeep fun m => (own.owns m 1).timeout (child.upkeep m)

theorem Writes.delay {duration : Duration} : C.Carries (delay cell duration b) :=
  Carries.of_upkeep fun m => (own.owns m 1).delay (child.upkeep m)

theorem Writes.scope {host : Host ρ μ σ} {hooks : Hooks μ σ} (tells : C.Tells [Tag.scopeEnter, Tag.scopeExit])
    (enters : C.Leads (hooks.onEnter.run host)) : C.Carries (scope cell host hooks b) :=
  Carries.of_upkeep fun m => (own.owns m 1).scope (child.upkeep m) (tells.upkeep m) fun _ => enters.upkeep m

end

/-! ## Several children -/

section
variable (own : C.Writes cell) (children : ∀ b ∈ bs, C.Carries b)
include own children

theorem Writes.inOrder {pass : Verdict} : C.Carries (inOrder cell pass bs) :=
  Carries.of_upkeep fun m => (own.owns m _).inOrder fun b hb => (children b hb).upkeep m

theorem Writes.reactive {pass : Verdict} : C.Carries (reactive cell pass bs) :=
  Carries.of_upkeep fun m => (own.owns m _).reactive fun b hb => (children b hb).upkeep m

theorem Writes.parallel {policy : ParallelPolicy} : C.Carries (parallel cell policy bs) :=
  Carries.of_upkeep fun m => (own.owns m _).parallel fun b hb => (children b hb).upkeep m

theorem Writes.join {policy : JoinPolicy} : C.Carries (join cell policy bs) :=
  Carries.of_upkeep fun m => (own.owns m _).join fun b hb => (children b hb).upkeep m

theorem Writes.race : C.Carries (race cell bs) :=
  Carries.of_upkeep fun m => (own.owns m _).race fun b hb => (children b hb).upkeep m

omit children in
theorem Writes.selectOne {chooser : Chooser ρ μ σ} (picks : ∀ count, C.Leads (chooser.pick count))
    (completes : ∀ i, C.Leads (chooser.complete i)) (children : ∀ b ∈ bs, C.Carries b) :
    C.Carries (selectOne cell chooser bs) := by
  refine Carries.of_upkeep fun m => (own.owns m _).selectOne ?_ (fun i => (completes i).upkeep m)
    fun b hb => (children b hb).upkeep m
  exact fun n held => ((picks bs.length).upkeep m n held).mono
    (fun _ _ came => ⟨fun i _ => .inr (upkeep_allows m _), came.2⟩) fun _ _ => id

end

/-! ## Calls -/

section
variable (own : C.Writes cell)
include own

theorem Writes.callTarget {resolve : Run ρ μ σ (Option TreeId)} {makeState : Option (StateMaker μ σ)} {d : Nat}
    (resolves : C.Leads resolve) : C.Leads (callTarget cell resolve makeState d) :=
  Leads.of_upkeep fun m => (own.owns m 0).callTarget (resolves.upkeep m)

/-- A call ticks its tree in a context one call deeper, over the same layers. -/
theorem Writes.call {resolve : Run ρ μ σ (Option TreeId)} {makeState : Option (StateMaker μ σ)}
    {callee : TreeId → Callee ρ μ σ} (tells : C.Tells [Tag.subtreeEnter, Tag.subtreeExit, Tag.subtreeOverflow])
    (resolves : C.Leads resolve) (roots : ∀ tree, C.Carries (callee tree).root) :
    C.Carries (call cell resolve makeState callee) where
  tick := by
    refine Leads.reading.bind fun d => (own.callTarget resolves).bind fun target => ?_
    cases target with
    | none => exact .pure _
    | some target =>
      obtain ⟨tree, state, fresh⟩ := target
      intro m
      show C.Came m ((Run.enter (callee tree).name >>= _) m)
      cases enters : m.context.enter (callee tree).name with
      | error o =>
        rw [Run.enter_bind_error enters]
        have refuses : C.Leads (Run.refuse (ρ := ρ) (μ := μ) (σ := σ) o) :=
          Leads.report.bind fun _ => (tells _ (by simp) _ _).bind fun _ => .onContext (fun _ => rfl) fun _ => rfl
        exact (refuses.bind fun _ => own.forget.bind fun _ => Leads.pure Status.failure) m
      | ok c =>
        rw [Run.enter_bind_ok enters]
        have announces : C.Leads (announceCall (callee tree).name fresh d (ρ := ρ) (μ := μ) (σ := σ)) :=
          .ite (Leads.report.bind fun _ => tells _ (by simp) _ _) (.pure _)
        have finishes : ∀ st, C.Leads (do
            finishCall cell (callee tree).name d st
            return st) := fun st =>
          Leads.bind (.ite (Leads.report.bind fun _ => (tells _ (by simp) _ _).bind fun _ => own.forget) (.pure _))
            fun _ => .pure st
        obtain ⟨stack, rfl⟩ := enter_ok enters
        have leaves : ∀ {a : Run ρ μ σ Status}, C.Leads a → C.Came m ((do
            let st ← a
            Run.onContext (·.leave)
            finishCall cell (callee tree).name d st
            return st : Run ρ μ σ Status)
              { m with context := { m.context with depth := m.context.depth + 1, stack } }) := by
          refine fun work => work.lent rfl fun st n goes => ⟨n.context.leave, rfl, ?_, ?_⟩
          · show n.context.depth - 1 = _
            rw [C.depth goes]
            rfl
          · exact finishes st { n with context := n.context.leave }
        dsimp only [runCallee]
        split
        · rw [← bind_assoc]
          exact leaves (announces.bind fun _ => (roots tree).tick.withState state)
        · rw [← bind_assoc]
          exact leaves (announces.bind fun _ => (roots tree).tick)
  reset d fire := by
    refine own.take.bind fun slot => ?_
    cases slot
    case call tree state => exact (roots tree).reset _ fire
    all_goals exact .pure _

end

end Course

end BehaviorTree
