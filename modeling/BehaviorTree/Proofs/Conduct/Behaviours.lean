/-
  BehaviorTree.Proofs.Conduct.Behaviours: leaves and nodes with one child keep to a conduct.

  What a node does is work at its place if its child does work there, and if the place's own
  slot may be used. It does not matter what the slot holds or what the child answers.
-/

import BehaviorTree.Proofs.Conduct

namespace BehaviorTree

variable {ρ μ σ α : Type} {sys : System μ σ} {stage : Stage ρ μ σ} {C : Conduct sys stage} {ticking : Prop} {p : Place}
  {b : Behaviour ρ μ σ}

namespace Conduct

open Behaviour

/-! ## The own slot -/

namespace Owns

variable (own : C.Owns p)
include own

theorem keep {slot : Slot σ} (none : slot.callee? = none) :
    C.Heeds ticking p ((stage.cell p.site).keep p.depth slot) :=
  fun m _ => .ok (own.set m.runs m.memory slot none) (C.passing.refl _)

theorem forget : C.Heeds ticking p ((stage.cell p.site).forget p.depth) :=
  fun m _ => .ok (own.reset m.runs m.memory) (C.passing.refl _)

theorem take : C.Heeds ticking p ((stage.cell p.site).take p.depth) :=
  fun m _ => .ok (own.reset m.runs m.memory) (C.passing.refl _)

theorem note {st : Status} : C.Heeds ticking p ((stage.cell p.site).note p.depth st) := by
  cases st <;> exact own.keep rfl

end Owns

theorem Heeds.test {holds : Predicate μ σ} (spares : ∀ c x, C.spares x (holds c x).2) :
    C.Heeds ticking p (Run.test holds) := .memory fun _ => spares _ _

theorem Heeds.remember {f : μ → μ} (spares : ∀ x, C.spares x (f x)) :
    C.Heeds ticking p (Run.remember (ρ := ρ) (σ := σ) f) := .memory fun _ => spares _

theorem Heeds.consult {f : μ → α × μ} (spares : ∀ x, C.spares x (f x).2) :
    C.Heeds ticking p (Run.consult (ρ := ρ) (σ := σ) f) := .memory fun _ => spares _

/-! ## Leaves -/

theorem Fares.ofTick {tick : Run ρ μ σ Status} (ticks : C.Heeds True p tick) : C.Fares p (ofTick tick) where
  tick := ticks
  reset _ := .pure ()

theorem Fares.custom {host : Host ρ μ σ} {body : Callback μ σ Status} {onReset : (depth : Nat) → (fire : Bool) → μ → μ}
    (ticks : C.Heeds True p (body.run host)) (spares : ∀ depth fire x, C.spares x (onReset depth fire x)) :
    C.Fares p (custom host body onReset) where
  tick := ticks
  reset _ := .remember fun _ => spares _ _ _

theorem Fares.earlyReturn {v : Verdict} : C.Fares p (earlyReturn v) := by
  refine .ofTick (Heeds.requestReturn.bind fun _ => Heeds.depth ?_)
  exact Heeds.trace.bind fun _ => .pure _

section
variable (own : C.Owns p)
include own

theorem Owns.leaf {tick : (depth : Nat) → Run ρ μ σ Status} (ticks : C.Heeds True p (tick p.depth)) :
    C.Fares p ((stage.cell p.site).leaf tick) where
  tick := .depth ticks
  reset _ := own.forget

theorem Owns.keptAnswer {every : Duration} :
    C.Heeds True p (keptAnswer (stage.cell p.site) every p.depth) := by
  refine Heeds.reading.bind fun slot => ?_
  cases slot
  case answered answer since =>
    refine Heeds.reading.bind fun _ => .ite (fun _ => .pure _) fun _ => ?_
    exact (own.keep rfl).bind fun _ => .pure _
  all_goals exact .pure _

theorem Owns.condition {holds : Predicate μ σ} {every : Duration} (spares : ∀ c x, C.spares x (holds c x).2) :
    C.Fares p (condition (stage.cell p.site) holds every) := by
  refine own.leaf (.ite (fun _ => own.keptAnswer.bind fun answer => ?_) fun _ => ?_)
  · cases answer with
    | some answer => exact .pure _
    | none => exact (Heeds.test spares).bind fun _ => (own.keep rfl).bind fun _ => .pure _
  · exact (Heeds.test spares).bind fun _ => .pure _

theorem Owns.waitUntil {holds : Predicate μ σ} {every : Duration} (spares : ∀ c x, C.spares x (holds c x).2) :
    C.Fares p (waitUntil (stage.cell p.site) holds every) := by
  refine own.leaf (own.keptAnswer.bind fun _ => .ite (fun _ => .pure _) fun _ => ?_)
  refine (Heeds.test spares).bind fun _ => .ite (fun _ => own.forget.bind fun _ => .pure _) fun _ => ?_
  exact (own.keep rfl).bind fun _ => .pure _

theorem Owns.wait {duration : Duration} : C.Fares p (wait (stage.cell p.site) duration) := by
  refine own.leaf (Heeds.reading.bind fun _ => Heeds.reading.bind fun _ => .ite (fun _ => ?_) fun _ => ?_)
  · exact own.forget.bind fun _ => .pure _
  · exact (own.keep rfl).bind fun _ => .pure _

theorem Owns.pause : C.Fares p (pause (stage.cell p.site)) := by
  refine own.leaf (Heeds.reading.bind fun slot => ?_)
  cases slot
  case started => exact own.forget.bind fun _ => .pure _
  all_goals exact (own.keep rfl).bind fun _ => .pure _

/-! ## One child -/

variable (child : C.Fares p b)
include child

theorem Owns.resetStarted (fire : Bool) : C.Heeds False p ((stage.cell p.site).resetStarted b p.depth fire) := by
  refine Heeds.reading.bind fun slot => ?_
  cases slot
  case started => exact own.forget.bind fun _ => child.reset fire
  all_goals exact .pure _

theorem Owns.invert : C.Fares p (invert (stage.cell p.site) b) where
  tick := child.tick.bind fun _ => .depth (own.note.bind fun _ => .pure _)
  reset := own.resetStarted child

theorem Owns.force {v : Verdict} : C.Fares p (force (stage.cell p.site) v b) where
  tick := child.tick.bind fun _ => .depth (own.note.bind fun _ => .pure _)
  reset := own.resetStarted child

theorem Owns.repeatUntil {v : Verdict} : C.Fares p (repeatUntil (stage.cell p.site) v b) where
  tick := by
    refine child.tick.bind fun _ => .depth (own.note.bind fun _ => Heeds.reading.bind fun _ => ?_)
    exact .ite (fun _ => .pure _) fun _ => .pure _
  reset := own.resetStarted child

theorem Owns.guard {holds : Predicate μ σ} (spares : ∀ c x, C.spares x (holds c x).2) :
    C.Fares p (guard (stage.cell p.site) holds b) where
  tick := by
    have admits : C.Heeds True p (admits (stage.cell p.site) holds p.depth) := by
      refine Heeds.reading.bind fun slot => ?_
      cases slot
      case started => exact .pure _
      all_goals exact .test spares
    refine .depth (admits.bind fun _ => .ite (fun _ => ?_) fun _ => .pure _)
    exact child.tick.bind fun _ => own.note.bind fun _ => .pure _
  reset := own.resetStarted child

theorem Owns.iterate {goOn : Verdict} {spent : UInt32 → Bool} :
    C.Fares p (iterate (stage.cell p.site) goOn spent b) where
  tick := by
    refine .depth (child.tick.bind fun _ => Heeds.reading.bind fun _ => ?_)
    refine .ite (fun _ => own.forget.bind fun _ => .pure _) fun _ => ?_
    refine .ite (fun _ => Heeds.reading.bind fun _ => (own.keep rfl).bind fun _ => .pure _) fun _ => ?_
    refine .ite (fun _ => own.forget.bind fun _ => .pure _) fun _ => Heeds.reading.bind fun _ => ?_
    exact .ite (fun _ => own.forget.bind fun _ => .pure _) fun _ => (own.keep rfl).bind fun _ => .pure _
  reset fire := by
    refine own.take.bind fun slot => ?_
    cases slot
    case iterations n childRunning =>
      cases childRunning
      · exact .pure _
      · exact child.reset fire
    all_goals exact .pure _

theorem Owns.timeout {duration : Duration} : C.Fares p (timeout (stage.cell p.site) duration b) where
  tick := by
    refine .depth (Heeds.reading.bind fun _ => Heeds.reading.bind fun _ => child.tick.bind fun _ => ?_)
    refine .ite (fun _ => own.forget.bind fun _ => .pure _) fun _ => .ite (fun _ => ?_) fun _ => ?_
    · exact own.forget.bind fun _ => (child.reset true).anywhere.bind fun _ => .pure _
    · exact (own.keep rfl).bind fun _ => .pure _
  reset fire := by
    refine own.take.bind fun slot => ?_
    cases slot
    case elapsed => exact child.reset fire
    all_goals exact .pure _

theorem Owns.delay {duration : Duration} : C.Fares p (delay (stage.cell p.site) duration b) where
  tick := by
    have release : C.Heeds True p (release (stage.cell p.site) duration p.depth) := by
      refine Heeds.reading.bind fun slot => ?_
      cases slot
      case released => exact .pure _
      all_goals
        refine Heeds.reading.bind fun _ => .bind (own.keep ?_) fun _ => .pure _
        split <;> rfl
    refine .depth (release.bind fun _ => .ite (fun _ => ?_) fun _ => .pure _)
    refine child.tick.bind fun _ => .ite (fun _ => ?_) fun _ => .pure _
    exact own.forget.bind fun _ => .pure _
  reset fire := by
    refine own.take.bind fun slot => ?_
    cases slot
    case released => exact child.reset fire
    all_goals exact .pure _

theorem Owns.localScope : C.Fares p (localScope (stage.cell p.site) b) where
  tick := by
    refine .depth (own.take.bind fun slot => .overlaid slot.board child.tick fun _ _ => ?_)
    refine .ite (fun _ => ?_) fun _ => .pure _
    exact (own.keep rfl).bind fun _ => .pure _
  reset fire := by
    refine own.take.bind fun slot => ?_
    cases slot
    case overlay => exact child.reset fire
    all_goals exact .pure _

omit own in
theorem Fares.settleReturn {st : Status} : C.Heeds True p (settleReturn b p.depth st) := by
  refine Heeds.takeReturn.bind fun request => ?_
  cases request with
  | none => exact .pure _
  | some requested =>
    refine Heeds.report.bind fun _ => .ite (fun _ => ?_) fun _ => .pure _
    exact (child.reset true).anywhere.bind fun _ => .pure _

/-- A scope is as any other node where its hooks are. -/
theorem Owns.scope {host : Host ρ μ σ} {hooks : Hooks μ σ} (enters : C.Heeds True p (hooks.onEnter.run host))
    (exits : ∀ st x, C.spares x (hooks.onExit st x)) : C.Fares p (scope (stage.cell p.site) host hooks b) where
  tick := by
    have opens : C.Heeds True p (openScope (stage.cell p.site) host hooks p.depth) := by
      refine Heeds.reading.bind fun slot => ?_
      cases slot
      case started => exact .pure _
      all_goals exact (own.keep rfl).bind fun _ => Heeds.trace.bind fun _ => enters
    have closes : ∀ st, C.Heeds True p (closeScope (stage.cell p.site) hooks p.depth st) := fun st =>
      .ite (fun _ => own.forget.bind fun _ => Heeds.trace.bind fun _ => .remember (exits st)) fun _ => .pure _
    refine .depth (opens.bind fun _ => child.tick.bind fun _ => ?_)
    exact child.settleReturn.bind fun st => (closes st).bind fun _ => .pure _
  reset fire := by
    refine Heeds.reading.bind fun slot => ?_
    cases slot
    case started =>
      refine own.forget.bind fun _ => (child.reset fire).bind fun _ => ?_
      exact .ite (fun _ => .remember (exits .running)) fun _ => .pure _
    all_goals exact .pure _

end

end Conduct

end BehaviorTree
