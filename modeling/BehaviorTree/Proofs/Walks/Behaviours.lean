/-
  BehaviorTree.Proofs.Walks.Behaviours: the ticks of ordinary nodes, told by deeds.

  An ordinary node ticks its children, resets them, and reads and writes its own slot, in
  whatever order its behaviour says. Each behaviour is gone through once, whatever is
  remembered and whatever the children answer.
-/

import BehaviorTree.Proofs.Walks

namespace BehaviorTree

variable {μ σ : Type} {sys : System μ σ} {takes : Prop} {limit : Nat} {p : Place} {path : List Place}
  {node : Node μ σ} {b : Behaviour (Recorded μ σ) μ σ} {bs : List (Behaviour (Recorded μ σ) μ σ)}

namespace System

/-- A tick of the node at a place that is entered already, up to its answer. -/
abbrev Answering (sys : System μ σ) (takes : Prop) (limit : Nat) (p : Place) (path : List Place)
    (a : Run (Recorded μ σ) μ σ Status) : Prop := sys.Walks takes limit (.within (p :: path)) a (.leaving (p :: path))

/-- Something in between. -/
abbrev Underway (sys : System μ σ) (takes : Prop) (limit : Nat) (p : Place) (path : List Place) {α : Type}
    (a : Run (Recorded μ σ) μ σ α) : Prop :=
  sys.Walks takes limit (.within (p :: path)) a fun _ => .within (p :: path)

namespace Working

open Behaviour

variable (w : sys.Working p node)
include w

/-! ## Leaves -/

/-- The answer of a callback is the answer of its node. -/
theorem callback_answers {host : Host (Recorded μ σ) μ σ} (resets : sys.SweepingHost host) {body : Callback μ σ Status}
    (modest : body.Modest takes) : sys.Answering takes limit p path (body.run host) := by
  rw [← bind_pure (body.run host)]
  exact (w.callback resets modest).bind fun st => w.finish st

theorem keptAnswer {every : Duration} :
    sys.Underway takes limit p path (keptAnswer (Stage.recording.cell p.site) every p.depth) := by
  refine (w.aside .reading).bind fun slot => ?_
  cases slot
  case answered answer since =>
    refine (w.aside .reading).bind fun _ => .ite (fun _ => .stay _) fun _ => ?_
    exact (w.keep rfl).bind fun _ => .stay _
  all_goals exact .stay _

theorem waitUntil {holds : Predicate μ σ} {every : Duration} :
    sys.Answering takes limit p path (waitUntil (Stage.recording.cell p.site) holds every).tick := by
  refine Walks.depth (w.keptAnswer.bind fun _ => .ite (fun _ => w.finish _) fun _ => ?_)
  refine (w.aside .memory).bind fun _ => .ite (fun _ => w.forget.bind fun _ => w.finish _) fun _ => ?_
  exact (w.keep rfl).bind fun _ => w.finish _

theorem wait {duration : Duration} :
    sys.Answering takes limit p path (wait (Stage.recording.cell p.site) duration).tick := by
  refine Walks.depth ((w.aside .reading).bind fun _ => (w.aside .reading).bind fun _ => ?_)
  refine .ite (fun _ => w.forget.bind fun _ => w.finish _) fun _ => ?_
  exact (w.keep rfl).bind fun _ => w.finish _

theorem pause : sys.Answering takes limit p path (pause (Stage.recording.cell p.site)).tick := by
  refine Walks.depth ((w.aside .reading).bind fun slot => ?_)
  cases slot
  case started => exact w.forget.bind fun _ => w.finish _
  all_goals exact (w.keep rfl).bind fun _ => w.finish _

theorem earlyReturn {v : Verdict} : sys.Answering takes limit p path (earlyReturn (ρ := Recorded μ σ) v).tick := by
  refine .bind (w.aside (.onContext fun _ => ⟨rfl, rfl, rfl, rfl⟩)) fun _ => Walks.depth ?_
  exact (w.aside .trace).bind fun _ => w.finish _

/-! ## One child -/

theorem note {st : Status} : sys.Underway takes limit p path ((Stage.recording.cell p.site).note p.depth st) := by
  cases st <;> exact w.keep rfl

variable {w}
variable (child : sys.Fares takes limit (0 :: p.site) p.depth b)
include child

theorem invert : sys.Answering takes limit p path (invert (Stage.recording.cell p.site) b).tick :=
  (w.tick child).bind fun _ => Walks.depth (w.note.bind fun _ => w.finish _)

theorem force {v : Verdict} : sys.Answering takes limit p path (force (Stage.recording.cell p.site) v b).tick :=
  (w.tick child).bind fun _ => Walks.depth (w.note.bind fun _ => w.finish _)

theorem repeatUntil {v : Verdict} :
    sys.Answering takes limit p path (repeatUntil (Stage.recording.cell p.site) v b).tick := by
  refine (w.tick child).bind fun _ => Walks.depth (w.note.bind fun _ => (w.aside .reading).bind fun _ => ?_)
  exact .ite (fun _ => w.finish _) fun _ => w.finish _

theorem guard {holds : Predicate μ σ} :
    sys.Answering takes limit p path (guard (Stage.recording.cell p.site) holds b).tick := by
  have admits : sys.Underway takes limit p path (admits (Stage.recording.cell p.site) holds p.depth) := by
    refine (w.aside .reading).bind fun slot => ?_
    cases slot
    case started => exact .stay _
    all_goals exact w.aside .memory
  refine Walks.depth (admits.bind fun _ => .ite (fun _ => ?_) fun _ => w.finish _)
  exact (w.tick child).bind fun _ => w.note.bind fun _ => w.finish _

theorem iterate {goOn : Verdict} {spent : UInt32 → Bool} :
    sys.Answering takes limit p path (iterate (Stage.recording.cell p.site) goOn spent b).tick := by
  refine Walks.depth ((w.tick child).bind fun _ => (w.aside .reading).bind fun _ => ?_)
  refine .ite (fun _ => w.forget.bind fun _ => w.finish _) fun _ => ?_
  refine .ite (fun _ => (w.aside .reading).bind fun _ => (w.keep rfl).bind fun _ => w.finish _) fun _ => ?_
  refine .ite (fun _ => w.forget.bind fun _ => w.finish _) fun _ => (w.aside .reading).bind fun _ => ?_
  exact .ite (fun _ => w.forget.bind fun _ => w.finish _) fun _ => (w.keep rfl).bind fun _ => w.finish _

theorem timeout {duration : Duration} :
    sys.Answering takes limit p path (timeout (Stage.recording.cell p.site) duration b).tick := by
  refine Walks.depth ((w.aside .reading).bind fun _ => (w.aside .reading).bind fun _ => (w.tick child).bind fun _ => ?_)
  refine .ite (fun _ => w.forget.bind fun _ => w.finish _) fun _ => .ite (fun _ => ?_) fun _ => ?_
  · exact w.forget.bind fun _ => (w.reset child true).bind fun _ => w.finish _
  · exact (w.keep rfl).bind fun _ => w.finish _

theorem delay {duration : Duration} :
    sys.Answering takes limit p path (delay (Stage.recording.cell p.site) duration b).tick := by
  have release : sys.Underway takes limit p path (release (Stage.recording.cell p.site) duration p.depth) := by
    refine (w.aside .reading).bind fun slot => ?_
    cases slot
    case released => exact .stay _
    all_goals
      refine (w.aside .reading).bind fun _ => .bind (w.keep ?_) fun _ => .stay _
      split <;> rfl
  refine Walks.depth (release.bind fun _ => .ite (fun _ => ?_) fun _ => w.finish _)
  refine (w.tick child).bind fun _ => .ite (fun _ => ?_) fun _ => w.finish _
  exact w.forget.bind fun _ => w.finish _

theorem localScope : sys.Answering takes limit p path (localScope (Stage.recording.cell p.site) b).tick := by
  refine Walks.depth (w.take.bind fun _ => ?_)
  refine .bind (w.aside (.onContext fun _ => ⟨rfl, rfl, rfl, rfl⟩)) fun _ => (w.tick child).bind fun _ => ?_
  refine (w.aside .reading).bind fun _ =>
    .bind (w.aside (.onContext fun _ => ⟨rfl, rfl, rfl, rfl⟩)) fun _ => .ite (fun _ => ?_) fun _ => w.finish _
  exact (w.keep rfl).bind fun _ => w.finish _

theorem settleReturn {st : Status} : sys.Underway takes limit p path (settleReturn b p.depth st) := by
  refine (w.aside .takeReturn).bind fun request => ?_
  cases request with
  | none => exact .stay _
  | some requested =>
    refine (w.aside .report).bind fun _ => .ite (fun _ => ?_) fun _ => .stay _
    exact (w.reset child true).bind fun _ => .stay _

theorem scope {host : Host (Recorded μ σ) μ σ} {hooks : Hooks μ σ} (resets : sys.SweepingHost host)
    (modest : hooks.onEnter.Modest takes) :
    sys.Answering takes limit p path (scope (Stage.recording.cell p.site) host hooks b).tick := by
  have opens : sys.Underway takes limit p path (openScope (Stage.recording.cell p.site) host hooks p.depth) := by
    refine (w.aside .reading).bind fun slot => ?_
    cases slot
    case started => exact .stay _
    all_goals exact (w.keep rfl).bind fun _ => (w.aside .trace).bind fun _ => w.callback resets modest
  have closes : ∀ st, sys.Underway takes limit p path (closeScope (Stage.recording.cell p.site) hooks p.depth st) :=
    fun st => .ite (fun _ => w.forget.bind fun _ => (w.aside .trace).bind fun _ => w.aside .memory) fun _ => .stay _
  refine Walks.depth (opens.bind fun _ => (w.tick child).bind fun _ => ?_)
  exact (w.settleReturn child).bind fun st => (closes st).bind fun _ => w.finish _

end Working

end System

end BehaviorTree
