/-
  BehaviorTree.Proofs.Lockstep.Behaviours: each behaviour goes in lockstep with itself.

  A behaviour in two surroundings, with related cells (`Cells`) and children that go in
  lockstep (`Locked`), ticks and resets in lockstep. The slots may differ in the numbers of
  called trees, which no node but a call looks at.
-/

import BehaviorTree.Proofs.Lockstep
import BehaviorTree.Node.Behaviour

namespace BehaviorTree

variable {ρ ρ' μ σ α : Type}

/-- The slot with the called tree renamed. -/
def Slot.mapTrees (π : TreeId → TreeId) : Slot σ → Slot σ
  | call tree state => call (π tree) state
  | slot => slot

theorem Slot.mapTrees_id (slot : Slot σ) : slot.mapTrees id = slot := by cases slot <;> rfl

section
variable {π : TreeId → TreeId} (slot : Slot σ)

@[simp] theorem Slot.mapTrees_time : (slot.mapTrees π).time = slot.time := by cases slot <;> rfl
@[simp] theorem Slot.mapTrees_count : (slot.mapTrees π).count = slot.count := by cases slot <;> rfl
@[simp] theorem Slot.mapTrees_board : (slot.mapTrees π).board = slot.board := by cases slot <;> rfl
@[simp] theorem Slot.mapTrees_child? : (slot.mapTrees π).child? = slot.child? := by cases slot <;> rfl
@[simp] theorem Slot.mapTrees_childStates (n : Nat) : (slot.mapTrees π).childStates n = slot.childStates n := by
  cases slot <;> rfl

end

/-- Cells that stay related, as far as the relation for a depth allows to use them. -/
structure Cells (fine : ρ' → Prop) (π : TreeId → TreeId) (T : Nat → ρ → ρ' → Prop) (cell : Cell ρ σ)
    (cell' : Cell ρ' σ) : Prop where
  get : ∀ {d s r}, T d s r → cell.get s d = (cell'.get r d).mapTrees π
  set : ∀ {d s r} x, T d s r → T d (cell.set s d (x.mapTrees π)) (cell'.set r d x)
  reset : ∀ {d s r}, T d s r → T d (cell.reset s d) (cell'.reset r d)
  fine_set : ∀ {d r x}, fine (cell'.set r d x) → fine r
  fine_reset : ∀ {d r}, fine (cell'.reset r d) → fine r

namespace Cells

variable {fine : ρ' → Prop} {π : TreeId → TreeId} {T : Nat → ρ → ρ' → Prop} {cell : Cell ρ σ} {cell' : Cell ρ' σ}
  (c : Cells fine π T cell cell') (d e : Nat)
include c

theorem read : Sim fine (Along (T d) e) (Slot.mapTrees π) (Cell.read (μ := μ) cell d) (cell'.read d) (Along (T d) e) :=
  .step _ id (fun _ => rfl) (fun _ h => h) fun m _ h _ => ⟨m, by rw [← c.get h.runs]; rfl, h⟩

theorem keep (x : Slot σ) : Lock fine (T d) e (Cell.keep (μ := μ) cell d (x.mapTrees π)) (cell'.keep d x) :=
  .step _ _ (fun _ => rfl) (fun _ => c.fine_set) fun _ _ h _ =>
    ⟨_, rfl, ⟨h.same.context, h.same.memory, h.same.journal, h.same.heard⟩, h.depth, c.set x h.runs⟩

theorem forget : Lock fine (T d) e (Cell.forget (μ := μ) cell d) (cell'.forget d) :=
  .step _ _ (fun _ => rfl) (fun _ => c.fine_reset) fun _ _ h _ =>
    ⟨_, rfl, ⟨h.same.context, h.same.memory, h.same.journal, h.same.heard⟩, h.depth, c.reset h.runs⟩

theorem take : Sim fine (Along (T d) e) (Slot.mapTrees π) (Cell.take (μ := μ) cell d) (cell'.take d) (Along (T d) e) :=
  .step _ _ (fun _ => rfl) (fun _ => c.fine_reset) fun m _ h _ =>
    ⟨{ m with runs := cell.reset m.runs d }, by rw [← c.get h.runs]; rfl,
      ⟨h.same.context, h.same.memory, h.same.journal, h.same.heard⟩, h.depth, c.reset h.runs⟩

end Cells

/-- Two behaviours go in lockstep, where the relation for each depth is kept. -/
structure Locked (fine : ρ' → Prop) (own : Nat → ρ → ρ' → Prop) (b : Behaviour ρ μ σ) (b' : Behaviour ρ' μ σ) :
    Prop where
  tick : ∀ d, Lock fine (own d) d b.tick b'.tick
  reset : ∀ d e fire, Lock fine (own d) e (b.reset d fire) (b'.reset d fire)

namespace Behaviour

section
variable {fine : ρ' → Prop} {π : TreeId → TreeId} {own : Nat → ρ → ρ' → Prop} {cell : Cell ρ σ} {cell' : Cell ρ' σ}
  {b : Behaviour ρ μ σ} {b' : Behaviour ρ' μ σ} (c : Cells fine π own cell cell')

/-! ## Ticks of leaves -/

include c

theorem keptAnswer_lock {every : Duration} (d : Nat) :
    Lock fine (own d) d (keptAnswer (μ := μ) cell every d) (keptAnswer cell' every d) := by
  refine (c.read d d).bind fun y => ?_
  cases y
  case answered answer since =>
    refine Lock.delta.bind fun _ => .ite (fun _ => .pure _) fun _ => ?_
    exact (c.keep d d (.answered answer _)).bind fun _ => .pure _
  all_goals exact .pure _

theorem condition_lock {holds : Predicate μ σ} {every : Duration} (d : Nat) :
    Lock fine (own d) d (condition cell holds every).tick (condition cell' holds every).tick := by
  refine Lock.depth (R := own) (fun e => ?_) d
  refine .ite (fun _ => (keptAnswer_lock c e).bind fun answer => ?_) fun _ => Lock.test.bind fun _ => .pure _
  cases answer with
  | some answer => exact .pure _
  | none => exact Lock.test.bind fun answer => (c.keep e e (.answered answer 0)).bind fun _ => .pure _

theorem waitUntil_lock {holds : Predicate μ σ} {every : Duration} (d : Nat) :
    Lock fine (own d) d (waitUntil cell holds every).tick (waitUntil cell' holds every).tick := by
  refine Lock.depth (R := own) (fun e => ?_) d
  refine (keptAnswer_lock c e).bind fun _ => .ite (fun _ => .pure _) fun _ => ?_
  refine Lock.test.bind fun _ => .ite (fun _ => (c.forget e e).bind fun _ => .pure _) fun _ => ?_
  exact (c.keep e e (.answered false 0)).bind fun _ => .pure _

theorem wait_lock {duration : Duration} (d : Nat) :
    Lock fine (own d) d (wait (μ := μ) cell duration).tick (wait cell' duration).tick := by
  refine Lock.depth (R := own) (fun e => ?_) d
  refine (c.read e e).bind fun y => Lock.delta.bind fun _ => ?_
  rw [Slot.mapTrees_time]
  refine .ite (fun _ => (c.forget e e).bind fun _ => .pure _) fun _ => ?_
  exact (c.keep e e (.elapsed _)).bind fun _ => .pure _

theorem pause_lock (d : Nat) : Lock fine (own d) d (pause (μ := μ) cell).tick (pause cell').tick := by
  refine Lock.depth (R := own) (fun e => ?_) d
  refine (c.read e e).bind fun y => ?_
  cases y
  case started => exact (c.forget e e).bind fun _ => .pure _
  all_goals exact (c.keep e e .started).bind fun _ => .pure _

omit c in
theorem earlyReturn_lock {v : Verdict} (d : Nat) :
    Lock fine (own d) d (earlyReturn (ρ := ρ) (μ := μ) (σ := σ) v).tick (earlyReturn v).tick := by
  refine Lock.requestReturn.bind fun _ => Lock.depth (R := own) (fun _ => ?_) d
  exact Lock.trace.bind fun _ => .pure _

/-! ## Ticks of nodes with one child -/

theorem note_lock (d e : Nat) (s : Status) : Lock fine (own d) e (Cell.note (μ := μ) cell d s) (cell'.note d s) := by
  cases s
  case running => exact c.keep d e .started
  all_goals exact c.keep d e .idle

theorem invert_lock (child : Locked fine own b b') (d : Nat) :
    Lock fine (own d) d (invert cell b).tick (invert cell' b').tick := by
  refine (child.tick d).bind fun s => Lock.depth (R := own) (fun e => ?_) d
  exact (note_lock c e e s).bind fun _ => .pure _

theorem force_lock {v : Verdict} (child : Locked fine own b b') (d : Nat) :
    Lock fine (own d) d (force cell v b).tick (force cell' v b').tick := by
  refine (child.tick d).bind fun s => Lock.depth (R := own) (fun e => ?_) d
  exact (note_lock c e e s).bind fun _ => .pure _

theorem repeatUntil_lock {v : Verdict} (child : Locked fine own b b') (d : Nat) :
    Lock fine (own d) d (repeatUntil cell v b).tick (repeatUntil cell' v b').tick := by
  refine (child.tick d).bind fun s => Lock.depth (R := own) (fun e => ?_) d
  refine (note_lock c e e s).bind fun _ => Lock.returning.bind fun _ => ?_
  exact .ite (fun _ => .pure _) fun _ => .pure _

theorem guard_lock {holds : Predicate μ σ} (child : Locked fine own b b') (d : Nat) :
    Lock fine (own d) d (guard cell holds b).tick (guard cell' holds b').tick := by
  have admits : ∀ e, Lock fine (own e) e (admits cell holds e) (admits cell' holds e) := by
    intro e
    refine (c.read e e).bind fun y => ?_
    cases y
    case started => exact .pure _
    all_goals exact Lock.test
  refine Lock.depth (R := own) (fun e => ?_) d
  refine (admits e).bind fun _ => .ite (fun _ => ?_) fun _ => .pure _
  exact (child.tick e).bind fun s => (note_lock c e e s).bind fun _ => .pure _

theorem iterate_lock {goOn : Verdict} {spent : UInt32 → Bool} (child : Locked fine own b b') (d : Nat) :
    Lock fine (own d) d (iterate cell goOn spent b).tick (iterate cell' goOn spent b').tick := by
  refine Lock.depth (R := own) (fun e => ?_) d
  refine (child.tick e).bind fun s => Lock.returning.bind fun _ => ?_
  refine .ite (fun _ => (c.forget e e).bind fun _ => .pure _) fun _ => ?_
  refine .ite (fun _ => (c.read e e).bind fun y => ?_) fun _ => ?_
  · rw [Slot.mapTrees_count]
    exact (c.keep e e (.iterations _ true)).bind fun _ => .pure _
  refine .ite (fun _ => (c.forget e e).bind fun _ => .pure _) fun _ => (c.read e e).bind fun y => ?_
  rw [Slot.mapTrees_count]
  refine .ite (fun _ => (c.forget e e).bind fun _ => .pure _) fun _ => ?_
  exact (c.keep e e (.iterations _ false)).bind fun _ => .pure _

theorem timeout_lock {duration : Duration} (child : Locked fine own b b') (d : Nat) :
    Lock fine (own d) d (timeout cell duration b).tick (timeout cell' duration b').tick := by
  refine Lock.depth (R := own) (fun e => ?_) d
  refine (c.read e e).bind fun y => Lock.delta.bind fun _ => (child.tick e).bind fun s => ?_
  refine .ite (fun _ => (c.forget e e).bind fun _ => .pure _) fun _ => ?_
  rw [Slot.mapTrees_time]
  refine .ite (fun _ => ?_) fun _ => (c.keep e e (.elapsed _)).bind fun _ => .pure _
  exact (c.forget e e).bind fun _ => (child.reset e e true).bind fun _ => .pure _

theorem release_lock {duration : Duration} (d : Nat) :
    Lock fine (own d) d (release (μ := μ) cell duration d) (release cell' duration d) := by
  have counts : ∀ time : Float32, Lock fine (own d) d
      (do
        let time := time + (← Run.delta (μ := μ))
        let passed := decide (duration.length ≤ time)
        cell.keep d (if passed then .released else .elapsed time)
        return passed)
      (do
        let time := time + (← Run.delta)
        let passed := decide (duration.length ≤ time)
        cell'.keep d (if passed then .released else .elapsed time)
        return passed) := by
    refine fun time => Lock.delta.bind fun δ => ?_
    dsimp only
    cases decide (duration.length ≤ time + δ)
    · exact (c.keep d d (.elapsed _)).bind fun _ => .pure _
    · exact (c.keep d d .released).bind fun _ => .pure _
  refine (c.read d d).bind fun y => ?_
  cases y
  case released => exact .pure _
  all_goals exact counts _

theorem delay_lock {duration : Duration} (child : Locked fine own b b') (d : Nat) :
    Lock fine (own d) d (delay cell duration b).tick (delay cell' duration b').tick := by
  refine Lock.depth (R := own) (fun e => ?_) d
  refine (release_lock c e).bind fun _ => .ite (fun _ => ?_) fun _ => .pure _
  refine (child.tick e).bind fun s => .ite (fun _ => ?_) fun _ => .pure _
  exact (c.forget e e).bind fun _ => .pure _

end

end Behaviour

end BehaviorTree
