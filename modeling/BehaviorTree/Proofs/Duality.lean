/-
  BehaviorTree.Proofs.Duality: selectors are inverted sequences of inverted children.

  A selector and a sequence are written apart, and so are the two policies of the parallel node
  and of the join. Still each does what the other does when the results of its children and its
  own are swapped: the same children are ticked and abandoned in the same order and at the same
  depths, with the same answers, whatever they do to the context, also when they ask for a
  return while running (`de_morgan`). No parent can tell the two apart.
-/

import BehaviorTree.Proofs.ContextFrame
import BehaviorTree.Proofs.Duality.Concurrent

namespace BehaviorTree

variable {ρ μ σ : Type}

open Behaviour

namespace Duals

variable {left : Behaviour (Trial (DepthSlots (Slot σ)) ρ) μ σ} {right : Behaviour (Trial (Wrapped σ) ρ) μ σ}
  (h : Duals left right)
include h

/-- Whatever the turns are, the node in its inverter shows what the first node does. -/
theorem follow (turns : List (Turn ρ μ σ)) (m : Machine (Trial (Wrapped σ) ρ) μ σ)
    (stands : ∀ e, m.runs.own.Standing e) :
    Shown id (fun _ n => ∀ e, n.runs.own.Standing e) (left.follow turns m.front)
      ((invert Wrapped.aroundCell right).follow turns m) := by
  induction turns generalizing m with
  | nil => exact .ok (y := []) stands
  | cons turn turns ih =>
    cases turn with
    | tick =>
      refine Shown.bind (h.inverted_tick m.context.depth m rfl stands) fun s n later => ?_
      exact Shown.bind (ih n later.2) fun ss n' stands => .ok (y := s :: ss) stands
    | reset depth fire =>
      exact Shown.bind (h.inverted_reset m.context.depth depth fire m rfl stands) fun _ n later => ih n later.2
    | aside change =>
      have aside : Shown id (fun _ n => ∀ e, n.runs.own.Standing e) (change.below m.front) (change.below m) := by
        have same : m.front.withRuns m.front.runs.below = m.withRuns m.runs.below := rfl
        unfold Run.below
        rw [same]
        cases change (m.withRuns m.runs.below) with
        | ok x n => exact .ok (y := x) (n := n.withRuns { m.runs with below := n.runs }) stands
        | error e n => exact .error (e := e) (n := n.withRuns { m.runs with below := n.runs })
      exact Shown.bind aside fun _ n stands => ih n stands

theorem observed_eq (turns : List (Turn ρ μ σ)) (m : Machine ρ μ σ) :
    left.observed {} turns m = (invert Wrapped.aroundCell right).observed {} turns m := by
  have shown := h.follow turns (m.withRuns { below := m.runs, own := {} }) fun e =>
    ⟨.of_idle (DepthSlots.get_empty e), .inl (DepthSlots.get_empty e)⟩
  have start : Machine.front (m.withRuns { below := m.runs, own := ({} : Wrapped σ) })
      = m.withRuns { below := m.runs, own := {} } := by
    have fresh : ({} : Wrapped σ).front = {} := by simp [Wrapped.front, DepthSlots.map]
    simp only [Machine.front, Trial.view, Machine.withRuns, fresh]
  rw [start] at shown
  unfold observed
  generalize left.follow turns _ = x at shown ⊢
  generalize (invert Wrapped.aroundCell right).follow turns _ = y at shown ⊢
  cases shown <;> rfl

end Duals

/-- Over the same children, whatever they are, a node and its opposite in inverters cannot be told apart: ticked and
reset in any order and at any depths, with anything going on around them, they give the same answers, tick and
reset the same children at the same depths in the same order, and leave everything else in the same state. This
holds for parents that abandon the node only while it is running, and for all others. -/
theorem de_morgan (children : List (Behaviour ρ μ σ)) (level : ∀ child ∈ children, child.Level)
    (turns : List (Turn ρ μ σ)) (m : Machine ρ μ σ) :
    (selector Trial.slots (seats children)).observed {} turns m =
        (invert Wrapped.aroundCell (sequence Wrapped.nodeCell (invertedSeats children))).observed {} turns m ∧
      (reactiveSelector Trial.slots (seats children)).observed {} turns m =
        (invert Wrapped.aroundCell (reactiveSequence Wrapped.nodeCell (invertedSeats children))).observed {} turns m ∧
      (parallel Trial.slots .one (seats children)).observed {} turns m =
        (invert Wrapped.aroundCell (parallel Wrapped.nodeCell .all (invertedSeats children))).observed {} turns m ∧
      (join Trial.slots .any (seats children)).observed {} turns m =
        (invert Wrapped.aroundCell (join Wrapped.nodeCell .all (invertedSeats children))).observed {} turns m :=
  ⟨(inOrder_duals level .success).observed_eq turns m,
    (reactive_duals level .success).observed_eq turns m,
    (parallel_duals level).observed_eq turns m, (join_duals level).observed_eq turns m⟩

/-! ## Nodes of a system as children -/

/-- Every node in a tick in progress ends at the depth at which it started. -/
theorem node_level (sys : System μ σ) (aloof : sys.Aloof) (modest : sys.Modest False) {site : Address}
    {node : Node μ σ} (here : sys.nodeAt site = some node) (host : Host (Store σ) μ σ) (levels : Nat) :
    (node.behaviour (sys.tickLinks .plain host (sys.tickRoot .plain host levels)) site).Level := by
  have any : Board.Lasting fun _ _ => True := ⟨fun _ => trivial, fun _ _ => trivial, fun _ _ => trivial⟩
  have upheld : (sys.restoring .plain any).Upheld :=
    System.restoring_upheld any aloof modest System.respects_any fun _ _ => rfl
  refine ⟨fun m status m' ticked => ?_, fun depth fire m m' reset => ?_⟩
  · have came := (upheld.inTick host levels here m.context.depth).tick m fun _ => rfl
    rw [ticked] at came
    cases came with
    | ok _ passed => exact passed.depth
  · have came := (upheld.inTick host levels here depth).reset fire m nofun
    rw [reset] at came
    cases came with
    | ok _ passed => exact passed.depth

/-- A child that asks for a return while it is running, after one that fails. -/
def hesitant : List (Behaviour Unit Unit Unit) :=
  [.ofTick (pure .failure), .ofTick (do Run.requestReturn .success; return .running)]

/-- The node is ticked, abandoned, and ticked again at another depth, where the return has been taken. -/
def interrupted : List (Turn Unit Unit Unit) :=
  [.tick, .reset 0 true, .aside (Run.onContext fun c => { c with depth := 1, returnRequest := none }), .tick]

/-- What was answered, and what was asked of the children. -/
def seenOf (result : EStateM.Result Fault (Machine (Trial Unit ρ) μ σ) (List Status)) :
    Option (List Status × List Errand) :=
  match result with
  | .ok statuses m => some (statuses, m.runs.errands)
  | .error _ _ => none

/-- The child that asked for a return is not abandoned by the sequence's reset either. -/
theorem hesitant_dual : seenOf ((invert Wrapped.aroundCell (sequence Wrapped.nodeCell (invertedSeats hesitant))).observed
      {} interrupted ⟨{}, (), (), #[], #[]⟩) =
    some ([.running, .running], [.tick 0 0, .tick 1 0, .tick 0 1, .tick 1 1]) := by
  have level : ∀ child ∈ hesitant, child.Level := by
    intro child among
    simp only [hesitant, List.mem_cons, List.not_mem_nil, or_false] at among
    rcases among with rfl | rfl
    · exact ⟨fun _ _ _ h => by cases h; rfl, fun _ _ _ _ h => by cases h; rfl⟩
    · exact ⟨fun _ _ _ h => by cases h; rfl, fun _ _ _ _ h => by cases h; rfl⟩
  rw [← (de_morgan hesitant level interrupted _).1]
  decide +kernel

end BehaviorTree
