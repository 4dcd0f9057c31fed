/-
  BehaviorTree.Proofs.Flattening: a node in a node of its own kind is as good as its children.

  A sequence among the children of a sequence may be replaced by its own children, if it has any,
  and so may a selector in a selector, and the reactive ones (`flattening`). The nested form
  spreads what the flat one remembers over two nodes, and what abandons a child may be the inner
  node, the outer one, or the outer one through the inner one. No parent can tell: the answers
  are the same, and the children are ticked and reset at the same moments in the same order,
  also when they ask for early returns, whatever goes on around the nodes.
-/

import BehaviorTree.Proofs.Duality
import BehaviorTree.Proofs.Flattening.Reactive
import BehaviorTree.Proofs.ResetFrame

namespace BehaviorTree

variable {ρ μ σ : Type} {n k l : Nat}

open Behaviour Nested

/-- A flat node and a nested one that come to the same as long as their records fit, and leave them so. -/
structure Flattens (n k l : Nat) (flat : Behaviour (Trial (DepthSlots (Slot σ)) ρ) μ σ)
    (nested : Behaviour (Trial (Nested σ) ρ) μ σ) : Prop where
  tick : Matches (fun _ => Fitting n k l) flat.tick nested.tick fun _ _ => Fitting n k l
  reset : ∀ depth fire,
    Matches (fun _ => Fitting n k l) (flat.reset depth fire) (nested.reset depth fire) fun _ _ => Fitting n k l

namespace Flattens

variable {flat : Behaviour (Trial (DepthSlots (Slot σ)) ρ) μ σ} {nested : Behaviour (Trial (Nested σ) ρ) μ σ}
  (h : Flattens n k l flat nested)
include h

/-- Whatever the turns are, the nodes come to the same. -/
theorem follow (turns : List (Turn ρ μ σ)) :
    Matches (fun _ => Fitting n k l) (flat.follow turns) (nested.follow turns) fun _ _ => Fitting n k l := by
  induction turns with
  | nil => exact .pure fun _ _ _ fits => fits
  | cons turn turns ih =>
    cases turn with
    | tick => exact h.tick.bind fun s => ih.bind fun ss => .pure fun _ _ _ fits => fits
    | reset depth fire => exact (h.reset depth fire).bind fun _ => ih
    | aside change => exact (Matches.below fun _ _ _ _ _ _ fits => fits).bind fun _ => ih

theorem observed_eq (turns : List (Turn ρ μ σ)) (m : Machine ρ μ σ) :
    nested.observed {} turns m = flat.observed {} turns m := by
  have came := h.follow turns (m.withRuns { below := m.runs, own := {} }) ({} : Nested σ) fitting_fresh
  unfold observed
  show Run.mapRuns _ (nested.follow turns (Machine.owning (m.withRuns { below := m.runs, own := ({} : DepthSlots (Slot σ)) }) ({} : Nested σ))) = _
  generalize flat.follow turns _ = x at came ⊢
  generalize nested.follow turns _ = y at came ⊢
  cases came <;> rfl

end Flattens

section
variable {xs ys zs : List (Behaviour ρ μ σ)} (secluded : ∀ child ∈ xs ++ ys ++ zs, child.Secluded)
include secluded

theorem resetChild_matches {node : List (Behaviour (Trial (Nested σ) ρ) μ σ) → Behaviour (Trial (Nested σ) ρ) μ σ}
    (resets : ∀ bs d fire, (node bs).reset d fire = innerCell.resetChild bs d fire) (depth : Nat) (fire : Bool) :
    Matches (fun _ => Fitting xs.length ys.length zs.length)
      (Trial.slots.resetChild (seats (xs ++ ys ++ zs)) depth fire)
      (outerCell.resetChild (seatsAround node xs ys zs) depth fire)
      fun _ _ => Fitting xs.length ys.length zs.length := fun m w fits =>
  (Matches.resetChild_around resets secluded (fits depth) m w fits.standing).mono fun _ _ _ _ h => h.fitting .idle

variable (nonempty : ys ≠ []) (pass : Verdict)
include nonempty

theorem inOrder_flattens : Flattens xs.length ys.length zs.length
    (inOrder Trial.slots pass (seats (xs ++ ys ++ zs)))
    (inOrder outerCell pass (seatsAround (inOrder innerCell pass) xs ys zs)) where
  tick m w fits := Matches.inOrder_tick secluded nonempty m w ⟨rfl, fits⟩
  reset := resetChild_matches secluded fun _ _ _ => rfl

theorem reactive_flattens : Flattens xs.length ys.length zs.length
    (reactive Trial.slots pass (seats (xs ++ ys ++ zs)))
    (reactive outerCell pass (seatsAround (reactive innerCell pass) xs ys zs)) where
  tick m w fits := Matches.reactive_tick secluded nonempty m w ⟨rfl, fits⟩
  reset := resetChild_matches secluded fun _ _ _ => rfl

end

/-- Over the same children, whatever they are, a node that has a node of its own kind among them cannot be told from
the node that has the children of that one in its place: ticked and reset in any order and at any depths, with
anything going on around them, they give the same answers, tick and reset the same children at the same depths and
with the same flag in the same order, and leave everything else in the same state. This holds for parents that abandon
the node only while it is running, and for all others. -/
theorem flattening (xs ys zs : List (Behaviour ρ μ σ)) (nonempty : ys ≠ [])
    (secluded : ∀ child ∈ xs ++ ys ++ zs, child.Secluded) (turns : List (Turn ρ μ σ)) (m : Machine ρ μ σ) :
    (sequence outerCell (seatsAround (sequence innerCell) xs ys zs)).observed {} turns m =
        (sequence Trial.slots (seats (xs ++ ys ++ zs))).observed {} turns m ∧
      (selector outerCell (seatsAround (selector innerCell) xs ys zs)).observed {} turns m =
        (selector Trial.slots (seats (xs ++ ys ++ zs))).observed {} turns m ∧
      (reactiveSequence outerCell (seatsAround (reactiveSequence innerCell) xs ys zs)).observed {} turns m =
        (reactiveSequence Trial.slots (seats (xs ++ ys ++ zs))).observed {} turns m ∧
      (reactiveSelector outerCell (seatsAround (reactiveSelector innerCell) xs ys zs)).observed {} turns m =
        (reactiveSelector Trial.slots (seats (xs ++ ys ++ zs))).observed {} turns m :=
  ⟨(inOrder_flattens secluded nonempty .success).observed_eq turns m,
    (inOrder_flattens secluded nonempty .failure).observed_eq turns m,
    (reactive_flattens secluded nonempty .success).observed_eq turns m,
    (reactive_flattens secluded nonempty .failure).observed_eq turns m⟩

/-! ## Nodes of a system as children -/

/-- Every node in a tick in progress ends at the depth at which it started, and its resets leave the context alone. -/
theorem node_secluded (sys : System μ σ) (aloof : sys.Aloof) (modest : sys.Modest False) {site : Address}
    {node : Node μ σ} (here : sys.nodeAt site = some node) (host : Host (Store σ) μ σ) (levels : Nat) :
    (node.behaviour (sys.tickLinks .plain host (sys.tickRoot .plain host levels)) site).Secluded where
  tick := (node_level sys aloof modest here host levels).tick
  reset depth fire m m' reset :=
    (System.inTick_resets (fun _ _ same => same) host _ node site depth fire m () m' reset).context

/-- A child that answers what the memory tells it to, and asks for a return when it is told so. -/
def told : Behaviour Unit (List (Status × Bool)) Unit :=
  .ofTick do
    let (status, asks) ← Run.consult fun answers => (answers.headD (.failure, false), answers.tail)
    if asks then Run.requestReturn status
    return status

/-- The node is ticked three times, then the return is taken that is asked for, and the node is abandoned. -/
def thrice : List (Turn Unit (List (Status × Bool)) Unit) :=
  [.tick, .tick, .tick, .aside (do let _ ← Run.takeReturn), .reset 0 false]

/-- The last child is left running and then preempted by one in the inner node, and this one by a child before it
in the same node, which asks for a return while it is running. That one is not remembered. -/
theorem flattening_preempts :
    seenOf ((reactiveSequence outerCell (seatsAround (reactiveSequence innerCell) [told] [told, told] [told])).observed {}
      thrice ⟨{}, [(.success, false), (.success, false), (.success, false), (.running, false), (.success, false),
        (.success, false), (.running, false), (.success, false), (.running, true)], (), #[], #[]⟩) =
    some ([.running, .running, .running],
      [.tick 0 0, .tick 1 0, .tick 2 0, .tick 3 0, .tick 0 0, .tick 1 0, .tick 2 0, .reset 3 0 true,
        .tick 0 0, .tick 1 0, .reset 2 0 true]) := by
  have secluded : told.Secluded := by
    refine ⟨fun m status m' h => ?_, fun _ _ _ _ h => by cases h; rfl⟩
    simp only [told, Behaviour.ofTick, Run.requestReturn, Run.bind_eq_ok, Run.consult_eq_ok, Run.onContext_eq_ok,
      Run.ite_eq_ok, Run.pure_eq_ok] at h
    obtain ⟨_, _, ⟨rfl, rfl⟩, ⟨-, _, _, rfl, -, rfl⟩ | ⟨-, -, rfl⟩⟩ := h
    all_goals rfl
  rw [(flattening [told] [told, told] [told] (by simp) (by simp [secluded]) _ _).2.2.1]
  decide +kernel

end BehaviorTree
