/-
  BehaviorTree.Proofs.Course.Trees: what trees add to the nodes keeps to every course.

  Looking a tree up, choosing a child and starting a top-level tick touch neither slots nor
  layers. A top-level tick inside another one runs in a context of its own over the layers in
  place, and hands the layers back.
-/

import BehaviorTree.Proofs.Course
import BehaviorTree.System

namespace BehaviorTree

variable {ρ μ σ α : Type} {sys : System μ σ} {stage : Stage ρ μ σ} {C : Course stage} {host : Host ρ μ σ}
  {tree : TreeId} {delta : Float32} {state : Option σ}

/-- Ticks and resets that callbacks start keep to the course. -/
structure Course.Hosts (C : Course stage) (host : Host ρ μ σ) : Prop where
  tick : ∀ tree delta, C.Leads (host.tickTree tree delta)
  reset : ∀ tree fire, C.Leads (host.resetTree tree fire)

namespace Course.Leads

theorem resolve {source : Source μ} : C.Leads (sys.resolve stage source) := by
  rcases source with (tree | tree) | provide
  · exact .pure _
  · exact .reading
  · exact .consult

theorem pick {policy : Policy μ} {site : Address} (count : Nat) : C.Leads ((stage.chooser site policy).pick count) := by
  cases policy with
  | picker initial => exact .store fun _ _ _ => rfl
  | custom pick complete => exact .consult

theorem complete {policy : Policy μ} {site : Address} (i : Nat) : C.Leads ((stage.chooser site policy).complete i) := by
  cases policy with
  | picker initial => exact .store fun _ _ _ => rfl
  | custom pick complete => exact .remember

theorem inUse {a : Run ρ μ σ α} (work : C.Leads a) : C.Leads (System.inUse stage tree a) :=
  .bind (.modifyStore fun _ _ => rfl) fun _ => work.bind fun _ => .bind (.modifyStore fun _ _ => rfl) fun _ => .pure _

variable (works : ∀ levels tree, C.Leads (sys.tickRoot stage host levels tree))
include works

theorem tickFresh {tick : UInt64} : C.Leads (sys.tickFresh stage host tree tick delta state) := by
  intro m
  have here : C.Leads (sys.tickHere stage host tree) := fun n => works _ tree n
  show C.Came m ((sys.tickHere stage host tree >>= _)
    { m with context := sys.freshContext tree tick delta state m.context.layers })
  refine here.lent rfl fun status n _ => ⟨{ m.context with layers := n.context.layers }, rfl, rfl, ?_⟩
  have noted : C.Leads (do
      stage.modifyStore (·.onProgress tree ({ · with overflow := n.context.overflow }))
      return status : Run ρ μ σ Status) := .bind (.modifyStore fun _ _ => rfl) fun _ => .pure _
  exact noted _

theorem tickWith : C.Leads (sys.tickWith stage host tree delta state) := by
  refine Leads.reading.bind fun m => .bind (.modifyStore fun _ _ => rfl) fun _ => ?_
  refine .ite (tickFresh works) (.ite (Leads.report.bind fun _ => .pure _) ?_)
  refine .bind (.modifyStore fun _ _ => rfl) fun _ => (tickFresh works).bind fun _ => ?_
  exact .bind (.modifyStore fun _ _ => rfl) fun _ => .pure _

end Course.Leads

end BehaviorTree
