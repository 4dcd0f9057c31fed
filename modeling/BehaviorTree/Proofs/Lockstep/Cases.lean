/-
  BehaviorTree.Proofs.Lockstep.Cases: a node of any kind, in lockstep with one of the same kind.

  Two nodes differ in the trees that their calls name, in where they are and in what is around
  them. When that goes in lockstep (`Companions`), and their children do, so do the nodes
  (`Companions.locked`).
-/

import BehaviorTree.Proofs.Copies
import BehaviorTree.Proofs.Lockstep.Resets

namespace BehaviorTree

variable {ρ ρ' μ σ : Type}

/-- What a node finds around it and below it goes in lockstep with what another node finds. While the nodes are
ticked, their slots are related as `own` says; when they are abandoned, as `T` says. -/
structure Companions (fine : ρ' → Prop) (π : TreeId → TreeId) (own T Q : Nat → ρ → ρ' → Prop) (kind : TreeId → Prop)
    (links : Links ρ μ σ) (links' : Links ρ' μ σ) (site site' : Address) (rename rename' : TreeId → TreeId)
    (node : Node μ σ) : Prop where
  watch : ∀ b b', (∀ d, Lock fine (own d) d b.tick b'.tick) → ResetLock fine T Q b.reset b'.reset →
    Locked fine Q (links.watch site b) (links'.watch site' b')
  cells : (∀ source makeState, node ≠ .call source makeState) →
    Cells fine π own (links.cell site) (links'.cell site') ∧ Cells fine π T (links.cell site) (links'.cell site')
  after : ∀ d s r, T d s r → Q d s r
  host : ∀ d, links.host.Lock fine (own d) d kind links'.host
  only : node.CallsBack kind
  children : ∀ i (child : Node μ σ), node.children[i]? = some child →
    Locked fine own ((child.mapTrees rename).behaviour links (i :: site))
      ((child.mapTrees rename').behaviour links' (i :: site')) ∧
    Locked fine Q ((child.mapTrees rename).behaviour links (i :: site))
      ((child.mapTrees rename').behaviour links' (i :: site'))
  chooser : ∀ policy nodes, node = .selectOne policy nodes →
    (∀ count d, Lock fine (own d) d ((links.chooser site policy).pick count)
      ((links'.chooser site' policy).pick count)) ∧
    ∀ i d, Lock fine (own d) d ((links.chooser site policy).complete i) ((links'.chooser site' policy).complete i)
  call : ∀ source makeState, node = .call source makeState →
    (∀ d, Lock fine (own d) d
      (Behaviour.call (links.cell site) (links.resolve (source.mapTrees rename)) makeState links.callee).tick
      (Behaviour.call (links'.cell site') (links'.resolve (source.mapTrees rename')) makeState links'.callee).tick) ∧
    ResetLock fine T Q
      (Behaviour.call (links.cell site) (links.resolve (source.mapTrees rename)) makeState links.callee).reset
      (Behaviour.call (links'.cell site') (links'.resolve (source.mapTrees rename')) makeState links'.callee).reset

namespace Companions

variable {fine : ρ' → Prop} {π rename rename' : TreeId → TreeId} {own T Q : Nat → ρ → ρ' → Prop} {kind : TreeId → Prop}
  {links : Links ρ μ σ} {links' : Links ρ' μ σ} {site site' : Address} {node : Node μ σ}
  (h : Companions fine π own T Q kind links links' site site' rename rename' node)
include h

/-- The children go in lockstep, whether they are ticked or abandoned. -/
theorem siblings : LockedAll fine own
      (Node.behaviours links site 0 (Node.mapTreesAll rename node.children))
      (Node.behaviours links' site' 0 (Node.mapTreesAll rename' node.children)) ∧
    LockedAll fine Q (Node.behaviours links site 0 (Node.mapTreesAll rename node.children))
      (Node.behaviours links' site' 0 (Node.mapTreesAll rename' node.children)) := by
  rw [Node.mapTreesAll_eq_map, Node.mapTreesAll_eq_map]
  exact ⟨Node.behaviours_forall₂ _ 0 fun i child hc => by simpa using (h.children i child hc).1,
    Node.behaviours_forall₂ _ 0 fun i child hc => by simpa using (h.children i child hc).2⟩

open Behaviour in
theorem locked : Locked fine Q ((node.mapTrees rename).behaviour links site)
    ((node.mapTrees rename').behaviour links' site') := by
  have siblings := h.siblings
  rw [Node.behaviour.eq_def, Node.behaviour.eq_def]
  cases node
  case call source makeState => exact h.watch _ _ (h.call source makeState rfl).1 (h.call source makeState rfl).2
  all_goals obtain ⟨own, put⟩ := h.cells fun _ _ same => by cases same
  case action => exact h.watch _ _ (fun d => Lock.callback (h.host d) h.only) (ofTick_reset_lock h.after)
  case custom => exact h.watch _ _ (fun d => Lock.callback (h.host d) h.only) (custom_reset_lock h.after)
  case condition => exact h.watch _ _ (condition_lock own) (leaf_reset_lock put h.after)
  case waitUntil => exact h.watch _ _ (waitUntil_lock own) (leaf_reset_lock put h.after)
  case wait => exact h.watch _ _ (wait_lock own) (leaf_reset_lock put h.after)
  case pause => exact h.watch _ _ (pause_lock own) (leaf_reset_lock put h.after)
  case earlyReturn => exact h.watch _ _ earlyReturn_lock (ofTick_reset_lock h.after)
  case invert child =>
    obtain ⟨ticked, abandoned⟩ := h.children 0 child rfl
    exact h.watch _ _ (invert_lock own ticked) (resetStarted_lock put h.after abandoned)
  case force child =>
    obtain ⟨ticked, abandoned⟩ := h.children 0 child rfl
    exact h.watch _ _ (force_lock own ticked) (resetStarted_lock put h.after abandoned)
  case guard child =>
    obtain ⟨ticked, abandoned⟩ := h.children 0 child rfl
    exact h.watch _ _ (guard_lock own ticked) (resetStarted_lock put h.after abandoned)
  case repeatUntil child =>
    obtain ⟨ticked, abandoned⟩ := h.children 0 child rfl
    exact h.watch _ _ (repeatUntil_lock own ticked) (resetStarted_lock put h.after abandoned)
  case repeatTimes child | retry child =>
    obtain ⟨ticked, abandoned⟩ := h.children 0 child rfl
    exact h.watch _ _ (iterate_lock own ticked) (resetIteration_lock put h.after abandoned)
  case timeout child =>
    obtain ⟨ticked, abandoned⟩ := h.children 0 child rfl
    exact h.watch _ _ (timeout_lock own ticked) (timeout_reset_lock put h.after abandoned)
  case delay child =>
    obtain ⟨ticked, abandoned⟩ := h.children 0 child rfl
    exact h.watch _ _ (delay_lock own ticked) (delay_reset_lock put h.after abandoned)
  case scope child =>
    obtain ⟨ticked, abandoned⟩ := h.children 0 child rfl
    exact h.watch _ _ (scope_lock own h.host h.only ticked) (scope_reset_lock put h.after abandoned)
  case localScope child =>
    obtain ⟨ticked, abandoned⟩ := h.children 0 child rfl
    exact h.watch _ _ (localScope_lock own ticked) (localScope_reset_lock put h.after abandoned)
  all_goals obtain ⟨ticked, abandoned⟩ := siblings
  case sequence | selector => exact h.watch _ _ (inOrder_lock own ticked) (resetChild_lock put h.after abandoned)
  case reactiveSequence | reactiveSelector =>
    exact h.watch _ _ (reactive_lock own ticked) (resetChild_lock put h.after abandoned)
  case parallel | join => exact h.watch _ _ (visitAll_lock own ticked) (resetTracked_lock put h.after abandoned)
  case race => exact h.watch _ _ (race_lock own ticked) (resetTracked_lock put h.after abandoned)
  case selectOne policy nodes =>
    obtain ⟨picks, completes⟩ := h.chooser policy nodes rfl
    exact h.watch _ _ (selectOne_lock own picks completes ticked) (resetChild_lock put h.after abandoned)

end Companions

end BehaviorTree
