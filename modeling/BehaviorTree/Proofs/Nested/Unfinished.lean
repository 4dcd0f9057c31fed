/-
  BehaviorTree.Proofs.Nested.Unfinished: the unfinished scopes and calls below a place.

  Where no node has more than one child in a run, the scopes and calls that are in a run at a
  place and below it form a chain: the slots lead from each to the next one (`Chain`). It takes no
  note of who else calls the same trees. When a tick works at the end of the chain, the rest of
  it is as it was.
-/

import BehaviorTree.Proofs.Nested.Words
import BehaviorTree.Proofs.Residue
import BehaviorTree.Proofs.Standing

namespace BehaviorTree

variable {μ σ : Type}

/-! ## Places that are covered -/

theorem Place.not_covers_caller (p : Place) (tree : TreeId) : ¬ (p.callee tree).Covers p := by
  rintro (h | ⟨h, -⟩) <;> simp only [callee_depth] at h <;> omega

theorem Place.ne_of_not_covers {p q : Place} (outside : ¬ p.Covers q) : q ≠ p := by
  rintro rfl
  exact outside q.covers_self

theorem Place.ne_of_covers_inside {p q : Place} {i : Nat} (covers : (p.inside i).Covers q) : q ≠ p := by
  rintro rfl
  exact q.not_covers_above i covers

theorem Place.ne_of_covers_callee {p q : Place} {tree : TreeId} (covers : (p.callee tree).Covers q) : q ≠ p := by
  rintro rfl
  exact q.not_covers_caller tree covers

/-- The slots of all other places are the same. -/
def Store.Apart (p : Place) (s s' : Store σ) : Prop := ∀ q, q ≠ p → s'.slot q = s.slot q

/-- Brackets tell of the runs of the node. -/
def Node.isMarked : Node μ σ → Bool
  | .scope _ _ | .call _ _ => true
  | _ => false

namespace System

variable (sys : System μ σ) (limits : Limits)

/-- A scope or a call is there, and a run of it is in progress. -/
def InRun (s : Store σ) (q : Place) : Prop :=
  (∃ hooks child, sys.nodeAt q.site = some (.scope hooks child) ∧ s.slot q = .started) ∨
    ∃ source makeState tree state, sys.nodeAt q.site = some (.call source makeState) ∧ s.slot q = .call tree state

/-- The brackets that tell of its runs. -/
def mark (q : Place) : Mark :=
  match sys.nodeAt q.site with
  | some (.call _ _) => ⟨.subtree, UInt64.ofNat (q.depth + 1)⟩
  | _ => ⟨.scope, UInt64.ofNat q.depth⟩

/-- Nothing is in a run at the first place or below it, but for the place itself and what is at the second one or
below. -/
def Narrows (s : Store σ) (p c : Place) : Prop := ∀ q, p.Covers q → sys.InRun s q → q = p ∨ c.Covers q

/-- The scopes and calls in a run at a place and below it, the outermost first. The slots lead from one to the next. -/
inductive Chain (s : Store σ) : Place → List Place → Prop
  | nil {p : Place} : (∀ q, p.Covers q → ¬ sys.InRun s q) → Chain s p []
  | inside {p : Place} {node : Node μ σ} {i : Nat} {chain : List Place} : sys.nodeAt p.site = some node →
      node.isMarked = false → node.Runs (s.slot p) i → i < node.children.length → sys.Narrows s p (p.inside i) →
      Chain s (p.inside i) chain → Chain s p chain
  | scope {p : Place} {hooks : Hooks μ σ} {child : Node μ σ} {chain : List Place} :
      sys.nodeAt p.site = some (.scope hooks child) → s.slot p = .started → sys.Narrows s p (p.inside 0) →
      Chain s (p.inside 0) chain → Chain s p (p :: chain)
  | call {p : Place} {source : Source μ} {makeState : Option (StateMaker μ σ)} {tree : TreeId} {state : Option σ}
      {chain : List Place} : sys.nodeAt p.site = some (.call source makeState) → s.slot p = .call tree state →
      limits.Admits p.depth → sys.Narrows s p (p.callee tree) → Chain s (p.callee tree) chain → Chain s p (p :: chain)

variable {sys limits} {s s' : Store σ} {p q c : Place} {chain : List Place} {node : Node μ σ} {i : Nat}

/-! ## What is in a run -/

theorem InRun.congr (h : sys.InRun s q) (same : s'.slot q = s.slot q) : sys.InRun s' q := by
  rcases h with ⟨hooks, child, here, slot⟩ | ⟨source, makeState, tree, state, here, slot⟩
  · exact .inl ⟨hooks, child, here, same.trans slot⟩
  · exact .inr ⟨source, makeState, tree, state, here, same.trans slot⟩

theorem not_inRun_idle (idle : s.slot q = .idle) : ¬ sys.InRun s q := by
  rintro (⟨_, _, _, slot⟩ | ⟨_, _, _, _, _, slot⟩) <;> cases idle.symm.trans slot

theorem Narrows.of_apart (h : sys.Narrows s p c) (apart : s.Apart p s') : sys.Narrows s' p c := by
  intro q covers runs
  by_cases same : q = p
  · exact .inl same
  · exact h q covers (runs.congr (apart q same).symm)

/-- Work at the second place keeps all else out of a run. -/
theorem Narrows.framed (h : sys.Narrows s p c) (frame : ∀ q, ¬ c.Covers q → s'.slot q = s.slot q) :
    sys.Narrows s' p c := by
  intro q covers runs
  by_cases below : c.Covers q
  · exact .inr below
  · exact h q covers (runs.congr (frame q below).symm)

theorem not_inRun_unmarked (here : sys.nodeAt p.site = some node) (unmarked : node.isMarked = false) : ¬ sys.InRun s p := by
  rintro (⟨_, _, there, -⟩ | ⟨_, _, _, _, there, -⟩) <;> cases here.symm.trans there <;> cases unmarked

namespace Chain

/-! ## What a chain is made of -/

theorem covers (h : sys.Chain limits s p chain) : ∀ q ∈ chain, p.Covers q ∧ sys.InRun s q := by
  induction h with
  | nil => exact nofun
  | inside _ _ _ _ _ _ ih => exact fun q hq => (ih q hq).imp_left .of_inside
  | scope here slot _ _ ih =>
    refine List.forall_mem_cons.mpr ⟨⟨Place.covers_self _, .inl ⟨_, _, here, slot⟩⟩, ?_⟩
    exact fun q hq => (ih q hq).imp_left .of_inside
  | call here slot _ _ _ ih =>
    refine List.forall_mem_cons.mpr ⟨⟨Place.covers_self _, .inr ⟨_, _, _, _, here, slot⟩⟩, ?_⟩
    exact fun q hq => (ih q hq).imp_left .of_callee

/-- It has all that is in a run there. -/
theorem mem_of_inRun (h : sys.Chain limits s p chain) (covers : p.Covers q) (runs : sys.InRun s q) : q ∈ chain := by
  induction h with
  | nil silent => exact absurd runs (silent q covers)
  | inside here unmarked _ _ narrows _ ih =>
    rcases narrows q covers runs with rfl | below
    · exact absurd runs (not_inRun_unmarked here unmarked)
    · exact ih below
  | scope _ _ narrows _ ih =>
    rcases narrows q covers runs with rfl | below
    · exact List.mem_cons_self
    · exact List.mem_cons_of_mem _ (ih below)
  | call _ _ _ narrows _ ih =>
    rcases narrows q covers runs with rfl | below
    · exact List.mem_cons_self
    · exact List.mem_cons_of_mem _ (ih below)

theorem silent (h : sys.Chain limits s p []) (q : Place) (covers : p.Covers q) : ¬ sys.InRun s q :=
  fun runs => List.not_mem_nil (h.mem_of_inRun covers runs)

/-- Each is inside of those before it, as the slots have it. -/
theorem leads (h : sys.Chain limits s p chain) : (∀ q ∈ chain, Relation.ReflTransGen (sys.Records s) p q) ∧
    chain.Pairwise (Relation.TransGen (sys.Records s)) := by
  induction h with
  | nil => exact ⟨nofun, .nil⟩
  | inside here _ runs _ _ _ ih => exact ⟨fun q hq => .head (.inside here runs) (ih.1 q hq), ih.2⟩
  | scope here slot _ _ ih =>
    have first : sys.Records s _ _ := .inside (i := 0) here slot
    have below := fun q hq => Relation.TransGen.head' first (ih.1 q hq)
    exact ⟨List.forall_mem_cons.mpr ⟨.refl, fun q hq => (below q hq).to_reflTransGen⟩, .cons below ih.2⟩
  | call here slot _ _ _ ih =>
    have first : sys.Records s _ _ := .called here slot
    have below := fun q hq => Relation.TransGen.head' first (ih.1 q hq)
    exact ⟨List.forall_mem_cons.mpr ⟨.refl, fun q hq => (below q hq).to_reflTransGen⟩, .cons below ih.2⟩

/-- Nothing is twice in a chain. -/
theorem nodup (h : sys.Chain limits s p chain) : chain.Nodup := by
  induction h with
  | nil => exact .nil
  | inside _ _ _ _ _ _ ih => exact ih
  | @scope p _ _ _ _ _ _ rest ih =>
    exact List.nodup_cons.mpr ⟨fun again => p.not_covers_above 0 (rest.covers p again).1, ih⟩
  | @call p _ _ tree _ _ _ _ _ _ rest ih =>
    exact List.nodup_cons.mpr ⟨fun again => p.not_covers_caller tree (rest.covers p again).1, ih⟩

theorem congr (h : sys.Chain limits s p chain) (same : ∀ q, p.Covers q → s'.slot q = s.slot q) :
    sys.Chain limits s' p chain := by
  have narrows {p c : Place} (narrows : sys.Narrows s p c) (same : ∀ q, p.Covers q → s'.slot q = s.slot q) :
      sys.Narrows s' p c := fun q covers runs => narrows q covers (runs.congr (same q covers).symm)
  induction h with
  | nil silent => exact .nil fun q covers runs => silent q covers (runs.congr (same q covers).symm)
  | @inside p _ _ _ here unmarked runs among only _ ih =>
    exact .inside here unmarked ((same p p.covers_self) ▸ runs) among (narrows only same)
      (ih fun q covers => same q covers.of_inside)
  | @scope p _ _ _ here slot only _ ih =>
    exact .scope here ((same p p.covers_self).trans slot) (narrows only same) (ih fun q covers => same q covers.of_inside)
  | @call p _ _ _ _ _ here slot admits only _ ih =>
    exact .call here ((same p p.covers_self).trans slot) admits (narrows only same)
      (ih fun q covers => same q covers.of_callee)

/-! ## Nodes that brackets do not tell of -/

section
variable (h : sys.Chain limits s p chain) (here : sys.nodeAt p.site = some node) (unmarked : node.isMarked = false)
include h here unmarked

/-- The chain goes on in the child that is in a run, or may be. -/
theorem down (only : ∀ j < node.children.length, node.Runs (s.slot p) j → j = i) :
    sys.Chain limits s (p.inside i) chain ∧ sys.Narrows s p (p.inside i) := by
  cases h with
  | nil silent =>
    exact ⟨.nil fun q covers => silent q covers.of_inside, fun q covers runs => absurd runs (silent q covers)⟩
  | inside there _ runs among narrows rest =>
    cases here.symm.trans there
    obtain rfl := only _ among runs
    exact ⟨rest, narrows⟩
  | scope there | call there =>
    cases here.symm.trans there
    cases unmarked

/-- There is none if no child is in a run. -/
theorem eq_nil (none : ∀ j < node.children.length, ¬ node.Runs (s.slot p) j) : chain = [] := by
  cases h with
  | nil => rfl
  | inside there _ runs among =>
    cases here.symm.trans there
    exact absurd runs (none _ among)
  | scope there | call there =>
    cases here.symm.trans there
    cases unmarked

end

/-- A chain of a child is one of its parent, if the parent has a record of the child. -/
theorem up (h : sys.Chain limits s (p.inside i) chain) (here : sys.nodeAt p.site = some node)
    (unmarked : node.isMarked = false) (among : i < node.children.length) (narrows : sys.Narrows s p (p.inside i))
    (runs : chain ≠ [] → node.Runs (s.slot p) i) : sys.Chain limits s p chain := by
  by_cases empty : chain = []
  · subst empty
    refine .nil fun q covers inRun => ?_
    rcases narrows q covers inRun with rfl | below
    · exact not_inRun_unmarked here unmarked inRun
    · exact h.silent q below inRun
  · exact .inside here unmarked (runs empty) among narrows h

/-! ## Scopes and calls -/

theorem scope_started {hooks : Hooks μ σ} {child : Node μ σ} (h : sys.Chain limits s p chain)
    (here : sys.nodeAt p.site = some (.scope hooks child)) (slot : s.slot p = .started) :
    ∃ rest, chain = p :: rest ∧ sys.Chain limits s (p.inside 0) rest ∧ sys.Narrows s p (p.inside 0) := by
  cases h with
  | nil silent => exact absurd (.inl ⟨_, _, here, slot⟩) (silent p p.covers_self)
  | inside there unmarked =>
    cases here.symm.trans there
    cases unmarked
  | scope _ _ narrows rest => exact ⟨_, rfl, rest, narrows⟩
  | call there => cases here.symm.trans there

theorem call_resumed {source : Source μ} {makeState : Option (StateMaker μ σ)} {tree : TreeId} {state : Option σ}
    (h : sys.Chain limits s p chain) (here : sys.nodeAt p.site = some (.call source makeState))
    (slot : s.slot p = .call tree state) : ∃ rest, chain = p :: rest ∧ sys.Chain limits s (p.callee tree) rest ∧
      sys.Narrows s p (p.callee tree) ∧ limits.Admits p.depth := by
  cases h with
  | nil silent => exact absurd (.inr ⟨_, _, _, _, here, slot⟩) (silent p p.covers_self)
  | inside there unmarked =>
    cases here.symm.trans there
    cases unmarked
  | scope there => cases here.symm.trans there
  | call _ slot' admits narrows rest =>
    cases slot.symm.trans slot'
    exact ⟨_, rfl, rest, narrows, admits⟩

/-- Where no run is in progress at a scope or a call there is none below. -/
theorem eq_nil_of_idle (h : sys.Chain limits s p chain) (here : sys.nodeAt p.site = some node)
    (marked : node.isMarked = true) (idle : ¬ sys.InRun s p) : chain = [] := by
  cases h with
  | nil => rfl
  | inside there unmarked =>
    cases here.symm.trans there
    cases marked.symm.trans unmarked
  | scope there slot => exact absurd (.inl ⟨_, _, there, slot⟩) idle
  | call there slot => exact absurd (.inr ⟨_, _, _, _, there, slot⟩) idle

end Chain

end System

end BehaviorTree
