/-
  BehaviorTree.Proofs.Availability: which trees weak handles are good for.

  A tree is there while it is used from outside, or while a tree that is there refers to it, be
  that in a circle (`alive_iff`). Ticks and resets change nothing about it where only trees that
  are there anyway are ticked: an unfinished call runs a tree that was there when it was called.
  What was gone stays gone (`Steady.alive_iff`).
-/

import BehaviorTree.Proofs.Residue

namespace BehaviorTree

variable {μ σ : Type}

/-! ## The calls in a tree -/

namespace Node

variable {site : Address} {c : Address × Source μ}

theorem mem_callsAmong (nodes : List (Node μ σ)) (first : Nat) : c ∈ callsAmong site first nodes ↔
    ∃ i, ∃ child : Node μ σ, nodes[i]? = some child ∧ c ∈ child.calls ((first + i) :: site) := by
  induction nodes generalizing first with
  | nil => simp [callsAmong]
  | cons node rest ih =>
    rw [callsAmong, List.mem_append, ih]
    constructor
    · rintro (here | ⟨i, child, among, below⟩)
      · exact ⟨0, node, rfl, here⟩
      · exact ⟨i + 1, child, among, by rwa [Nat.add_right_comm, Nat.add_assoc] at below⟩
    · rintro ⟨_ | i, child, among, below⟩
      · cases among
        exact .inl below
      · exact .inr ⟨i, child, among, by rwa [Nat.add_right_comm, Nat.add_assoc]⟩

theorem mem_calls (node : Node μ σ) : c ∈ node.calls site ↔ (∃ makeState, node = .call c.2 makeState ∧ c.1 = site) ∨
    ∃ i, ∃ child : Node μ σ, node.children[i]? = some child ∧ c ∈ child.calls (i :: site) := by
  have one : ∀ child : Node μ σ, c ∈ child.calls (0 :: site) ↔
      ∃ i, ∃ below : Node μ σ, [child][i]? = some below ∧ c ∈ below.calls (i :: site) := fun child => by
    constructor
    · exact fun h => ⟨0, child, rfl, h⟩
    · rintro ⟨_ | i, below, among, h⟩
      · cases among
        exact h
      · cases among
  cases node
  case call source makeState =>
    obtain ⟨a, source'⟩ := c
    simp [calls, children, and_comm, eq_comm]
  case sequence | selector | reactiveSequence | reactiveSelector | parallel | join | race | selectOne =>
    simp [calls, children, mem_callsAmong]
  case invert | force | guard | repeatTimes | repeatUntil | retry | timeout | delay | scope | localScope =>
    simp only [calls, children, one, reduceCtorEq, false_and, exists_const, false_or]
  all_goals simp [calls, children]

end Node

namespace System

variable {sys : System μ σ} {s : Store σ} {site : Address} {node : Node μ σ} {tree tree' : Nat}

/-- What is listed as a call is one. -/
theorem nodeAt_of_mem_calls {c : Address × Source μ} (here : sys.nodeAt site = some node)
    (listed : c ∈ node.calls site) :
    site <:+ c.1 ∧ ∃ makeState, sys.nodeAt c.1 = some (.call c.2 makeState) := by
  induction here using nodeAt_upward with
  | step site node here ih =>
    rcases (Node.mem_calls node).mp listed with ⟨makeState, rfl, same⟩ | ⟨i, child, among, below⟩
    · exact ⟨same ▸ List.suffix_rfl, makeState, same ▸ here⟩
    · obtain ⟨suffix, call⟩ := ih i child among below
      exact ⟨(List.suffix_cons i site).trans suffix, call⟩

/-- All calls are listed. -/
theorem mem_calls_of_nodeAt (here : sys.nodeAt site = some node) :
    ∃ w tree, ∃ t : Tree μ σ, site = w ++ [tree] ∧ sys.trees[tree]? = some t ∧
      ∀ c ∈ node.calls site, c ∈ t.root.calls [tree] := by
  refine nodeAt_induction (motive := fun site node => ∃ w tree, ∃ t : Tree μ σ, site = w ++ [tree] ∧
    sys.trees[tree]? = some t ∧ ∀ c ∈ node.calls site, c ∈ t.root.calls [tree]) (fun tree t ht => ?_) (fun site node i child above among => ?_)
    site node here
  · exact ⟨[], tree, t, rfl, ht, fun _ => id⟩
  · obtain ⟨w, tree, t, rfl, ht, listed⟩ := above
    exact ⟨i :: w, tree, t, rfl, ht, fun c hc => listed c ((Node.mem_calls node).mpr (.inr ⟨i, child, among, hc⟩))⟩

/-! ## What trees refer to -/

theorem mem_targets {source : Source μ} (h : tree ∈ targets s site source) :
    source = .fixed (.strong tree) ∨ ∃ depth state, s.slot ⟨site, depth⟩ = .call tree state := by
  rcases List.mem_append.mp h with fixed | unfinished
  · rcases source with (t | t) | provide
    · exact .inl (by rw [List.mem_singleton.mp fixed])
    · cases fixed
    · cases fixed
  · obtain ⟨slot, kept, runs⟩ := List.mem_filterMap.mp unfinished
    obtain ⟨depth, at_depth⟩ := List.mem_iff_getElem?.mp kept
    cases slot
    case call t state =>
      cases runs
      refine .inr ⟨depth, state, ?_⟩
      rw [Array.getElem?_toList] at at_depth
      simp [Store.slot, Store.cell, DepthSlots.get, at_depth]
    all_goals cases runs

theorem mem_owned (h : tree ∈ sys.owned s [tree']) : ∃ w source makeState,
    sys.nodeAt (w ++ [tree']) = some (.call source makeState) ∧ tree ∈ targets s (w ++ [tree']) source := by
  obtain ⟨⟨caller, source⟩, listed, runs⟩ := List.mem_flatMap.mp h
  unfold callsBelow at listed
  cases ht : sys.trees[tree']? with
  | none => simp [ht] at listed
  | some t =>
    simp only [List.getLast?_singleton, ht, List.mem_filter] at listed
    obtain ⟨⟨w, rfl⟩, makeState, call⟩ := nodeAt_of_mem_calls (sys.nodeAt_root ht) listed.1
    exact ⟨w, source, makeState, call, runs⟩

/-- A tree owns those to which its calls have strong handles. -/
theorem owned_of_strong {w : List Nat} {makeState : Option (StateMaker μ σ)}
    (here : sys.nodeAt (w ++ [tree']) = some (.call (.fixed (.strong tree)) makeState)) :
    tree ∈ sys.owned s [tree'] := by
  refine List.mem_flatMap.mpr ⟨(w ++ [tree'], .fixed (.strong tree)), ?_, List.mem_append_left _ (by simp)⟩
  obtain ⟨w', t', t, same, ht, listed⟩ := mem_calls_of_nodeAt here
  obtain ⟨-, same⟩ := List.append_inj' same rfl
  cases same
  unfold callsBelow
  simp only [List.getLast?_singleton, ht, List.mem_filter]
  exact ⟨listed _ (by simp [Node.calls]), List.isSuffixOf_iff_suffix.mpr (List.suffix_append w [tree'])⟩

/-! ## Letting go of trees -/

/-- The trees that stay in one round. -/
def tidied (sys : System μ σ) (s : Store σ) (trees : List TreeId) : List TreeId :=
  trees.filter fun tree => anchored s tree || ((trees.map ([·]) ++ s.kept).flatMap (sys.owned s)).contains tree

/-- Each of these trees exists and is used from outside, or one of them refers to it. -/
def Sustained (sys : System μ σ) (s : Store σ) (these : TreeId → Prop) : Prop :=
  ∀ tree : Nat, these tree → tree < sys.trees.size ∧
    (anchored s tree = true ∨ ∃ owner, these owner ∧ tree ∈ sys.owned s [owner])

theorem mem_tidied (none : s.kept = []) (trees : List TreeId) : tree ∈ sys.tidied s trees ↔
    tree ∈ trees ∧ (anchored s tree = true ∨ ∃ owner ∈ trees, tree ∈ sys.owned s [owner]) := by
  unfold tidied
  simp [List.mem_filter, none, List.flatMap_map]

theorem prune_tidied {trees : List TreeId} (fixed : sys.tidied s trees = trees) (rounds : Nat) :
    sys.prune s rounds trees = trees := by
  induction rounds with
  | zero => rfl
  | succ rounds ih => exact (congrArg (sys.prune s rounds) fixed).trans ih

/-- What is sustained is never let go of. -/
theorem Sustained.prune {these : TreeId → Prop} (h : sys.Sustained s these) (none : s.kept = []) (rounds : Nat)
    (trees : List TreeId) (there : ∀ tree, these tree → tree ∈ trees) :
    ∀ tree, these tree → tree ∈ sys.prune s rounds trees := by
  induction rounds generalizing trees with
  | zero => exact there
  | succ rounds ih =>
    refine ih (sys.tidied s trees) fun tree ht => (mem_tidied none trees).mpr ⟨there tree ht, ?_⟩
    refine (h tree ht).2.imp_right fun ⟨owner, among, owns⟩ => ⟨owner, there owner among, owns⟩

/-- After so many rounds as there are trees, no more are let go of. -/
theorem prune_sustained (none : s.kept = []) (rounds : Nat) (trees : List TreeId) (enough : trees.length ≤ rounds)
    (exist : ∀ tree ∈ trees, tree < sys.trees.size) : sys.Sustained s (· ∈ sys.prune s rounds trees) := by
  induction rounds generalizing trees with
  | zero =>
    obtain rfl := List.eq_nil_of_length_eq_zero (Nat.le_zero.mp enough)
    exact fun _ here => absurd here List.not_mem_nil
  | succ rounds ih =>
    by_cases fixed : sys.tidied s trees = trees
    · rw [prune_tidied fixed]
      intro tree here
      rw [← fixed] at here
      exact ⟨exist tree ((mem_tidied none trees).mp here).1, ((mem_tidied none trees).mp here).2⟩
    · have fewer : (sys.tidied s trees).length < trees.length := by
        refine Nat.lt_of_le_of_ne (List.length_filter_le _ _) fun same => fixed ?_
        exact List.filter_eq_self.mpr (List.length_filter_eq_length_iff.mp same)
      refine ih (sys.tidied s trees) (by omega) fun tree here => ?_
      exact exist tree ((mem_tidied none trees).mp here).1

/-- A tree is there if and only if it is used from outside or among trees that sustain one another. -/
theorem alive_iff (none : s.kept = []) (tree : Nat) : sys.alive s tree = true ↔
    anchored s tree = true ∨ ∃ these, sys.Sustained s these ∧ these tree := by
  unfold alive
  rw [Bool.or_eq_true, List.contains_iff_mem]
  refine or_congr_right ⟨fun here => ⟨_, ?_, here⟩, fun ⟨these, h, ht⟩ => ?_⟩
  · exact prune_sustained none _ _ (by simp) fun tree ht => List.mem_range.mp ht
  · exact h.prune none _ _ (fun tree ht => List.mem_range.mpr (h tree ht).1) tree ht

/-! ## What stays available -/

/-- The tree is there when nothing is in progress and these trees are held from outside. -/
def Available (sys : System μ σ) (held : List TreeId) (tree : TreeId) : Prop :=
  sys.alive ({ held } : Store σ) tree = true

/-- Nothing is in use but what is available anyway. -/
structure Steady (sys : System μ σ) (held : List TreeId) (s : Store σ) : Prop where
  outside : s.held = held
  kept : s.kept = []
  running : ∀ tree ∈ s.running, sys.Available held tree
  calls : ∀ p source makeState, sys.nodeAt p.site = some (.call source makeState) →
    ∀ tree state, s.slot p = .call tree state → sys.Available held tree

variable {held : List TreeId}

theorem anchored_idle : anchored ({ held } : Store σ) tree = true ↔ tree ∈ held := by
  simp [anchored]

/-- With nothing in progress, trees refer to others by strong handles only. -/
theorem owned_idle (h : tree ∈ sys.owned ({ held } : Store σ) [tree']) :
    ∃ w makeState, sys.nodeAt (w ++ [tree']) = some (.call (.fixed (.strong tree)) makeState) := by
  obtain ⟨w, source, makeState, here, target⟩ := mem_owned h
  rcases mem_targets target with rfl | ⟨depth, state, runs⟩
  · exact ⟨w, makeState, here⟩
  · have idle : ({ held } : Store σ).slot ⟨w ++ [tree'], depth⟩ = .idle := Store.slot_empty _
    cases idle.symm.trans runs

theorem available_held (here : tree ∈ held) : sys.Available held tree :=
  (alive_iff rfl tree).mpr (.inl (anchored_idle.mpr here))

/-- A tree is available because it is held or because of another one. -/
theorem Available.support (h : sys.Available held tree) : tree ∈ held ∨ ∃ owner : Nat, owner < sys.trees.size ∧
    sys.Available held owner ∧ tree ∈ sys.owned ({ held } : Store σ) [owner] := by
  rcases (alive_iff rfl tree).mp h with anchored | ⟨these, sustained, here⟩
  · exact .inl (anchored_idle.mp anchored)
  · refine (sustained tree here).2.imp anchored_idle.mp fun ⟨owner, among, owns⟩ => ?_
    exact ⟨owner, (sustained owner among).1, (alive_iff rfl owner).mpr (.inr ⟨these, sustained, among⟩), owns⟩

/-- Trees are available that are held, referred to by available ones, or by one another. -/
theorem available_of_sustained {these : TreeId → Prop}
    (h : ∀ tree : Nat, these tree → tree < sys.trees.size ∧ (sys.Available held tree ∨ tree ∈ held ∨
      ∃ owner, (these owner ∨ owner < sys.trees.size ∧ sys.Available held owner) ∧
        tree ∈ sys.owned ({ held } : Store σ) [owner])) (here : these tree) : sys.Available held tree := by
  refine (alive_iff rfl tree).mpr (.inr ⟨fun t => these t ∨ t < sys.trees.size ∧ sys.Available held t, ?_, .inl here⟩)
  have supported : ∀ t : Nat, sys.Available held t → anchored ({ held } : Store σ) t = true ∨
      ∃ owner, (these owner ∨ owner < sys.trees.size ∧ sys.Available held owner) ∧
        t ∈ sys.owned ({ held } : Store σ) [owner] := fun t available =>
    available.support.imp anchored_idle.mpr fun ⟨owner, known, available', owns⟩ =>
      ⟨owner, .inr ⟨known, available'⟩, owns⟩
  rintro t (among | ⟨known, was⟩)
  · obtain ⟨known, was | held | owned⟩ := h t among
    · exact ⟨known, supported t was⟩
    · exact ⟨known, .inl (anchored_idle.mpr held)⟩
    · exact ⟨known, .inr owned⟩
  · exact ⟨known, supported t was⟩

/-- So are those that available trees call by strong handles. -/
theorem Available.called (h : sys.Available held tree') (known : tree < sys.trees.size) {w : List Nat}
    {makeState : Option (StateMaker μ σ)}
    (here : sys.nodeAt (w ++ [tree']) = some (.call (.fixed (.strong tree)) makeState)) : sys.Available held tree := by
  have owned : tree ∈ sys.owned ({ held } : Store σ) [tree'] := owned_of_strong here
  obtain ⟨_, _, _, same, ht, -⟩ := mem_calls_of_nodeAt here
  obtain ⟨-, same⟩ := List.append_inj' same rfl
  cases same
  have known' : tree' < sys.trees.size := (Array.getElem?_eq_some_iff.mp ht).1
  have sustained : ∀ t : Nat, t = tree → t < sys.trees.size ∧ (sys.Available held t ∨ t ∈ held ∨
      ∃ owner, (owner = tree ∨ owner < sys.trees.size ∧ sys.Available held owner) ∧
        t ∈ sys.owned ({ held } : Store σ) [owner]) := by
    rintro t rfl
    exact ⟨known, .inr (.inr ⟨tree', .inr ⟨known', h⟩, owned⟩)⟩
  exact available_of_sustained sustained rfl

namespace Steady

variable (h : sys.Steady held s)
include h

/-- Weak handles are good for the same trees at any time. -/
theorem alive_iff (tree : Nat) : sys.alive s tree = true ↔ sys.Available held tree := by
  have anchored : ∀ t : Nat, anchored s t = true ↔ t ∈ held ∨ t ∈ s.running := by simp [anchored, h.outside]
  rw [System.alive_iff h.kept tree]
  constructor
  · rintro (used | ⟨these, sustained, here⟩)
    · exact ((anchored tree).mp used).elim available_held (h.running tree)
    · refine available_of_sustained (fun t among => ?_) here
      obtain ⟨known, used | ⟨owner, among', owns⟩⟩ := sustained t among
      · exact ⟨known, ((anchored t).mp used).elim (fun held => .inr (.inl held)) fun runs => .inl (h.running t runs)⟩
      · obtain ⟨w, source, makeState, call, target⟩ := mem_owned owns
        rcases mem_targets target with rfl | ⟨depth, state, runs⟩
        · exact ⟨known, .inr (.inr ⟨owner, .inl among', owned_of_strong call⟩)⟩
        · exact ⟨known, .inl (h.calls _ source makeState call t state runs)⟩
  · intro available
    rcases (System.alive_iff rfl tree).mp available with used | ⟨these, sustained, here⟩
    · exact .inl ((anchored tree).mpr (.inl (anchored_idle.mp used)))
    · refine .inr ⟨these, fun t among => ⟨(sustained t among).1, (sustained t among).2.imp (fun used => ?_) ?_⟩, here⟩
      · exact (anchored t).mpr (.inl (anchored_idle.mp used))
      · rintro ⟨owner, among', owns⟩
        obtain ⟨w, makeState, call⟩ := owned_idle owns
        exact ⟨owner, among', owned_of_strong call⟩

/-- One slot is changed. -/
theorem change (p : Place) {s' : Store σ} (others : ∀ q, q ≠ p → s'.slot q = s.slot q)
    (here : ∀ source makeState, sys.nodeAt p.site = some (.call source makeState) →
      ∀ tree state, s'.slot p = .call tree state → sys.Available held tree)
    (lists : s'.held = s.held ∧ s'.kept = s.kept ∧ s'.running = s.running) : sys.Steady held s' where
  outside := lists.1.trans h.outside
  kept := lists.2.1.trans h.kept
  running := lists.2.2 ▸ h.running
  calls q source makeState call tree state runs := by
    by_cases same : q = p
    · subst same
      exact here source makeState call tree state runs
    · exact h.calls q source makeState call tree state (others q same ▸ runs)

theorem started {tree : TreeId} (available : sys.Available held tree) :
    sys.Steady held { s with running := tree :: s.running } :=
  { h with running := List.forall_mem_cons.mpr ⟨available, h.running⟩ }

theorem stopped : sys.Steady held { s with running := s.running.tail } :=
  { h with running := fun tree here => h.running tree (List.mem_of_mem_tail here) }

theorem progressed (tree : TreeId) (f : Progress → Progress) : sys.Steady held (s.onProgress tree f) :=
  { h with }

end Steady

theorem steady_start (sys : System μ σ) (held : List TreeId) : sys.Steady held { held } where
  outside := rfl
  kept := rfl
  running := by simp
  calls p _ _ _ tree state runs := by
    have idle : ({ held } : Store σ).slot p = .idle := Store.slot_empty p
    cases idle.symm.trans runs

end System

end BehaviorTree
