/-
  BehaviorTree.Proofs.Unroll.Layers: one copy of a tree and the call depth that it is for.

  On the left a system with slots for all call depths, on the right the unrolled one with a
  scalar in each node. What a copy's scalar holds is what its tree's slot holds at the copy's
  depth, and an unfinished call runs a copy one depth further down (`Unrolls`). A call that is
  about to be refused, or to run out of levels, is free of the latter. Then every node goes in
  lockstep with its copy, at the copy's depth (`layered_node`).
-/

import BehaviorTree.Proofs.Lockstep.Resets
import BehaviorTree.Proofs.Run
import BehaviorTree.Proofs.Unroll.Copies

namespace BehaviorTree

variable {μ σ α : Type}

/-! ## What the scalars hold -/

namespace Store

variable (s : Store σ) (site : Address) (depth : Nat) (q : Place)

theorem slot_scalar_set (x : Slot σ) :
    ((scalar site).set s depth x).slot q = if (⟨site, 0⟩ : Place) = q then x else s.slot q :=
  slot_set s ⟨site, 0⟩ q x

theorem slot_scalar_reset :
    ((scalar site).reset s depth).slot q = if (⟨site, 0⟩ : Place) = q then .idle else s.slot q :=
  slot_reset s ⟨site, 0⟩ q

end Store

namespace System

/-- The scalars of the copies hold what the slots of the trees hold at the copies' depths. Unfinished calls run
copies one depth further down, unless their place is free to do otherwise at the last depth. -/
structure Unrolls (sys : System μ σ) (last : Nat) (held : List TreeId) (free : Place → Prop) (s r : Store σ) :
    Prop where
  slots : ∀ w (tree depth : Nat), tree < sys.trees.size → depth ≤ last →
    s.slot ⟨w ++ [tree], depth⟩ = (r.slot ⟨w ++ [sys.copyAt depth tree], 0⟩).mapTrees sys.original
  calls : ∀ w (tree depth : Nat) source makeState, tree < sys.trees.size → depth ≤ last →
    sys.nodeAt (w ++ [tree]) = some (.call source makeState) → ∀ copy state,
    r.slot ⟨w ++ [sys.copyAt depth tree], 0⟩ = .call copy state → ∃ callee : Nat, callee < sys.trees.size ∧
      copy = sys.copyAt (min (depth + 1) last) callee ∧ (¬ free ⟨w ++ [tree], depth⟩ → depth < last)
  height : s.height = r.height
  progress : ∀ tree : Nat, tree < sys.trees.size → s.progress tree = r.progress tree
  steady : sys.Steady held s
  steady' : (sys.unrolled last).Steady (sys.heldCopies last held) r

variable {sys : System μ σ} {last : Nat} {held : List TreeId} {free free' : Place → Prop} {s s' r r' : Store σ}

/-- Nodes with different places have copies with different addresses. -/
theorem copy_place {w w' : List Nat} {tree tree' depth depth' : Nat} (known : tree < sys.trees.size)
    (known' : tree' < sys.trees.size) :
    (⟨w ++ [sys.copyAt depth tree], 0⟩ : Place) = ⟨w' ++ [sys.copyAt depth' tree'], 0⟩ ↔
      (⟨w ++ [tree], depth⟩ : Place) = ⟨w' ++ [tree'], depth'⟩ := by
  constructor
  · intro same
    simp only [Place.mk.injEq, and_true] at same
    obtain ⟨ways, copies⟩ := List.append_inj' same rfl
    obtain ⟨rfl, rfl⟩ := copyAt_injective known known' (List.head_eq_of_cons_eq copies)
    rw [ways]
  · intro same
    simp only [Place.mk.injEq] at same
    obtain ⟨same, rfl⟩ := same
    obtain ⟨rfl, trees⟩ := List.append_inj' same rfl
    rw [List.head_eq_of_cons_eq trees]

theorem Unrolls.loosen (h : sys.Unrolls last held free s r) (more : ∀ q, free q → free' q) :
    sys.Unrolls last held free' s r :=
  { h with
    calls := fun w tree depth source makeState known within here copy state runs => by
      obtain ⟨callee, known', same, before⟩ := h.calls w tree depth source makeState known within here copy state runs
      exact ⟨callee, known', same, fun bound => before fun was => bound (more _ was)⟩ }

section
variable {w : List Nat} {tree depth : Nat} (known : tree < sys.trees.size) (within : depth ≤ last)
include known within

/-- One slot and its scalar are changed. -/
theorem Unrolls.change (h : sys.Unrolls last held free s r) (x : Slot σ)
    (others : ∀ q, q ≠ ⟨w ++ [tree], depth⟩ → free q → free' q)
    (leads : ∀ source makeState, sys.nodeAt (w ++ [tree]) = some (.call source makeState) →
      ∀ copy state, x = .call copy state → ∃ callee : Nat, callee < sys.trees.size ∧ sys.Available held callee ∧
        copy = sys.copyAt (min (depth + 1) last) callee ∧ (¬ free' ⟨w ++ [tree], depth⟩ → depth < last))
    (left : ∀ q, s'.slot q = if ⟨w ++ [tree], depth⟩ = q then x.mapTrees sys.original else s.slot q)
    (right : ∀ q, r'.slot q = if ⟨w ++ [sys.copyAt depth tree], 0⟩ = q then x else r.slot q)
    (height : s'.height = r'.height) (trees : s'.trees = s.trees ∧ r'.trees = r.trees)
    (lists : s'.held = s.held ∧ s'.kept = s.kept ∧ s'.running = s.running)
    (lists' : r'.held = r.held ∧ r'.kept = r.kept ∧ r'.running = r.running) : sys.Unrolls last held free' s' r' where
  slots w' tree' depth' known' within' := by
    rw [left, right]
    by_cases same : (⟨w ++ [tree], depth⟩ : Place) = ⟨w' ++ [tree'], depth'⟩
    · rw [if_pos same, if_pos ((copy_place known known').mpr same)]
    · rw [if_neg same, if_neg fun copies => same ((copy_place known known').mp copies)]
      exact h.slots w' tree' depth' known' within'
  calls w' tree' depth' source makeState known' within' here copy state runs := by
    rw [right] at runs
    by_cases same : (⟨w ++ [tree], depth⟩ : Place) = ⟨w' ++ [tree'], depth'⟩
    · rw [if_pos ((copy_place known known').mpr same)] at runs
      simp only [Place.mk.injEq] at same
      obtain ⟨sites, rfl⟩ := same
      rw [← sites] at here ⊢
      obtain ⟨callee, callee_known, -, copies, before⟩ := leads source makeState here copy state runs
      exact ⟨callee, callee_known, copies, before⟩
    · rw [if_neg fun copies => same ((copy_place known known').mp copies)] at runs
      obtain ⟨callee, callee_known, copies, before⟩ :=
        h.calls w' tree' depth' source makeState known' within' here copy state runs
      exact ⟨callee, callee_known, copies, fun bound => before fun was => bound (others _ (Ne.symm same) was)⟩
  height := height
  progress tree' known' := by
    have same := h.progress tree' known'
    unfold Store.progress at same ⊢
    rw [trees.1, trees.2, same]
  steady := by
    refine h.steady.change ⟨w ++ [tree], depth⟩ (fun q other => by rw [left, if_neg other.symm]) ?_ lists
    intro source makeState here t state runs
    rw [left, if_pos rfl] at runs
    cases x
    case call copy own =>
      obtain ⟨callee, callee_known, available, rfl, -⟩ := leads source makeState here copy own rfl
      rw [Slot.mapTrees, original_copyAt callee_known] at runs
      cases runs
      exact available
    all_goals cases runs
  steady' := by
    refine h.steady'.change ⟨w ++ [sys.copyAt depth tree], 0⟩ (fun q other => by rw [right, if_neg other.symm]) ?_
      lists'
    intro source makeState here copy state runs
    rw [right, if_pos rfl] at runs
    rw [unrolled_nodeAt known within] at here
    obtain ⟨node, here', calls⟩ := Option.map_eq_some_iff.mp here
    obtain ⟨source', rfl, -⟩ := Node.mapTrees_eq_call calls
    obtain ⟨callee, callee_known, available, rfl, -⟩ := leads source' makeState here' copy state runs
    exact available_held ((mem_heldCopies callee_known).mpr ⟨Nat.min_le_right _ _, available⟩)

theorem Unrolls.set (h : sys.Unrolls last held free s r) (x : Slot σ)
    (others : ∀ q, q ≠ ⟨w ++ [tree], depth⟩ → free q → free' q)
    (leads : ∀ source makeState, sys.nodeAt (w ++ [tree]) = some (.call source makeState) →
      ∀ copy state, x = .call copy state → ∃ callee : Nat, callee < sys.trees.size ∧ sys.Available held callee ∧
        copy = sys.copyAt (min (depth + 1) last) callee ∧ (¬ free' ⟨w ++ [tree], depth⟩ → depth < last)) :
    sys.Unrolls last held free' ((Store.cell (w ++ [tree])).set s depth (x.mapTrees sys.original))
      ((Store.scalar (w ++ [sys.copyAt depth tree])).set r depth x) :=
  h.change known within x others leads (fun q => Store.slot_set s ⟨w ++ [tree], depth⟩ q _)
    (fun q => Store.slot_scalar_set r _ depth q x) (congrArg (max · (depth + 1)) h.height) ⟨rfl, rfl⟩ ⟨rfl, rfl, rfl⟩
    ⟨rfl, rfl, rfl⟩

theorem Unrolls.reset (h : sys.Unrolls last held free s r)
    (others : ∀ q, q ≠ ⟨w ++ [tree], depth⟩ → free q → free' q) :
    sys.Unrolls last held free' ((Store.cell (w ++ [tree])).reset s depth)
      ((Store.scalar (w ++ [sys.copyAt depth tree])).reset r depth) :=
  h.change known within .idle others (fun _ _ _ _ _ runs => by cases runs)
    (fun q => Store.slot_reset s ⟨w ++ [tree], depth⟩ q) (fun q => Store.slot_scalar_reset r _ depth q) h.height
    ⟨rfl, rfl⟩ ⟨rfl, rfl, rfl⟩ ⟨rfl, rfl, rfl⟩

end

theorem Unrolls.progressed (h : sys.Unrolls last held free s r) (tree : TreeId) (f : Progress → Progress) :
    sys.Unrolls last held free (s.onProgress tree f) (r.onProgress tree f) :=
  { h with
    progress := fun tree' known' => by
      rw [Store.progress_onProgress, Store.progress_onProgress]
      by_cases same : tree = tree'
      · subst same
        rw [if_pos rfl, if_pos rfl, h.progress tree known']
      · rw [if_neg same, if_neg same, h.progress tree' known']
    steady := h.steady.progressed tree f
    steady' := h.steady'.progressed tree f }

/-- At first no slot and no scalar holds anything. -/
theorem unrolls_start (sys : System μ σ) (last : Nat) (held : List TreeId) :
    sys.Unrolls last held free { held } { held := sys.heldCopies last held } where
  slots w tree depth _ _ := by
    have idle : ∀ p, ({ held } : Store σ).slot p = .idle := Store.slot_empty
    have idle' : ∀ p, ({ held := sys.heldCopies last held } : Store σ).slot p = .idle := Store.slot_empty
    rw [idle, idle']
    rfl
  calls w tree depth _ _ _ _ _ copy state runs := by
    have idle : ∀ p, ({ held := sys.heldCopies last held } : Store σ).slot p = .idle := Store.slot_empty
    cases (idle _).symm.trans runs
  height := rfl
  progress _ _ := rfl
  steady := steady_start sys held
  steady' := steady_start _ _

/-! ## Lockstep at one depth -/

/-- Nothing is asked of the run states in addition. -/
abbrev Always : Store σ → Prop := fun _ => True

/-- No place is free. -/
abbrev Bound : Place → Prop := fun _ => False

/-- The relation for the copies for one depth. -/
def AtLayer (sys : System μ σ) (last : Nat) (held : List TreeId) (layer depth : Nat) (s r : Store σ) : Prop :=
  depth = layer ∧ sys.Unrolls last held Bound s r

variable {layer : Nat}

theorem pinned_lock {d e : Nat} {a b : Run (Store σ) μ σ α}
    (h : d = layer → Lock Always (sys.Unrolls last held Bound) e a b) :
    Lock Always (sys.AtLayer last held layer d) e a b where
  before _ _ := trivial
  agree m m' related _ := by
    obtain ⟨same, depth, here, unrolls⟩ := related
    refine ((h here).agree m m' ⟨same, depth, unrolls⟩ trivial).mono fun n n' related' => ?_
    exact ⟨related'.same, related'.depth, here, related'.runs⟩

/-- A node that is no call uses its slot as it likes. -/
theorem layered_cells {w : List Nat} {tree : Nat} (known : tree < sys.trees.size) (within : layer ≤ last)
    (bare : ∀ source makeState, sys.nodeAt (w ++ [tree]) ≠ some (.call source makeState)) :
    Cells Always sys.original (sys.AtLayer last held layer) ((Stage.plain (μ := μ)).cell (w ++ [tree]))
      (Store.scalar (w ++ [sys.copyAt layer tree])) where
  get h := by
    obtain ⟨rfl, unrolls⟩ := h
    exact unrolls.slots w tree _ known within
  set x h := by
    obtain ⟨rfl, unrolls⟩ := h
    exact ⟨rfl, unrolls.set known within x (fun _ _ => id) fun _ _ here => absurd here (bare _ _)⟩
  reset h := by
    obtain ⟨rfl, unrolls⟩ := h
    exact ⟨rfl, unrolls.reset known within fun _ _ => id⟩
  fine_set _ := trivial
  fine_reset _ := trivial

end System

end BehaviorTree
