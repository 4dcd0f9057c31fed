/-
  BehaviorTree.Proofs.Unroll.Copies: the copies of trees, one by one.

  A tree's number and a call depth give the number of a copy and are given by it. The nodes of
  a copy are those of its tree, but that calls go to other copies. Weak handles to copies are
  as good as those to their trees (`unrolled_available`).
-/

import BehaviorTree.Proofs.Availability
import BehaviorTree.Proofs.Unroll

namespace BehaviorTree

variable {μ σ : Type}

namespace System

variable {sys : System μ σ} {last depth depth' tree tree' : Nat}

/-! ## The numbers of copies -/

theorem copyAt_zero (tree : Nat) : sys.copyAt 0 tree = tree := by simp [copyAt]

theorem original_copyAt (known : tree < sys.trees.size) : sys.original (sys.copyAt depth tree) = tree := by
  rw [original, copyAt, Nat.add_mul_mod_self_left, Nat.mod_eq_of_lt known]

theorem depth_copyAt (known : tree < sys.trees.size) : sys.copyAt depth tree / sys.trees.size = depth := by
  rw [copyAt, Nat.add_mul_div_left _ _ (by omega), Nat.div_eq_of_lt known, Nat.zero_add]

theorem copyAt_injective (known : tree < sys.trees.size) (known' : tree' < sys.trees.size)
    (same : sys.copyAt depth tree = sys.copyAt depth' tree') : depth = depth' ∧ tree = tree' := by
  have depths := congrArg (· / sys.trees.size) same
  have trees := congrArg sys.original same
  simp only [depth_copyAt known, depth_copyAt known'] at depths
  rw [original_copyAt known, original_copyAt known'] at trees
  exact ⟨depths, trees⟩

theorem length_copies (last depth : Nat) :
    ((List.range depth).flatMap (sys.copiesAt last)).length = sys.trees.size * depth := by
  induction depth with
  | zero => rfl
  | succ depth ih =>
    rw [List.range_succ, List.flatMap_append, List.length_append, ih, Nat.mul_succ]
    simp [copiesAt]

/-- The copies stand in the order of their depths. -/
theorem copies_getElem? (known : tree < sys.trees.size) (count : Nat) (below : depth < count) :
    ((List.range count).flatMap (sys.copiesAt last))[sys.copyAt depth tree]? = (sys.copiesAt last depth)[tree]? := by
  induction count with
  | zero => omega
  | succ count ih =>
    rw [List.range_succ, List.flatMap_append]
    rcases Nat.lt_succ_iff_lt_or_eq.mp below with before | rfl
    · rw [List.getElem?_append_left, ih before]
      have room : sys.trees.size * (depth + 1) ≤ sys.trees.size * count := Nat.mul_le_mul_left _ before
      rw [length_copies, copyAt]
      rw [Nat.mul_succ] at room
      omega
    · rw [List.getElem?_append_right (by rw [length_copies, copyAt]; omega), length_copies, copyAt]
      simp

/-- A copy is its tree, with calls that go one call depth further down. -/
theorem unrolled_trees (known : tree < sys.trees.size) (within : depth ≤ last) :
    (sys.unrolled last).trees[sys.copyAt depth tree]? =
      sys.trees[tree]?.map (·.mapTrees (sys.copyAt (min (depth + 1) last))) := by
  rw [unrolled, List.getElem?_toArray, copies_getElem? known _ (Nat.lt_succ_of_le within), copiesAt, List.getElem?_map,
    Array.getElem?_toList]

theorem unrolled_nameOf (known : tree < sys.trees.size) (within : depth ≤ last) :
    (sys.unrolled last).nameOf (sys.copyAt depth tree) = sys.nameOf tree := by
  unfold nameOf
  rw [unrolled_trees known within]
  cases sys.trees[tree]? <;> rfl

theorem unrolled_limitsOf (known : tree < sys.trees.size) (last : Nat) :
    (sys.unrolled last).limitsOf tree = sys.limitsOf tree := by
  have copy : (sys.unrolled last).trees[sys.copyAt 0 tree]? = _ := unrolled_trees known (Nat.zero_le last)
  rw [copyAt_zero] at copy
  unfold limitsOf
  rw [copy]
  cases sys.trees[tree]? <;> rfl

theorem size_unrolled (last : Nat) : (sys.unrolled last).trees.size = sys.trees.size * (last + 1) := by
  rw [unrolled, List.size_toArray, length_copies]

/-- Every tree of the unrolled system is a copy. -/
theorem copy_of_lt {copy : Nat} (known : copy < (sys.unrolled last).trees.size) :
    ∃ depth tree : Nat, depth ≤ last ∧ tree < sys.trees.size ∧ copy = sys.copyAt depth tree := by
  rw [size_unrolled] at known
  have some : 0 < sys.trees.size := Nat.pos_of_ne_zero fun none => by simp [none] at known
  refine ⟨copy / sys.trees.size, copy % sys.trees.size, ?_, Nat.mod_lt _ some, (Nat.mod_add_div _ _).symm⟩
  exact Nat.lt_succ_iff.mp (Nat.div_lt_of_lt_mul known)

/-! ## The nodes of copies -/

theorem unrolled_nodeAt (known : tree < sys.trees.size) (within : depth ≤ last) (w : List Nat) :
    (sys.unrolled last).nodeAt (w ++ [sys.copyAt depth tree]) =
      (sys.nodeAt (w ++ [tree])).map (·.mapTrees (sys.copyAt (min (depth + 1) last))) := by
  induction w with
  | nil =>
    rw [List.nil_append, List.nil_append, nodeAt_tree, nodeAt_tree, unrolled_trees known within]
    cases sys.trees[tree]? <;> rfl
  | cons i w ih =>
    rw [List.cons_append, List.cons_append, nodeAt_cons _ (by simp), nodeAt_cons _ (by simp), ih]
    cases sys.nodeAt (w ++ [tree]) with
    | none => rfl
    | some node => simp [Node.children_mapTrees]

/-- Calls name single trees of the system, and no choosing node draws on a picker. -/
structure Static (sys : System μ σ) : Prop where
  calls : ∀ site source makeState, sys.nodeAt site = some (.call source makeState) →
    ∃ tree : Nat, tree < sys.trees.size ∧ (source = .fixed (.strong tree) ∨ source = .fixed (.weak tree))
  unpicked : ∀ site initial children, sys.nodeAt site ≠ some (.selectOne (.picker initial) children)

/-! ## Which copies are there -/

variable {held : List TreeId}

theorem mem_heldCopies (known : tree < sys.trees.size) :
    sys.copyAt depth tree ∈ sys.heldCopies last held ↔ depth ≤ last ∧ sys.Available held tree := by
  unfold heldCopies Available
  simp only [List.mem_flatMap, List.mem_filter, List.mem_range, List.mem_map]
  constructor
  · rintro ⟨tree', ⟨known', available⟩, depth', within, same⟩
    obtain ⟨rfl, rfl⟩ := copyAt_injective known' known same
    exact ⟨Nat.lt_succ_iff.mp within, available⟩
  · rintro ⟨within, available⟩
    exact ⟨tree, ⟨known, available⟩, depth, Nat.lt_succ_iff.mpr within, rfl⟩

/-- A copy is available if and only if its tree is. -/
theorem unrolled_available (static : sys.Static) (known : tree < sys.trees.size) (within : depth ≤ last) :
    (sys.unrolled last).Available (sys.heldCopies last held) (sys.copyAt depth tree) ↔ sys.Available held tree := by
  refine ⟨fun available => ?_, fun available => available_held ((mem_heldCopies known).mpr ⟨within, available⟩)⟩
  rcases (alive_iff rfl _).mp available with used | ⟨these, sustained, here⟩
  · exact ((mem_heldCopies known).mp (anchored_idle.mp used)).2
  have copies : ∀ t : Nat, (t < sys.trees.size ∧ ∃ d ≤ last, these (sys.copyAt d t)) →
      t < sys.trees.size ∧ (sys.Available held t ∨ t ∈ held ∨
        ∃ owner : Nat, ((owner < sys.trees.size ∧ ∃ d ≤ last, these (sys.copyAt d owner)) ∨
          owner < sys.trees.size ∧ sys.Available held owner) ∧ t ∈ sys.owned ({ held } : Store σ) [owner]) := by
    rintro t ⟨t_known, d, -, among⟩
    obtain ⟨-, used | ⟨owner, among', owns⟩⟩ := sustained _ among
    · exact ⟨t_known, .inl ((mem_heldCopies t_known).mp (anchored_idle.mp used)).2⟩
    obtain ⟨w, makeState, call⟩ := owned_idle owns
    obtain ⟨d', u, within', u_known, rfl⟩ := copy_of_lt (sustained owner among').1
    rw [unrolled_nodeAt u_known within'] at call
    obtain ⟨node, here', calls⟩ := Option.map_eq_some_iff.mp call
    obtain ⟨source, rfl, same⟩ := Node.mapTrees_eq_call calls
    obtain ⟨target, target_known, rfl | rfl⟩ := static.calls _ _ _ here'
    · simp only [Source.mapTrees, Source.fixed.injEq, Handle.strong.injEq] at same
      obtain ⟨-, rfl⟩ := copyAt_injective t_known target_known same
      exact ⟨t_known, .inr (.inr ⟨u, .inl ⟨u_known, d', within', among'⟩, owned_of_strong here'⟩)⟩
    · cases same
  exact available_of_sustained copies ⟨known, depth, within, here⟩

end System

end BehaviorTree
