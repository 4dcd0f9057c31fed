/-
  BehaviorTree.DepthSlots: one value per call depth, the default where nothing was left.

  A node can be in use at several call depths at once, so what it remembers is kept
  per depth. Storage grows only when a depth is written (`set`, `visit`, `modify`); reading,
  taking and resetting treat a depth that was never written like one that holds the
  default.
-/

namespace BehaviorTree

/-- Values indexed by call depth, all but finitely many of them the default. -/
structure DepthSlots (α : Type) where
  cells : Array α := #[]

namespace DepthSlots

variable {α : Type} [Inhabited α]

/-- The value left at `depth`. -/
def get (s : DepthSlots α) (depth : Nat) : α := s.cells.getD depth default

/-- Makes room for `depth`, with defaults in the new places. -/
def grow (s : DepthSlots α) (depth : Nat) : DepthSlots α :=
  ⟨s.cells ++ Array.replicate (depth + 1 - s.cells.size) default⟩

/-- Leaves `value` at `depth`, making room for it. -/
def set (s : DepthSlots α) (depth : Nat) (value : α) : DepthSlots α :=
  ⟨(s.grow depth).cells.setIfInBounds depth value⟩

/-- Lets `f` look at the value at `depth` and change it in its place, making room for it. The answer is the one
that `f` gives. -/
def visit {β : Type} (s : DepthSlots α) (depth : Nat) (f : α → β × α) : β × DepthSlots α :=
  let (answer, value) := f (s.get depth)
  (answer, s.set depth value)

/-- Changes the value at `depth` in place, making room for it, and returns the new value. -/
def modify (s : DepthSlots α) (depth : Nat) (f : α → α) : α × DepthSlots α :=
  s.visit depth fun x => let value := f x; (value, value)

/-- Puts the default back at `depth`, without making room. -/
def reset (s : DepthSlots α) (depth : Nat) : DepthSlots α :=
  ⟨s.cells.setIfInBounds depth default⟩

/-- Moves the value at `depth` out, leaving the default. -/
def take (s : DepthSlots α) (depth : Nat) : α × DepthSlots α :=
  (s.get depth, s.reset depth)

/-- How many depths have room. -/
def depthCount (s : DepthSlots α) : Nat := s.cells.size

/-! ## What each operation does to `get` -/

@[simp] theorem get_empty (d : Nat) : ({} : DepthSlots α).get d = default := by simp [get]

@[simp] theorem get_grow (s : DepthSlots α) (d e : Nat) : (s.grow d).get e = s.get e := by
  simp only [get, grow, Array.getD_eq_getD_getElem?, Array.getElem?_append]
  split
  · rfl
  · next h =>
    rw [Array.getElem?_eq_none (by omega : s.cells.size ≤ e), Array.getElem?_replicate]
    split <;> rfl

theorem size_grow (s : DepthSlots α) (d : Nat) :
    (s.grow d).cells.size = max s.cells.size (d + 1) := by
  simp [grow]; omega

theorem get_set (s : DepthSlots α) (d e : Nat) (v : α) :
    (s.set d v).get e = if d = e then v else s.get e := by
  have room : d < (s.grow d).cells.size := by rw [size_grow]; omega
  have kept := get_grow s d e
  simp only [get, Array.getD_eq_getD_getElem?] at kept
  simp only [get, set, Array.getD_eq_getD_getElem?, Array.getElem?_setIfInBounds]
  by_cases h : d = e
  · subst h; simp [room]
  · simpa [h] using kept

theorem get_reset (s : DepthSlots α) (d e : Nat) :
    (s.reset d).get e = if d = e then default else s.get e := by
  simp only [get, reset, Array.getD_eq_getD_getElem?, Array.getElem?_setIfInBounds]
  split
  · split <;> rfl
  · rfl

/-! ## What each operation does to `depthCount` -/

theorem get_of_depthCount_le {s : DepthSlots α} {d : Nat} (h : s.depthCount ≤ d) : s.get d = default := by
  rw [get, Array.getD_eq_getD_getElem?, Array.getElem?_eq_none h, Option.getD_none]

@[simp] theorem depthCount_set (s : DepthSlots α) (d : Nat) (v : α) :
    (s.set d v).depthCount = max s.depthCount (d + 1) := by
  simp [depthCount, set, size_grow]

@[simp] theorem depthCount_reset (s : DepthSlots α) (d : Nat) : (s.reset d).depthCount = s.depthCount := by
  simp [depthCount, reset]

end DepthSlots

end BehaviorTree
