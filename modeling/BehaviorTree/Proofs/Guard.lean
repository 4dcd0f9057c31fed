/-
  BehaviorTree.Proofs.Guard: the recursion guard has the calls in progress.

  At every moment of a tick the depth counter and the call stack say which calls lead from
  the top to the node that is being ticked (`Guards`), and each of these calls is one that
  the limits admit. Every deed keeps it so: a call adds a frame and leaving it takes the
  same one away, whatever happens in between.
-/

import BehaviorTree.Proofs.Deeds
import BehaviorTree.Proofs.Lockstep.Calls

namespace BehaviorTree

variable {μ σ : Type}

/-- The refusal of a call of a tree from this depth, if the limits refuse it. -/
def Limits.refusal? (l : Limits) (tree : String) (depth : Nat) : Option Overflow :=
  if l.maxCallDepth.toNat < depth + 1 then some ⟨tree, depth + 1, l.maxCallDepth.toNat, .maxDepth⟩
  else match l.stackCapacity with
    | some capacity => if capacity.toNat ≤ depth then some ⟨tree, depth + 1, capacity.toNat, .capacity⟩ else none
    | none => none

theorem Limits.refusal?_eq_none {l : Limits} {tree : String} {depth : Nat} :
    l.refusal? tree depth = none ↔ l.Admits depth := by
  unfold refusal? Admits
  split
  · simp
    omega
  · split
    · rename_i capacity hc
      split
      · simp only [hc, Option.some.injEq, reduceCtorEq, false_iff, not_and]
        intro _ h
        have := h capacity rfl
        omega
      · simp only [hc, Option.some.injEq, true_iff]
        refine ⟨by omega, fun c hc => ?_⟩
        subst hc
        omega
    · rename_i hc
      simp only [hc, reduceCtorEq, false_imp_iff, implies_true, and_true, true_iff]
      omega

/-- A call that is entered puts its frame on top. -/
theorem Context.enter_stack {c entered : Context σ} {name : String} (h : c.enter name = .ok entered) :
    entered.stack = c.stack.map fun stack => { stack with frames := stack.frames ++ [⟨name, c.depth + 1⟩] } := by
  unfold enter at h
  split at h
  · cases h
  · split at h
    · rename_i none
      cases h
      simp only [none, Option.map_none]
    · rename_i stack some
      unfold CallStack.push at h
      split at h
      · rename_i pushed
        split at pushed
        · cases pushed
        · cases pushed
          cases h
          simp only [some, Option.map_some]
      · cases h

namespace System

variable (sys : System μ σ)

/-- The call that led to a place, if the place is the root of a called tree. -/
def frame? : Place → Option Frame
  | ⟨[tree], d + 1⟩ => some ⟨sys.nameOf tree, d + 1⟩
  | _ => none

/-- The calls on a path, the outermost first. -/
def frames (path : List Place) : List Frame := path.reverse.filterMap sys.frame?

/-- The recursion guard has the calls on the path, one frame for each level, and the limits admit them. -/
structure Guards (limits : Limits) (path : List Place) (c : Context σ) : Prop where
  depth : c.depth = (sys.frames path).length
  maxDepth : c.maxDepth = limits.maxCallDepth.toNat
  stack : c.stack = limits.stackCapacity.map fun capacity => ⟨capacity.toNat, sys.frames path⟩
  levels : ∀ i frame, (sys.frames path)[i]? = some frame → frame.depth = i + 1
  admitted : ∀ d < c.depth, limits.Admits d

variable {sys} {takes : Prop} {limits : Limits} {limit : Nat} {path : List Place} {p : Place} {s s₁ : Spot}
  {c c' : Context σ}
  {m m₁ : Machine (Recorded μ σ) μ σ} {tree : TreeId}

/-! ## The calls on a path -/

theorem frames_cons (p : Place) (path : List Place) :
    sys.frames (p :: path) = sys.frames path ++ (sys.frame? p).toList := by
  simp only [frames, List.reverse_cons, List.filterMap_append]
  cases h : sys.frame? p <;> simp [h]

theorem frames_callee (p : Place) (path : List Place) (tree : TreeId) :
    sys.frames (p.callee tree :: path) = sys.frames path ++ [⟨sys.nameOf tree, p.depth + 1⟩] := frames_cons ..

/-- Going down inside a tree is no call. -/
theorem Under.frames {path : List Place} (h : sys.Under path p) : sys.frames (p :: path) = sys.frames path := by
  have none : sys.frame? p = none := by
    cases path with
    | nil =>
      obtain ⟨tree, rfl⟩ := h
      rfl
    | cons q path =>
      obtain ⟨node, i, hn, -, rfl⟩ := h
      unfold frame?
      split
      · rename_i here
        simp only [Place.inside, Place.mk.injEq, List.cons.injEq] at here
        exact absurd here.1.2 (sys.nodeAt_ne_nil hn)
      · rfl
  rw [frames_cons, none]
  exact List.append_nil _

/-! ## Entering and leaving -/

namespace Guards

theorem congr (h : sys.Guards limits path c) (depth : c'.depth = c.depth) (maxDepth : c'.maxDepth = c.maxDepth)
    (stack : c'.stack = c.stack) : sys.Guards limits path c' where
  depth := depth.trans h.depth
  maxDepth := maxDepth.trans h.maxDepth
  stack := stack.trans h.stack
  levels := h.levels
  admitted d hd := h.admitted d (depth ▸ hd)

theorem of_frames {path' : List Place} (h : sys.Guards limits path c) (same : sys.frames path' = sys.frames path) :
    sys.Guards limits path' c where
  depth := same ▸ h.depth
  maxDepth := h.maxDepth
  stack := same ▸ h.stack
  levels := same ▸ h.levels
  admitted := h.admitted

/-- A call is refused as the limits say. -/
theorem refused (h : sys.Guards limits path c) (name : String) (o : Overflow) :
    c.enter name = .error o ↔ limits.refusal? name c.depth = some o := by
  unfold Context.enter Limits.refusal? CallStack.push CallStack.isFull
  rw [h.maxDepth, h.stack]
  split
  · simp
  · cases hc : limits.stackCapacity with
    | none => simp
    | some capacity =>
      simp only [Option.map_some, decide_eq_true_eq, ← h.depth]
      split
      · rename_i failed
        split at failed
        · cases failed
        · rename_i free
          simp [free]
      · rename_i failed
        split at failed
        · rename_i full
          cases failed
          simp [full]
        · cases failed

/-- A call goes well where the limits do not refuse it. -/
theorem allowed (h : sys.Guards limits path c) {name : String} (entered : c.enter name = .ok c') :
    limits.refusal? name c.depth = none := by
  rw [Option.eq_none_iff_forall_ne_some]
  intro o refused
  cases ((h.refused name o).mpr refused).symm.trans entered

theorem admits (h : sys.Guards limits path c) {name : String} (entered : c.enter name = .ok c') :
    limits.Admits c.depth := Limits.refusal?_eq_none.mp (h.allowed entered)

/-- A call that is admitted adds its frame. -/
theorem enter (h : sys.Guards limits path c) (same : c.depth = p.depth) (entered : c.enter (sys.nameOf tree) = .ok c') :
    sys.Guards limits (p.callee tree :: path) c' := by
  have admits := h.admits entered
  have deeper := Context.enter_depth entered
  have frames := sys.frames_callee p path tree
  refine ⟨?_, ?_, ?_, ?_, ?_⟩
  · rw [deeper, frames, List.length_append, h.depth]
    rfl
  · obtain ⟨stack, rfl⟩ := Behaviour.enter_ok entered
    exact h.maxDepth
  · rw [Context.enter_stack entered, h.stack, frames, ← same, Option.map_map]
    rfl
  · intro i frame hf
    rw [frames] at hf
    rcases Nat.lt_trichotomy i (sys.frames path).length with lt | eq | gt
    · rw [List.getElem?_append_left lt] at hf
      exact h.levels i frame hf
    · subst eq
      rw [List.getElem?_concat_length] at hf
      cases hf
      rw [← same, h.depth]
    · rw [List.getElem?_eq_none (by simp; omega)] at hf
      cases hf
  · intro d hd
    rcases Nat.lt_or_eq_of_le (Nat.le_of_lt_succ (deeper ▸ hd)) with lt | rfl
    · exact h.admitted d lt
    · exact admits

/-- Leaving a call takes its frame away. -/
theorem leave (h : sys.Guards limits (p.callee tree :: path) c) : sys.Guards limits path c.leave := by
  have frames := sys.frames_callee p path tree
  have length : c.depth = (sys.frames path).length + 1 := by
    rw [h.depth, frames, List.length_append]
    rfl
  have depth : c.leave.depth = (sys.frames path).length := by
    show c.depth - 1 = _
    omega
  refine ⟨depth, h.maxDepth, ?_, fun i frame hf => ?_, fun d hd => h.admitted d (by omega)⟩
  · show c.stack.map _ = _
    rw [h.stack, frames, Option.map_map]
    congr 1
    funext capacity
    simp [CallStack.pop]
  · refine h.levels i frame ?_
    rw [frames, List.getElem?_append_left (List.getElem?_eq_some_iff.mp hf).1]
    exact hf

end Guards

/-- At the start of a top-level tick there are no calls. -/
theorem guards_fresh {top : TreeId} (tick : UInt64) (delta : Float32) (state : Option σ) (layers : Layers) :
    sys.Guards (sys.limitsOf top) [] (sys.freshContext top tick delta state layers) where
  depth := rfl
  maxDepth := rfl
  stack := rfl
  levels _ _ hf := by cases hf
  admitted _ hd := by cases hd

/-! ## Every deed keeps it so -/

theorem Deed.guards (sits : sys.Sits limit s m) (h : sys.Guards limits s.path m.context)
    (deed : sys.Deed takes s m s₁ m₁) : sys.Guards limits s₁.path m₁.context := by
  cases deed with
  | entered under => exact h.of_frames under.frames
  | aside _ _ k => exact h.congr k.depth k.maxDepth k.stack
  | wrote _ _ _ k => exact k.context ▸ h
  | swept _ _ k => exact k.context ▸ h
  | ended => exact h
  | answered _ _ k => exact k.context ▸ h
  | failed _ _ k =>
    cases k with
    | missing _ k => exact h.congr k.depth k.maxDepth k.stack
    | refused _ _ k | void _ _ _ k => exact h.congr k.depth k.maxDepth k.stack
  | called _ _ _ k =>
    obtain ⟨c, entered, depth, maxDepth, stack, -⟩ := k.entered
    exact (h.enter sits.depth entered).congr depth maxDepth stack
  | returned _ k => exact h.leave.congr k.depth k.maxDepth k.stack
  | forgot _ _ k => exact h.congr k.depth k.maxDepth k.stack
  | left under => exact h.of_frames under.frames.symm

theorem Deeds.guards (sits : sys.Sits limit s m) (h : sys.Guards limits s.path m.context)
    (deeds : sys.Deeds takes s m s₁ m₁) : sys.Guards limits s₁.path m₁.context := by
  induction deeds with
  | refl => exact h
  | step before deed ih => exact deed.guards (before.sits sits) ih

/-! ## What deeds carry on -/

variable (sys takes limits limit) in
/-- A property of the moments that a run has written down, and of where it is: every deed carries it on. -/
def Carried (P : List (Moment μ σ) → Spot → Machine (Recorded μ σ) μ σ → Prop) : Prop :=
  ∀ {xs s m s₁ m₁}, sys.Sits limit s m → sys.Guards limits s.path m.context → P xs s m → sys.Deed takes s m s₁ m₁ →
    ∃ ys, m₁.runs.history = m.runs.history ++ ys ∧ P (xs ++ ys) s₁ m₁

theorem Deeds.carry {P : List (Moment μ σ) → Spot → Machine (Recorded μ σ) μ σ → Prop} {xs : List (Moment μ σ)}
    (carried : sys.Carried takes limits limit P) (sits : sys.Sits limit s m)
    (guards : sys.Guards limits s.path m.context) (h : P xs s m) (deeds : sys.Deeds takes s m s₁ m₁) :
    ∃ ys, m₁.runs.history = m.runs.history ++ ys ∧ P (xs ++ ys) s₁ m₁ := by
  induction deeds with
  | refl => exact ⟨[], (List.append_nil _).symm, by rwa [List.append_nil]⟩
  | step before deed ih =>
    obtain ⟨ys, history, here⟩ := ih
    obtain ⟨zs, more, next⟩ := carried (before.sits sits) (before.guards sits guards) here deed
    exact ⟨ys ++ zs, by rw [more, history, List.append_assoc], by rwa [← List.append_assoc]⟩

end System

end BehaviorTree
