/-
  BehaviorTree.Proofs.Setting: the setting that the proofs about run states share.

  A mild system with exclusive calls runs on some stage under some limits; beside the store
  the stage may keep something that stays `Tidy`, and that says which places are given up and
  do not count any more. `Moves` is the frame of all work at a place: slots elsewhere and the
  state of the recursion guard stay. `Still` is work that touches no slot at all.
-/

import BehaviorTree.Proofs.Passage
import BehaviorTree.Proofs.Residue
import BehaviorTree.Proofs.Tame

namespace BehaviorTree

variable {ρ μ σ : Type}

/-- A mild system with exclusive calls, and where it runs. -/
structure Setting (ρ μ σ : Type) where
  sys : System μ σ
  exclusive : sys.Exclusive
  /-- Callbacks may ask for early returns. -/
  asks : Prop
  mild : sys.Mild asks
  stage : Stage ρ μ σ
  limits : Limits
  /-- Holds of the run states whatever is done to the store. -/
  Tidy : ρ → Prop
  tidy_onStore : ∀ f r, Tidy r → Tidy (stage.onStore f r)
  /-- What is remembered at the place belongs to a run that is not given up. -/
  Counts : ρ → Place → Prop
  counted : ∀ r p, Counts r p → sys.Counted p
  counts_onStore : ∀ f r p, Counts (stage.onStore f r) p → Counts r p

namespace Setting

variable (S : Setting ρ μ σ)

/-- What the nodes remember. -/
def store (m : Machine ρ μ σ) : Store σ := S.stage.store m.runs

/-- Nothing of a run that is not given up is remembered at the place or below it. -/
def Vacant (m : Machine ρ μ σ) (p : Place) : Prop := S.sys.Vacant (S.Counts m.runs) (S.store m) p

/-- The place is orderly, and so is all below it. -/
def Sound (m : Machine ρ μ σ) (p : Place) : Prop := S.sys.Sound S.limits (S.Counts m.runs) (S.store m) p

/-- No early return is pending, unless callbacks may ask for one. -/
def Calm (m : Machine ρ μ σ) : Prop := S.asks ∨ m.context.returnRequest = none

/-- The recursion guard stands where a tick under the setting's limits has it. -/
structure Guarded (m : Machine ρ μ σ) : Prop where
  maxDepth : m.context.maxDepth = S.limits.maxCallDepth.toNat
  capacity : m.context.stack.map (·.capacity) = S.limits.stackCapacity.map (·.toNat)
  frames : ∀ stack, m.context.stack = some stack → stack.frames.length = m.context.depth

/-- Work at a place and below it: nothing is remembered or forgotten elsewhere. -/
structure Moves (p : Place) (m m' : Machine ρ μ σ) : Prop where
  within : ∀ q, ¬ S.sys.Below p q → (S.store m').slot q = (S.store m).slot q
  depth : m'.context.depth = m.context.depth
  guarded : S.Guarded m → S.Guarded m'
  bounded : (S.store m).Bounded → (S.store m').Bounded
  tidy : S.Tidy m.runs → S.Tidy m'.runs
  fewer : ∀ q, S.Counts m'.runs q → S.Counts m.runs q

/-- No slot is touched, and the recursion guard stands where it stood. -/
structure Still (m m' : Machine ρ μ σ) : Prop where
  slots : ∀ q, (S.store m').slot q = (S.store m).slot q
  height : (S.store m').height = (S.store m).height
  depth : m'.context.depth = m.context.depth
  maxDepth : m'.context.maxDepth = m.context.maxDepth
  stack : m'.context.stack = m.context.stack
  calm : S.Calm m → S.Calm m'
  tidy : S.Tidy m.runs → S.Tidy m'.runs
  fewer : ∀ q, S.Counts m'.runs q → S.Counts m.runs q

variable {S} {p c : Place} {m m₁ m' : Machine ρ μ σ} {slot : Slot σ} {d : Nat} {site : Address}

/-! ## The recursion guard -/

namespace Guarded

theorem congr (h : S.Guarded m) (depth : m'.context.depth = m.context.depth)
    (maxDepth : m'.context.maxDepth = m.context.maxDepth) (stack : m'.context.stack = m.context.stack) :
    S.Guarded m' where
  maxDepth := maxDepth.trans h.maxDepth
  capacity := stack ▸ h.capacity
  frames s hs := depth ▸ h.frames s (stack ▸ hs)

theorem enter (h : S.Guarded m) {name : String} {context : Context σ} (ok : m.context.enter name = .ok context) :
    S.limits.Admits m.context.depth ∧ S.Guarded { m with context } ∧ context.depth = m.context.depth + 1 ∧
      context.returnRequest = m.context.returnRequest := by
  unfold Context.enter at ok
  split at ok
  · cases ok
  rename_i room
  rw [h.maxDepth] at room
  cases hs : m.context.stack with
  | none =>
    rw [hs] at ok
    cases ok
    have same := h.capacity
    rw [hs] at same
    refine ⟨⟨by omega, fun capacity hc => by simp [hc] at same⟩, ⟨h.maxDepth, same, ?_⟩, rfl, rfl⟩
    intro stack hk
    cases hk
  | some stack =>
    have same := h.capacity
    have frames := h.frames stack hs
    simp only [hs, CallStack.push, CallStack.isFull, decide_eq_true_eq, Option.map_some] at ok same
    split at ok
    · rename_i pushed grown
      split at grown
      · cases grown
      · rename_i free
        cases grown
        cases ok
        refine ⟨⟨by omega, fun capacity hc => ?_⟩, ⟨h.maxDepth, by simpa using same, ?_⟩, rfl, rfl⟩
        · simp only [hc, Option.map_some, Option.some.injEq] at same
          omega
        · intro stack' hk
          cases hk
          simp [frames]
    · cases ok

theorem refused (h : S.Guarded m) {name : String} {o : Overflow} (refused : m.context.enter name = .error o) :
    ¬ S.limits.Admits m.context.depth := by
  intro admits
  obtain ⟨room, free⟩ := admits
  unfold Context.enter at refused
  split at refused
  · have := h.maxDepth
    omega
  cases hs : m.context.stack with
  | none =>
    rw [hs] at refused
    cases refused
  | some stack =>
    have same := h.capacity
    have frames := h.frames stack hs
    simp only [hs, CallStack.push, CallStack.isFull, decide_eq_true_eq, Option.map_some] at refused same
    obtain ⟨capacity, hc, hv⟩ := Option.map_eq_some_iff.mp same.symm
    have := free capacity hc
    rw [if_neg (by omega)] at refused
    cases refused

theorem leave (h : S.Guarded m) (below : m.context.depth = d + 1) : S.Guarded (Behaviour.left m) where
  maxDepth := h.maxDepth
  capacity := by
    have := h.capacity
    cases hs : m.context.stack <;> simp_all [Behaviour.left, Context.leave, CallStack.pop]
  frames stack hs := by
    simp only [Behaviour.left, Context.leave, Option.map_eq_some_iff] at hs
    obtain ⟨stack, hs, rfl⟩ := hs
    simp [Behaviour.left, Context.leave, CallStack.pop, h.frames stack hs]

end Guarded

/-! ## Work at a place -/

namespace Moves

theorem refl (p : Place) (m : Machine ρ μ σ) : S.Moves p m m := ⟨fun _ _ => rfl, rfl, id, id, id, fun _ => id⟩

theorem trans (h : S.Moves p m m₁) (k : S.Moves p m₁ m') : S.Moves p m m' where
  within q hq := (k.within q hq).trans (h.within q hq)
  depth := k.depth.trans h.depth
  guarded := k.guarded ∘ h.guarded
  bounded := k.bounded ∘ h.bounded
  tidy := k.tidy ∘ h.tidy
  fewer q := h.fewer q ∘ k.fewer q

/-- Work below a place is work at it. -/
theorem up (h : S.Moves c m m') (hc : S.sys.Below p c) : S.Moves p m m' :=
  { h with within := fun q hq => h.within q fun k => hq (hc.trans k) }

theorem own_slot (h : S.Moves c m m') (hc : S.sys.Child p c) : (S.store m').slot p = (S.store m).slot p :=
  h.within p hc.not_below

/-- Work below one child leaves the others alone. -/
theorem sibling (h : S.Moves c m m') (hc : S.sys.Child p c) {c' : Place} (hc' : S.sys.Child p c') (hne : c' ≠ c) :
    ∀ q, S.sys.Below c' q → (S.store m').slot q = (S.store m).slot q :=
  fun q hq => h.within q (System.siblings_apart S.exclusive hc' hc hne hq)

theorem of_context (within : ∀ q, ¬ S.sys.Below p q → (S.store m').slot q = (S.store m).slot q)
    (context : m'.context = m.context) (bounded : (S.store m).Bounded → (S.store m').Bounded)
    (tidy : S.Tidy m.runs → S.Tidy m'.runs) (fewer : ∀ q, S.Counts m'.runs q → S.Counts m.runs q) :
    S.Moves p m m' where
  within := within
  depth := by rw [context]
  guarded h := h.congr (by rw [context]) (by rw [context]) (by rw [context])
  bounded := bounded
  tidy := tidy
  fewer := fewer

end Moves

/-! ## What is elsewhere does not matter -/

theorem Vacant.congr (h : S.Vacant m p) (fewer : ∀ q, S.Counts m'.runs q → S.Counts m.runs q)
    (same : ∀ q, S.sys.Below p q → (S.store m').slot q = (S.store m).slot q) : S.Vacant m' p :=
  System.Vacant.congr h fewer same

theorem Sound.congr (h : S.Sound m p) (fewer : ∀ q, S.Counts m'.runs q → S.Counts m.runs q)
    (same : ∀ q, S.sys.Below p q → (S.store m').slot q = (S.store m).slot q) : S.Sound m' p :=
  System.Sound.congr h fewer same

theorem Sound.below (h : S.Sound m p) (k : S.sys.Below p c) : S.Sound m c := System.Sound.below h k

/-- The place is empty, and its children are sound and vacant. -/
theorem sound_of_vacant (own : S.sys.Counted p → (S.store m).slot p = .idle)
    (sound : ∀ c, S.sys.Child p c → S.Sound m c) (vacant : ∀ c, S.sys.Child p c → S.Vacant m c) : S.Sound m p :=
  System.sound_of_children (System.orderly_of_vacant own vacant) sound

theorem vacant_of_children (own : S.sys.Counted p → (S.store m).slot p = .idle)
    (vacant : ∀ c, S.sys.Child p c → S.Vacant m c) : S.Vacant m p :=
  System.vacant_of_children (fun counts => own (S.counted _ _ counts)) vacant

/-! ## Work that touches no slot -/

namespace Still

theorem trans (h : S.Still m m₁) (k : S.Still m₁ m') : S.Still m m' where
  slots q := (k.slots q).trans (h.slots q)
  height := k.height.trans h.height
  depth := k.depth.trans h.depth
  maxDepth := k.maxDepth.trans h.maxDepth
  stack := k.stack.trans h.stack
  calm := k.calm ∘ h.calm
  tidy := k.tidy ∘ h.tidy
  fewer q := h.fewer q ∘ k.fewer q

theorem of_stays (h : m.Stays S.asks m') : S.Still m m' where
  slots q := by rw [store, store, h.runs]
  height := by rw [store, store, h.runs]
  depth := h.depth
  maxDepth := h.maxDepth
  stack := h.stack
  calm calm := by
    rcases h.request with same | none | asks
    · exact calm.imp_right same.trans
    · exact .inr none
    · exact .inl asks
  tidy := by rw [h.runs]; exact id
  fewer q := by rw [h.runs]; exact id

theorem of_alike (h : m.Alike m') : S.Still m m' := .of_stays (.of_alike h)

theorem of_memory (m : Machine ρ μ σ) (x : μ) : S.Still m (m.withMemory x) := .of_stays (.withMemory m x)

/-- A change of the store beside the slots. -/
theorem of_store {f : Store σ → Store σ} (slots : ∀ s q, (f s).slot q = s.slot q)
    (height : ∀ s, (f s).height = s.height) :
    S.Still m (m.onRuns (S.stage.onStore f)) where
  slots q := by simp [store, S.stage.store_onStore, slots]
  height := by simp [store, S.stage.store_onStore, height]
  depth := rfl
  maxDepth := rfl
  stack := rfl
  calm := id
  tidy := S.tidy_onStore f _
  fewer := S.counts_onStore f _

theorem moves (h : S.Still m m') (p : Place) : S.Moves p m m' where
  within q _ := h.slots q
  depth := h.depth
  guarded k := k.congr h.depth h.maxDepth h.stack
  bounded k q hq := by
    rw [h.slots] at hq
    rw [h.height]
    exact k q hq
  tidy := h.tidy
  fewer := h.fewer

end Still

/-! ## A node's own slot -/

variable (S)

theorem store_set (m : Machine ρ μ σ) (p : Place) (slot : Slot σ) :
    S.store (m.onRuns ((S.stage.cell p.site).set · p.depth slot)) =
      (Store.cell p.site).set (S.store m) p.depth slot := by
  simp [store, Stage.cell, S.stage.store_onStore]

theorem store_reset (m : Machine ρ μ σ) (p : Place) :
    S.store (m.onRuns ((S.stage.cell p.site).reset · p.depth)) = (Store.cell p.site).reset (S.store m) p.depth := by
  simp [store, Stage.cell, S.stage.store_onStore]

theorem moves_set (m : Machine ρ μ σ) (p : Place) (slot : Slot σ) :
    S.Moves p m (m.onRuns ((S.stage.cell p.site).set · p.depth slot)) := by
  refine .of_context (fun q hq => ?_) rfl (fun h => ?_) (S.tidy_onStore _ _) (S.counts_onStore _ _)
  · rw [store_set, Store.slot_set, if_neg]
    intro same
    subst same
    exact hq .refl
  · rw [store_set]
    exact h.set slot

theorem moves_reset (m : Machine ρ μ σ) (p : Place) :
    S.Moves p m (m.onRuns ((S.stage.cell p.site).reset · p.depth)) := by
  refine .of_context (fun q hq => ?_) rfl (fun h => ?_) (S.tidy_onStore _ _) (S.counts_onStore _ _)
  · rw [store_reset, Store.slot_reset, if_neg]
    intro same
    subst same
    exact hq .refl
  · rw [store_reset]
    exact h.reset

/-- The cell of a place reads its slot. -/
theorem get_eq (m : Machine ρ μ σ) (p : Place) : (S.stage.cell p.site).get m.runs p.depth = (S.store m).slot p := rfl

end Setting

end BehaviorTree
