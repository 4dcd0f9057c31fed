/-
  BehaviorTree.Proofs.Mirror: the same run with more in the memory.

  A memory may hold more than callbacks use, of which they see a part only. A run with such a
  memory mirrors one that has the part alone: with the rest left out it does the same, also
  where it stops with a fault (`Mirrors`). This is an accord (`Accord.mirror`), so every behaviour
  mirrors the one whose children and callbacks it mirrors.
-/

import BehaviorTree.Proofs.Accord

namespace BehaviorTree

variable {ρ μ μ' σ α β : Type}

/-- The machine with only a part of its memory. -/
def Machine.part (part : μ' → μ) (m : Machine ρ μ' σ) : Machine ρ μ σ :=
  ⟨m.context, part m.memory, m.runs, m.journal, m.heard⟩

/-- What comes of a run, with only a part of the memory. -/
def Run.part (part : μ' → μ) :
    EStateM.Result Fault (Machine ρ μ' σ) α → EStateM.Result Fault (Machine ρ μ σ) α
  | .ok x m => .ok x (m.part part)
  | .error e m => .error e (m.part part)

/-- The second run does to the part of its memory, and to all else, what the first one does. -/
def Mirrors (part : μ' → μ) (a : Run ρ μ σ α) (b : Run ρ μ' σ α) : Prop :=
  ∀ m, a (m.part part) = Run.part part (b m)

/-- The second host does to trees what the first one does. -/
structure Host.Mirrors (part : μ' → μ) (host : Host ρ μ σ) (host' : Host ρ μ' σ) : Prop where
  tick : ∀ tree delta, BehaviorTree.Mirrors part (host.tickTree tree delta) (host'.tickTree tree delta)
  reset : ∀ tree fire, BehaviorTree.Mirrors part (host.resetTree tree fire) (host'.resetTree tree fire)

/-- The second behaviour mirrors the first one. -/
structure Mirrored (part : μ' → μ) (b : Behaviour ρ μ σ) (b' : Behaviour ρ μ' σ) : Prop where
  tick : Mirrors part b.tick b'.tick
  reset : ∀ d fire, Mirrors part (b.reset d fire) (b'.reset d fire)

variable {part : μ' → μ}

/-! ## Steps -/

namespace Mirrors

variable {a : Run ρ μ σ α} {b : Run ρ μ' σ α} {cell : Cell ρ σ} {d : Nat}

theorem pure (x : α) : Mirrors part (pure x : Run ρ μ σ α) (Pure.pure x) := fun _ => rfl

theorem throw {e : Fault} : Mirrors part (throw e : Run ρ μ σ α) (MonadExcept.throw e) := fun _ => rfl

theorem bind {f : α → Run ρ μ σ β} {g : α → Run ρ μ' σ β} (first : Mirrors part a b)
    (rest : ∀ x, Mirrors part (f x) (g x)) : Mirrors part (a >>= f) (b >>= g) := by
  intro m
  show EStateM.bind a f (m.part part) = Run.part part (EStateM.bind b g m)
  unfold EStateM.bind
  rw [first m]
  cases b m with
  | ok x n => exact rest x n
  | error => rfl

theorem ite {c : Prop} [Decidable c] {a' : Run ρ μ σ α} {b' : Run ρ μ' σ α} (yes : Mirrors part a b)
    (no : Mirrors part a' b') : Mirrors part (if c then a else a') (if c then b else b') := by
  split
  · exact yes
  · exact no

/-- Both runs go on with something that does not depend on the memory. -/
theorem reading {ι : Type} {f : ι → Run ρ μ σ α} {g : ι → Run ρ μ' σ α} {k : Machine ρ μ σ → ι}
    {k' : Machine ρ μ' σ → ι} (rest : ∀ x, Mirrors part (f x) (g x)) (same : ∀ m, k (m.part part) = k' m) :
    Mirrors part (fun m => f (k m) m) (fun m => g (k' m) m) := by
  intro m
  show f (k (m.part part)) (m.part part) = Run.part part (g (k' m) m)
  rw [same]
  exact rest (k' m) m

theorem context : Mirrors part (Run.context : Run ρ μ σ _) Run.context := fun _ => rfl
theorem onContext {f : Context σ → Context σ} : Mirrors part (Run.onContext f : Run ρ μ σ _) (Run.onContext f) :=
  fun _ => rfl
theorem takeReturn : Mirrors part (Run.takeReturn : Run ρ μ σ _) Run.takeReturn := fun _ => rfl
theorem takeOverflow : Mirrors part (Run.takeOverflow : Run ρ μ σ _) Run.takeOverflow := fun _ => rfl
theorem requestReturn {s : Status} : Mirrors part (Run.requestReturn s : Run ρ μ σ _) (Run.requestReturn s) :=
  fun _ => rfl
theorem report {e : Diagnostic} : Mirrors part (Run.report e : Run ρ μ σ _) (Run.report e) := fun _ => rfl

theorem trace {tag : String} {x y : UInt64} : Mirrors part (Run.trace tag x y : Run ρ μ σ _) (Run.trace tag x y) := by
  intro m
  unfold Run.trace Machine.part
  dsimp only
  split
  · rename_i outcome _
    rcases outcome with _ | (e | e) <;> rfl
  · rfl

/-- A callback uses its part of the memory. -/
theorem consult {f : μ → α × μ} {f' : μ' → α × μ'} (same : ∀ n, f (part n) = ((f' n).1, part (f' n).2)) :
    Mirrors part (Run.consult f : Run ρ μ σ _) (Run.consult f') := by
  intro m
  show EStateM.Result.ok (f (part m.memory)).1 _ = _
  unfold Machine.part
  dsimp only
  rw [same]
  rfl

theorem remember {f : μ → μ} {f' : μ' → μ'} (same : ∀ n, f (part n) = part (f' n)) :
    Mirrors part (Run.remember f : Run ρ μ σ _) (Run.remember f') := by
  intro m
  show EStateM.Result.ok () (_ : Machine ρ μ σ) = _
  unfold Machine.part
  dsimp only
  rw [same]
  rfl

theorem test {holds : Predicate μ σ} {holds' : Predicate μ' σ}
    (same : ∀ c n, holds c (part n) = ((holds' c n).1, part (holds' c n).2)) :
    Mirrors part (Run.test holds : Run ρ μ σ _) (Run.test holds') := by
  intro m
  show EStateM.Result.ok (holds m.context (part m.memory)).1 _ = _
  unfold Machine.part
  dsimp only
  rw [same]
  rfl

end Mirrors

/-! ## The accord -/

/-- Runs with the part of the memory alone, and with all of it. -/
def Accord.mirror (ρ σ : Type) (part : μ' → μ) : Accord ρ μ μ' σ where
  Index := Unit
  rel _ m m' := m = m'.part part
  fine _ := True
  call := id
  overlay := id
  fine_of_push _ := trivial
  depth h := h ▸ rfl
  delta h := h ▸ rfl
  request h := h ▸ rfl
  state h := h ▸ rfl
  setRequest _ h := h ▸ rfl
  setState _ h := h ▸ rfl
  recordOverflow _ h := h ▸ rfl
  report _ h := h ▸ rfl
  trace {_ _ m'} tag x y h := by
    rw [h, Mirrors.trace m']
    cases Run.trace tag x y m' with
    | ok x n => exact .ok x rfl
    | error e n => exact .error e ⟨(), rfl⟩
  pushed _ h := h ▸ rfl
  innermost h := h ▸ rfl
  popped h := h ▸ rfl
  entered _ h entered := h ▸ ⟨_, entered, rfl⟩
  refused _ h refused := .inl (h ▸ refused)
  left h := h ▸ rfl

namespace Accord

variable {a : Run ρ μ σ α} {b : Run ρ μ' σ α}

theorem paired_of_mirrors (h : Mirrors part a b) (i j : Unit) : (mirror ρ σ part).Paired i j a b where
  before _ _ := trivial
  agree m m' same _ := by
    rw [show m = m'.part part from same, h m']
    cases b m' with
    | ok x n => exact .ok x rfl
    | error e n => exact .error e ⟨(), rfl⟩

theorem Paired.mirrors {i j : Unit} (h : (mirror ρ σ part).Paired i j a b) : Mirrors part a b := by
  intro m'
  have agreed := h.agree (m'.part part) m' rfl trivial
  generalize a (m'.part part) = x at agreed ⊢
  generalize b m' = y at agreed ⊢
  cases agreed with
  | ok x same => exact congrArg _ same
  | error e same => exact congrArg _ same.choose_spec

theorem goes_of_mirrored {b : Behaviour ρ μ σ} {b' : Behaviour ρ μ' σ} (h : Mirrored part b b') (i : Unit) :
    (mirror ρ σ part).Goes i b b' :=
  ⟨paired_of_mirrors h.tick i i, fun k d fire => paired_of_mirrors (h.reset d fire) k k⟩

theorem Goes.mirrored {i : Unit} {b : Behaviour ρ μ σ} {b' : Behaviour ρ μ' σ}
    (h : (mirror ρ σ part).Goes i b b') : Mirrored part b b' :=
  ⟨h.tick.mirrors, fun d fire => (h.reset () d fire).mirrors⟩

/-- The slots have nothing to do with the memory. -/
theorem mirror_cells (cell : Cell ρ σ) : (mirror ρ σ part).Cells cell where
  get _ h := h ▸ rfl
  set _ _ h := h ▸ rfl
  reset _ h := h ▸ rfl

end Accord

end BehaviorTree
