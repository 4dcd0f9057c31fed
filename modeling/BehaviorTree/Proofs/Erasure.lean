/-
  BehaviorTree.Proofs.Erasure: nothing depends on what is written down.

  A recorded run is a plain run with a history beside it. So what holds of the histories of
  recorded runs holds of what plain runs do, and every machine that plain ticks and resets
  reach is reached with a history too (`reached_recorded`).
-/

import BehaviorTree.Proofs.Lockstep.Trees
import BehaviorTree.Proofs.Reached

namespace BehaviorTree

variable {μ σ : Type}

namespace Recorded

/-- The machine without the history. -/
def erase (m : Machine (Recorded μ σ) μ σ) : Machine (Store σ) μ σ := { m with runs := m.runs.store }

/-- The machine before anything is written down. -/
def blank (m : Machine (Store σ) μ σ) : Machine (Recorded μ σ) μ σ := { m with runs := { store := m.runs } }

@[simp] theorem erase_blank (m : Machine (Store σ) μ σ) : erase (blank m) = m := rfl

end Recorded

open Recorded (erase blank)

/-- The run states are the store beside the history. -/
def Tie.erasure (sys : System μ σ) : Tie id sys sys where
  fine _ := True
  bond _ s r := s = r.store
  owns _ _ _ s r := s = r.store
  fine_of_append _ := trivial
  bond_of_owns h := h
  inside h := h
  entered h _ _ := h
  left h := h
  abandoned h _ _ := h
  cells path w u := {
    get := by
      intro d _ r same
      subst same
      exact (Slot.mapTrees_id _).symm
    set := by
      intro d _ r x same
      subst same
      rw [Slot.mapTrees_id]
      rfl
    reset := by
      intro d _ r same
      subst same
      rfl
    fine_set := id
    fine_reset := id }
  pickers := by
    intro w u initial children path _ r _ same
    subst same
    exact ⟨rfl, fun _ => rfl⟩
  weak := by
    intro site tree makeState path _ r _ same
    subst same
    rfl
  height := by
    intro path _ r same
    subst same
    rfl
  started := by
    intro path _ r tree same
    subst same
    rfl
  stopped := by
    intro path _ r same
    subst same
    rfl
  progress := by
    intro tree path _ r _ same
    subst same
    exact ⟨rfl, fun _ => rfl⟩

namespace System

variable {sys : System μ σ} {α : Type}

/-- What goes in lockstep with a recorded run answers the same, and leaves the same without the history. -/
theorem erases {a : Run (Store σ) μ σ α} {b : Run (Recorded μ σ) μ σ α} (m : Machine (Recorded μ σ) μ σ)
    (h : ∀ d, Lock (Tie.erasure sys).Fine ((Tie.erasure sys).bond []) d a b) :
    Agree id (fun n n' => n = erase n') (a (erase m)) (b m) := by
  have related : Along ((Tie.erasure sys).bond []) m.context.depth (erase m) m := ⟨⟨rfl, rfl, rfl, rfl⟩, rfl, rfl⟩
  refine Agree.mono ((h _).agree _ _ related trivial) fun n n' k => ?_
  obtain ⟨context, memory, runs, journal, heard⟩ := n
  obtain ⟨⟨rfl, rfl, rfl, rfl⟩, -, rfl⟩ := k
  rfl

/-- A recorded tick is a plain tick with a history. -/
theorem tick_erases (top : TreeId) (delta : Float32) (state : Option σ) (m : Machine (Recorded μ σ) μ σ) :
    Agree id (fun n n' => n = erase n') (sys.tick .plain top delta state (erase m))
      (sys.tick .recording top delta state m) :=
  erases m fun d => Tie.tick_lock sys.copies_self rfl delta state [] d

/-- A recorded reset is a plain reset with a history. -/
theorem reset_erases (top : TreeId) (fire : Bool) (m : Machine (Recorded μ σ) μ σ) :
    Agree id (fun n n' => n = erase n') (sys.reset .plain top fire (erase m)) (sys.reset .recording top fire m) :=
  erases m fun d => Tie.reset_lock sys.copies_self rfl fire [] d

theorem session_erases (top : TreeId) (uses : List (Use σ)) (m : Machine (Recorded μ σ) μ σ) :
    Agree id (fun n n' => n = erase n') (sys.session .plain top uses (erase m)) (sys.session .recording top uses m) :=
  erases m fun d => Tie.session_lock sys.copies_self rfl uses [] d

/-- What is reached is reached with a history. -/
theorem reached_recorded {top : TreeId} {initial : Store σ} {m : Machine (Store σ) μ σ}
    (h : sys.Reached .plain top initial m) :
    ∃ m', sys.Reached .recording top { store := initial } m' ∧ erase m' = m := by
  induction h with
  | start runs => exact ⟨blank _, .start (by rw [← runs]; rfl), rfl⟩
  | @between m f context memory journal heard _ slots height ih =>
    obtain ⟨m', reached, rfl⟩ := ih
    exact ⟨_, .between context memory journal heard reached slots height, rfl⟩
  | @tick _ _ delta state _ _ ok ih =>
    obtain ⟨m', reached, rfl⟩ := ih
    obtain ⟨n', ok', rfl⟩ := (tick_erases top delta state m').of_left ok
    exact ⟨n', .tick reached ok', rfl⟩
  | @reset _ _ fire _ ok ih =>
    obtain ⟨m', reached, rfl⟩ := ih
    obtain ⟨n', ok', rfl⟩ := (reset_erases top fire m').of_left ok
    exact ⟨n', .reset reached ok', rfl⟩

end System

end BehaviorTree
