/-
  BehaviorTree.Proofs.History: runs that write down what happened.

  On the recording stage every node notes when a tick enters it, when the tick leaves it
  with its answer, and when its run is abandoned, each with the scene at that moment. The
  history grows at its end and nothing reads it.
-/

import BehaviorTree.Proofs.Run
import BehaviorTree.Stage

namespace BehaviorTree

variable {μ σ : Type}

/-! ## Histories under a law -/

section
variable {α : Type} {law : List α → α → Prop} {history : List α} {x : α}

/-- Every entry of the history is one that the law allows after those before it. -/
def Lawful (law : List α → α → Prop) (history : List α) : Prop :=
  ∀ before x after, history = before ++ x :: after → law before x

theorem Lawful.nil : Lawful law [] := fun before x after split => by simp at split

theorem Lawful.snoc (h : Lawful law history) (allowed : law history x) : Lawful law (history ++ [x]) := by
  intro before y after split
  obtain rfl | ⟨after, z, rfl⟩ := List.eq_nil_or_concat after
  · obtain ⟨rfl, last⟩ := List.append_inj' split rfl
    cases last
    exact allowed
  · rw [List.concat_eq_append, ← List.cons_append, ← List.append_assoc] at split
    exact h before y after (List.append_inj' split rfl).1

/-- What came first was lawful as well. -/
theorem Lawful.of_append {more : List α} (h : Lawful law (history ++ more)) : Lawful law history :=
  fun before x after split => h before x (after ++ more) (by simp [split])

/-- Some history allowed each entry. -/
theorem Lawful.of_mem (h : Lawful law history) (among : x ∈ history) : ∃ before, law before x := by
  obtain ⟨before, after, split⟩ := List.append_of_mem among
  exact ⟨before, h before x after split⟩

end

/-! ## Where a history comes from -/

/-- How something starts, and how it goes on: in steps that are told, and by changes between them that are not. -/
structure Going (α τ : Type) where
  starts : τ → Prop
  aside : τ → τ → Prop
  step : τ → α → τ → Prop

namespace Going

variable {α τ : Type} {going : Going α τ} {history : List α} {s t : τ}

variable (going) in
/-- This is what it may have come to, with this history. -/
inductive Reaches : List α → τ → Prop
  | start {s : τ} : going.starts s → Reaches [] s
  | aside {history : List α} {s t : τ} : Reaches history s → going.aside s t → Reaches history t
  | step {history : List α} {s t : τ} {x : α} : Reaches history s → going.step s x t → Reaches (history ++ [x]) t

/-- What holds at the start, and is kept by each step and by all that goes on between them. -/
theorem Reaches.invariant (inv : List α → τ → Prop) (start : ∀ s, going.starts s → inv [] s)
    (aside : ∀ history s t, inv history s → going.aside s t → inv history t)
    (step : ∀ history s x t, inv history s → going.step s x t → inv (history ++ [x]) t)
    (h : going.Reaches history s) : inv history s := by
  induction h with
  | start starts => exact start _ starts
  | aside _ moved ih => exact aside _ _ _ ih moved
  | step _ stepped ih => exact step _ _ _ _ ih stepped

/-- What is told when these things are done one after the other, each after what came of the one before is made ready. -/
def played {ι : Type} (act : τ → ι → Option (α × τ)) (ready : τ → τ) : τ → List ι → Option (List α)
  | _, [] => some []
  | s, use :: uses => do
    let (x, t) ← act s use
    let rest ← played act ready (ready t) uses
    return x :: rest

theorem Reaches.played {ι : Type} {act : τ → ι → Option (α × τ)} {ready : τ → τ} {told : List α} {uses : List ι}
    (fresh : τ → Prop) (steps : ∀ s use x t, fresh s → act s use = some (x, t) → going.step s x t)
    (aside : ∀ s, going.aside s (ready s)) (refreshes : ∀ s, fresh (ready s)) (reached : going.Reaches history s)
    (start : fresh s) (h : Going.played act ready s uses = some told) : ∃ t, going.Reaches (history ++ told) t := by
  induction uses generalizing history s told with
  | nil =>
    cases h
    exact ⟨s, by rwa [List.append_nil]⟩
  | cons use uses ih =>
    simp only [Going.played, Option.bind_eq_bind, Option.bind_eq_some_iff, Option.pure_def, Option.some.injEq] at h
    obtain ⟨⟨x, t⟩, made, rest, goes, rfl⟩ := h
    rw [← List.singleton_append, ← List.append_assoc]
    exact ih (.aside (.step reached (steps _ _ _ _ start made)) (aside t)) (refreshes t) goes

end Going

/-! ## What happens to the nodes -/

/-- The machine at some moment, its outputs apart. -/
structure Scene (μ σ : Type) where
  context : Context σ
  memory : μ
  store : Store σ

/-- What can happen to the node at an address. -/
inductive Moment (μ σ : Type) where
  | entered (site : Address) (scene : Scene μ σ)
  | left (site : Address) (status : Status) (scene : Scene μ σ)
  | abandoned (site : Address) (depth : Nat) (fire : Bool) (scene : Scene μ σ)

/-- A store and what has happened so far, oldest first. -/
structure Recorded (μ σ : Type) where
  store : Store σ
  history : List (Moment μ σ) := []

namespace Recorded

/-- The scene a machine shows. -/
def scene (m : Machine (Recorded μ σ) μ σ) : Scene μ σ := ⟨m.context, m.memory, m.runs.store⟩

/-- The machine with one more moment written down. -/
def add (x : Moment μ σ) (m : Machine (Recorded μ σ) μ σ) : Machine (Recorded μ σ) μ σ :=
  m.onRuns fun r => { r with history := r.history ++ [x] }

/-- Writes down a moment of the scene in place. -/
def note (moment : Scene μ σ → Moment μ σ) : Run (Recorded μ σ) μ σ Unit := fun m => .ok () (add (moment (scene m)) m)

@[simp] theorem add_context (x : Moment μ σ) (m : Machine (Recorded μ σ) μ σ) : (add x m).context = m.context := rfl
@[simp] theorem add_memory (x : Moment μ σ) (m : Machine (Recorded μ σ) μ σ) : (add x m).memory = m.memory := rfl
@[simp] theorem add_store (x : Moment μ σ) (m : Machine (Recorded μ σ) μ σ) : (add x m).runs.store = m.runs.store := rfl
@[simp] theorem add_history (x : Moment μ σ) (m : Machine (Recorded μ σ) μ σ) :
    (add x m).runs.history = m.runs.history ++ [x] := rfl

@[simp] theorem note_eq_ok {moment : Scene μ σ → Moment μ σ} {u : Unit} {m m' : Machine (Recorded μ σ) μ σ} :
    note moment m = .ok u m' ↔ add (moment (scene m)) m = m' := by
  simp [note]

end Recorded

open Recorded in
/-- The store beside a history, which every node writes. -/
def Stage.recording : Stage (Recorded μ σ) μ σ where
  store := Recorded.store
  onStore f r := { r with store := f r.store }
  watch site b := {
    tick := do
      note (.entered site)
      let status ← b.tick
      note (.left site status)
      return status
    reset := fun depth fire => do
      note (.abandoned site depth fire)
      b.reset depth fire }
  store_onStore _ _ := rfl

open Recorded in
/-- A recorded tick, whatever it comes to. -/
theorem recording_tick (site : Address) (b : Behaviour (Recorded μ σ) μ σ) (m : Machine (Recorded μ σ) μ σ) :
    (Stage.recording.watch site b).tick m =
      match b.tick (add (.entered site (scene m)) m) with
      | .ok st m₁ => .ok st (add (.left site st (scene m₁)) m₁)
      | .error e m₁ => .error e m₁ := by
  show EStateM.bind b.tick _ _ = _
  unfold EStateM.bind
  cases b.tick (add (.entered site (scene m)) m) <;> rfl

open Recorded in
/-- A recorded tick is a tick between two moments. -/
theorem recording_tick_ok {site : Address} {b : Behaviour (Recorded μ σ) μ σ} {st : Status}
    {m m' : Machine (Recorded μ σ) μ σ} (h : (Stage.recording.watch site b).tick m = .ok st m') :
    ∃ m₁, b.tick (add (.entered site (scene m)) m) = .ok st m₁ ∧ m' = add (.left site st (scene m₁)) m₁ := by
  simp only [Stage.recording, Run.bind_eq_ok, note_eq_ok, Run.pure_eq_ok] at h
  obtain ⟨_, _, rfl, s, m₁, ticked, _, _, rfl, rfl, rfl⟩ := h
  exact ⟨m₁, ticked, rfl⟩

open Recorded in
/-- A recorded reset is a reset after a moment. -/
theorem recording_reset (site : Address) (b : Behaviour (Recorded μ σ) μ σ) (d : Nat) (fire : Bool)
    (m : Machine (Recorded μ σ) μ σ) :
    (Stage.recording.watch site b).reset d fire m = b.reset d fire (add (.abandoned site d fire (scene m)) m) := rfl

end BehaviorTree
