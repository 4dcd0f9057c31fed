/-
  BehaviorTree.Proofs.Depth: ticks and resets come to an end, and ticks stay within their limits.

  The references between trees may form any cycles. A tick goes down a cycle until the
  recursion guard refuses a call; a reset goes down for as long as it finds calls that were
  unfinished, and forgets them on the way. So whatever was ticked and reset before, and
  however ticks ended, neither runs into a bound of the machine itself
  (`recursion_bounded`).
-/

import BehaviorTree.Proofs.Erasure
import BehaviorTree.Proofs.Guard
import BehaviorTree.Proofs.ResetComplete
import BehaviorTree.Proofs.Walks.Trees

namespace BehaviorTree

variable {μ σ : Type}

/-- Where every shallower call is admitted the limits are kept. -/
theorem Limits.within {l : Limits} {depth : Nat} (admitted : ∀ d < depth, l.Admits d) :
    depth ≤ l.maxCallDepth.toNat ∧ ∀ capacity, l.stackCapacity = some capacity → depth ≤ capacity.toNat := by
  cases depth with
  | zero => exact ⟨Nat.zero_le _, fun _ _ => Nat.zero_le _⟩
  | succ d => exact admitted d d.lt_succ_self

/-- Two results that agree stop with the same fault. -/
theorem Agree.fault_of_left {ρ ρ' α : Type} {post : Machine ρ μ σ → Machine ρ' μ σ → Prop}
    {x : EStateM.Result Fault (Machine ρ μ σ) α} {y : EStateM.Result Fault (Machine ρ' μ σ) α} {e : Fault}
    {m : Machine ρ μ σ} (h : Agree id post x y) (left : x = .error e m) : ∃ m', y = .error e m' := by
  cases h with
  | ok => cases left
  | error => cases left; exact ⟨_, rfl⟩

namespace System

variable (sys : System μ σ)

/-- Where ticks and resets of any trees lead from here. A tick may stop with a fault. In between the board, the
memory and what is in use may change, the slots may not. -/
inductive Onward (start : Machine (Recorded μ σ) μ σ) : Machine (Recorded μ σ) μ σ → Prop
  | refl : Onward start start
  | between {m : Machine (Recorded μ σ) μ σ} {f : Store σ → Store σ} (context : Context σ) (memory : μ)
      (journal : Array Diagnostic) (heard : Array TraceEvent) : Onward start m →
      (∀ s p, (f s).slot p = s.slot p) → (∀ s, (f s).height = s.height) →
      Onward start { context, memory, runs := Stage.recording.onStore f m.runs, journal, heard }
  | tick {m : Machine (Recorded μ σ) μ σ} (tree : TreeId) (delta : Float32) (state : Option σ) : Onward start m →
      Onward start ((sys.tick .recording tree delta state).last m)
  | reset {m : Machine (Recorded μ σ) μ σ} (tree : TreeId) (fire : Bool) : Onward start m →
      Onward start ((sys.reset .recording tree fire).last m)

/-- The machine has come there from one that remembers nothing. -/
def Continued (m : Machine (Recorded μ σ) μ σ) : Prop :=
  ∃ start, (∀ p, start.runs.store.slot p = .idle) ∧ sys.Onward start m

variable {sys} {takes : Prop} {limits : Limits} {limit : Nat} {s s₁ : Spot} {m m₁ m' : Machine (Recorded μ σ) μ σ}
  {tree : TreeId}

/-! ## What is reached can be followed -/

theorem Followable.of_idle {s : Store σ} (idle : ∀ p, s.slot p = .idle) : sys.Followable s where
  bounded p hp := absurd (idle p) hp
  inside p _ _ _ hs := by cases (idle p).symm.trans hs

theorem reset_sweeps (followable : sys.Followable m.runs.store) (tree : TreeId) (fire : Bool) :
    ∃ m', sys.reset .recording tree fire m = .ok () m' ∧ sys.Swept ⟨[tree], 0⟩ (fun _ => False) m m' :=
  sweeps_resetAt tree (pure .failure) m 0 fire followable trivial

theorem Ticked.followable {a : Run (Recorded μ σ) μ σ Status} (h : sys.Ticked takes tree m (a m))
    (followable : sys.Followable m.runs.store) : sys.Followable (a.last m).runs.store := by
  unfold Run.last
  generalize a m = r at h
  cases h with
  | busy _ along => exact along.followable followable
  | ran ran =>
    cases ran with
    | ended begins deeds after _ => exact after.followable (deeds.sits (begins.sits followable)).followable
    | stopped begins _ deeds broken => exact broken.followable (deeds.sits (begins.sits followable)).followable

theorem Onward.followable (modest : sys.Modest takes) (followable : sys.Followable m.runs.store)
    (h : sys.Onward m m') : sys.Followable m'.runs.store := by
  induction h with
  | refl => exact followable
  | between _ _ _ _ _ slots height ih => exact ih.of_faded (fun q => .inl (slots _ q)) (height _)
  | tick tree delta state _ ih => exact (tick_ticked modest ih tree delta state).followable ih
  | @reset m tree fire _ ih =>
    obtain ⟨m', ok, swept⟩ := reset_sweeps ih tree fire
    rw [Run.last_ok ok]
    exact swept.followable ih

theorem Continued.followable (modest : sys.Modest takes) (h : sys.Continued m) : sys.Followable m.runs.store := by
  obtain ⟨start, idle, onward⟩ := h
  exact onward.followable modest (.of_idle idle)

/-! ## How deep nodes are entered -/

theorem Begins.guards (h : sys.Begins tree m m₁) : sys.Guards (sys.limitsOf tree) [] m₁.context where
  depth := h.depth
  maxDepth := h.maxDepth
  stack := h.stack
  levels i frame hf := by cases hf
  admitted d hd := by
    rw [h.depth] at hd
    cases hd

/-- A tick that runs carries on what its deeds do, up to its end or up to where it broke off. -/
theorem Ran.carry {P : List (Moment μ σ) → Spot → Machine (Recorded μ σ) μ σ → Prop}
    {r : EStateM.Result Fault (Machine (Recorded μ σ) μ σ) Status} (h : sys.Ran takes tree m r)
    (followable : sys.Followable m.runs.store)
    (carried : sys.Carried takes (sys.limitsOf tree) (sys.limitsOf tree).maxCallDepth.toNat P)
    (start : ∀ {m₁}, sys.Begins tree m m₁ → P [] (.within []) m₁) : ∃ xs, match r with
      | .ok _ m' => m'.runs.history = m.runs.history ++ xs ∧ ∃ m₁, P xs (.within []) m₁ ∧ Alongside m₁ m' ∧
          (m'.runs.store.progress tree).overflow = m₁.context.overflow
      | .error e m' => m'.runs.history = m.runs.history ++ xs ∧ e.Raised ∧ ∃ s m₁, P xs s m₁ ∧ sys.Broken m₁ m' := by
  cases h with
  | ended begins deeds after overflow =>
    obtain ⟨xs, history, here⟩ := deeds.carry carried (begins.sits followable) begins.guards (start begins)
    exact ⟨xs, by rw [after.history, history, begins.history], _, here, after, overflow⟩
  | stopped begins raised deeds broken =>
    obtain ⟨xs, history, here⟩ := deeds.carry carried (begins.sits followable) begins.guards (start begins)
    exact ⟨xs, by rw [broken.history, history, begins.history], raised, _, _, here, broken⟩

variable (limits) in
/-- Every node is entered at a depth that the limits admit. -/
def EntersWithin (xs : List (Moment μ σ)) : Prop :=
  ∀ site scene, .entered site scene ∈ xs → ∀ d < scene.context.depth, limits.Admits d

theorem Deed.entersWithin {xs : List (Moment μ σ)} (sits : sys.Sits limit s m)
    (guards : sys.Guards limits s.path m.context) (h : EntersWithin limits xs) (deed : sys.Deed takes s m s₁ m₁) :
    ∃ ys, m₁.runs.history = m.runs.history ++ ys ∧ EntersWithin limits (xs ++ ys) := by
  obtain ⟨ys, history, entry⟩ := deed.entry
  refine ⟨ys, history, fun site scene entered => ?_⟩
  rcases List.mem_append.mp entered with before | now
  · exact h site scene before
  · rw [(entry site scene now).2]
    exact (deed.guards sits guards).admitted

/-- A tick, whatever comes of it, enters nodes where the limits of its tree admit it. -/
theorem Ticked.entries {a : Run (Recorded μ σ) μ σ Status} (h : sys.Ticked takes tree m (a m))
    (followable : sys.Followable m.runs.store) : (∀ e m', a m = .error e m' → e.Raised) ∧
    ∃ xs, (a.last m).runs.history = m.runs.history ++ xs ∧ EntersWithin (sys.limitsOf tree) xs := by
  unfold Run.last
  generalize a m = r at h
  cases h with
  | busy _ along =>
    exact ⟨fun _ _ h => (nomatch h), [], along.history.trans (List.append_nil _).symm, fun _ _ h => nomatch h⟩
  | ran ran =>
    obtain ⟨xs, came⟩ := ran.carry (P := fun xs _ _ => EntersWithin (sys.limitsOf tree) xs) followable
      Deed.entersWithin fun _ _ _ h => nomatch h
    cases r with
    | ok st m₁ =>
      obtain ⟨history, _, entries, -⟩ := came
      exact ⟨fun _ _ h => (nomatch h), xs, history, entries⟩
    | error e m₁ =>
      obtain ⟨history, raised, _, _, entries, -⟩ := came
      refine ⟨fun _ _ h => ?_, xs, history, entries⟩
      cases h
      exact raised

end System

open Recorded (erase) in
/-- In every system of modest trees, wherever ticks and resets have led: a tick ends, well or with a fault of
the program, and enters no node deeper than the limits of its tree allow; a reset ends well. -/
theorem recursion_bounded (sys : System μ σ) (modest : sys.Modest True) (m : Machine (Recorded μ σ) μ σ)
    (h : sys.Continued m) (tree : TreeId) :
    (∀ delta state, (∀ e m', sys.tick .plain tree delta state (erase m) = .error e m' → e.Raised) ∧
      ∃ xs, ((sys.tick .recording tree delta state).last m).runs.history = m.runs.history ++ xs ∧
        ∀ site scene, .entered site scene ∈ xs → scene.context.depth ≤ (sys.limitsOf tree).maxCallDepth.toNat ∧
          ∀ capacity, (sys.limitsOf tree).stackCapacity = some capacity → scene.context.depth ≤ capacity.toNat) ∧
    ∀ fire, ∃ m', sys.reset .plain tree fire (erase m) = .ok () m' := by
  have followable := h.followable modest
  refine ⟨fun delta state => ?_, fun fire => ?_⟩
  · obtain ⟨raised, xs, history, entries⟩ :=
      (System.tick_ticked modest followable tree delta state).entries followable
    refine ⟨fun e n h => ?_, xs, history, fun site scene h => ?_⟩
    · obtain ⟨m', failed⟩ := (System.tick_erases tree delta state m).fault_of_left h
      exact raised e m' failed
    · exact Limits.within (entries site scene h)
  · obtain ⟨m', ok, -⟩ := System.reset_sweeps followable tree fire
    obtain ⟨n, ok, -⟩ := (System.reset_erases tree fire m).of_right ok
    exact ⟨n, ok⟩

/-! ## The tree that calls itself -/

theorem nested_modest (takes : Prop) : nested.Modest takes := by
  intro site node h
  rcases nested_nodes site node h with ⟨-, rfl⟩ | ⟨-, rfl⟩ | ⟨-, rfl⟩ | ⟨-, rfl⟩ <;> trivial

/-- How many calls deep a node is entered. -/
def Moment.entryDepth : Moment μ σ → Option Nat
  | entered _ scene => some scene.context.depth
  | _ => none

/-- The answer of a tick, and the depths at which it enters nodes. -/
def nestedDepths : Run (Recorded (List Status) Unit) (List Status) Unit (Status × List Nat) := do
  let status ← nested.tick .recording 0 0 none
  let after ← get
  return (status, after.runs.history.filterMap Moment.entryDepth)

/-- The tick enters nodes two calls deep, as its limits allow, and none deeper. -/
theorem nested_goes_two_deep :
    ∃ m', nested.tick .recording 0 0 none (Recorded.blank nestedStart) = .ok .running m' ∧
      (∃ site scene, .entered site scene ∈ m'.runs.history ∧ scene.context.depth = 2) ∧
      ∀ site scene, .entered site scene ∈ m'.runs.history → scene.context.depth ≤ 2 := by
  obtain ⟨_, ran⟩ := Run.ok_of_answer (a := nestedDepths) (m := Recorded.blank nestedStart)
    (x := (.running, [0, 0, 0, 0, 1, 1, 1, 1, 2, 2, 2, 2])) (by decide +kernel)
  simp only [nestedDepths, Run.bind_eq_ok, Run.get_eq_ok, Run.pure_eq_ok, Prod.mk.injEq] at ran
  obtain ⟨_, m', ticked, _, _, ⟨rfl, rfl⟩, ⟨rfl, depths⟩, rfl⟩ := ran
  have start : nested.Continued (Recorded.blank nestedStart) := ⟨_, Store.slot_empty, .refl⟩
  obtain ⟨bounded, -⟩ := recursion_bounded nested (nested_modest True) _ start 0
  obtain ⟨-, xs, history, within⟩ := bounded 0 none
  obtain rfl : m'.runs.history = xs := by
    rw [Run.last_ok ticked] at history
    exact history
  refine ⟨m', ticked, ?_, fun site scene h => (within site scene h).1⟩
  have two : 2 ∈ m'.runs.history.filterMap Moment.entryDepth := by
    rw [depths]
    decide
  obtain ⟨x, mem, depth⟩ := List.mem_filterMap.mp two
  unfold Moment.entryDepth at depth
  split at depth
  · exact ⟨_, _, mem, Option.some.inj depth⟩
  · cases depth

end BehaviorTree
