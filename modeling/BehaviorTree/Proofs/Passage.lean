/-
  BehaviorTree.Proofs.Passage: what a tick of each behaviour goes through.

  One lemma a behaviour (or one for each of its parts) that takes a tick that succeeded
  apart: which children were ticked or reset, on which machines, and what the behaviour
  did to its own slot in between. Nothing below looks into a behaviour again. Behaviours
  that differ only in their answers share what follows from it (`HoldsWhileRunning` for
  leaves, `NotesChild` for nodes with one child).
-/

import BehaviorTree.Node.Behaviour
import BehaviorTree.Proofs.Place
import BehaviorTree.Proofs.Run

namespace BehaviorTree

variable {ρ μ σ : Type} {cell : Cell ρ σ} {child : Behaviour ρ μ σ} {children : List (Behaviour ρ μ σ)}
  {m m' : Machine ρ μ σ} {st : Status} {d : Nat} {u : Unit}

theorem Status.isRunning_iff {s : Status} : s.isRunning = true ↔ s = .running := by
  cases s <;> simp [isRunning]

theorem Status.isTerminal_iff {s : Status} : s.isTerminal = true ↔ s ≠ .running := by
  cases s <;> simp [isTerminal, isRunning]

theorem Status.ofBool_isTerminal (b : Bool) : (Status.ofBool b).isTerminal = true := by cases b <;> rfl

@[simp] theorem Status.isTerminal_invert (s : Status) : s.invert.isTerminal = s.isTerminal := by cases s <;> rfl

namespace Behaviour

/-! ## Leaves -/

theorem leaf_tick {tick : Nat → Run ρ μ σ Status} : (cell.leaf tick).tick m = tick m.context.depth m := rfl

theorem leaf_ok {tick : Nat → Run ρ μ σ Status} (h : (cell.leaf tick).tick m = .ok st m') :
    tick m.context.depth m = .ok st m' := by
  simp only [Cell.leaf, Run.bind_eq_ok, Run.depth_eq_ok] at h
  obtain ⟨_, _, ⟨rfl, rfl⟩, h⟩ := h
  exact h

theorem keptAnswer_ok {every : Duration} {answer : Option Bool}
    (h : keptAnswer cell every d m = .ok answer m') :
    answer = none ∧ m' = m ∨ ∃ a t, answer = some a ∧ m' = m.onRuns (cell.set · d (.answered a t)) := by
  simp only [keptAnswer, Run.bind_eq_ok, Cell.read_eq_ok] at h
  obtain ⟨slot, _, ⟨-, rfl⟩, h⟩ := h
  split at h
  · simp only [Run.bind_eq_ok, Run.delta_eq_ok, Run.ite_eq_ok, Run.pure_eq_ok, Cell.keep_eq_ok] at h
    obtain ⟨_, _, ⟨rfl, rfl⟩, ⟨-, rfl, rfl⟩ | ⟨-, _, _, rfl, rfl, rfl⟩⟩ := h
    · exact .inl ⟨rfl, rfl⟩
    · exact .inr ⟨_, _, rfl, rfl⟩
  · simp only [Run.pure_eq_ok] at h
    exact .inl ⟨h.1.symm, h.2.symm⟩

/-- A condition ends, and keeps an answer at most. -/
theorem condition_ok {holds : Predicate μ σ} {every : Duration}
    (h : (condition cell holds every).tick m = .ok st m') :
    st.isTerminal = true ∧ ∃ x, m' = m.withMemory x ∨
      ∃ slot, m' = (m.withMemory x).onRuns (cell.set · m.context.depth slot) := by
  replace h := leaf_ok h
  simp only [Run.ite_eq_ok, Run.bind_eq_ok, Run.test_eq_ok, Run.pure_eq_ok] at h
  obtain ⟨-, answer, m₁, kept, h⟩ | ⟨-, b, _, ⟨-, rfl⟩, rfl, rfl⟩ := h
  · rcases keptAnswer_ok kept with ⟨rfl, rfl⟩ | ⟨a, t, rfl, rfl⟩
    · simp only [Run.bind_eq_ok, Run.test_eq_ok, Cell.keep_eq_ok, Run.pure_eq_ok] at h
      obtain ⟨b, _, ⟨-, rfl⟩, _, _, rfl, rfl, rfl⟩ := h
      exact ⟨Status.ofBool_isTerminal _, _, .inr ⟨_, rfl⟩⟩
    · simp only [Run.pure_eq_ok] at h
      obtain ⟨rfl, rfl⟩ := h
      exact ⟨Status.ofBool_isTerminal _, m.memory, .inr ⟨_, rfl⟩⟩
  · exact ⟨Status.ofBool_isTerminal _, _, .inl rfl⟩

theorem waitUntil_ok {holds : Predicate μ σ} {every : Duration}
    (h : (waitUntil cell holds every).tick m = .ok st m') :
    ∃ x, st = .success ∧ m' = (m.withMemory x).onRuns (cell.reset · m.context.depth) ∨
      st = .running ∧ ∃ a t, m' = (m.withMemory x).onRuns (cell.set · m.context.depth (.answered a t)) := by
  replace h := leaf_ok h
  simp only [Run.ite_eq_ok, Run.bind_eq_ok, Run.test_eq_ok, Run.pure_eq_ok, Cell.forget_eq_ok,
    Cell.keep_eq_ok] at h
  obtain ⟨answer, m₁, kept, ⟨due, rfl, rfl⟩ | ⟨due, b, _, ⟨-, rfl⟩, h⟩⟩ := h
  · rcases keptAnswer_ok kept with ⟨rfl, -⟩ | ⟨a, t, -, rfl⟩
    · cases due
    · exact ⟨m.memory, .inr ⟨rfl, a, t, rfl⟩⟩
  · rcases keptAnswer_ok kept with ⟨-, rfl⟩ | ⟨a, t, rfl, -⟩
    · obtain ⟨-, _, _, rfl, rfl, rfl⟩ | ⟨-, _, _, rfl, rfl, rfl⟩ := h
      · exact ⟨_, .inl ⟨rfl, rfl⟩⟩
      · exact ⟨_, .inr ⟨rfl, _, _, rfl⟩⟩
    · simp at due

theorem wait_ok {duration : Duration} (h : (wait cell duration).tick m = .ok st m') :
    st = .success ∧ m' = m.onRuns (cell.reset · m.context.depth) ∨
      st = .running ∧ ∃ t, m' = m.onRuns (cell.set · m.context.depth (.elapsed t)) := by
  replace h := leaf_ok h
  simp only [Run.ite_eq_ok, Run.bind_eq_ok, Cell.read_eq_ok, Run.delta_eq_ok, Run.pure_eq_ok,
    Cell.forget_eq_ok, Cell.keep_eq_ok] at h
  obtain ⟨slot, _, ⟨-, rfl⟩, _, _, ⟨-, rfl⟩, h⟩ := h
  obtain ⟨-, _, _, rfl, rfl, rfl⟩ | ⟨-, _, _, rfl, rfl, rfl⟩ := h
  · exact .inl ⟨rfl, rfl⟩
  · exact .inr ⟨rfl, _, rfl⟩

theorem pause_ok (h : (pause cell).tick m = .ok st m') :
    st = .success ∧ m' = m.onRuns (cell.reset · m.context.depth) ∨
      st = .running ∧ m' = m.onRuns (cell.set · m.context.depth .started) := by
  replace h := leaf_ok h
  simp only [Run.bind_eq_ok, Cell.read_eq_ok] at h
  obtain ⟨slot, _, ⟨-, rfl⟩, h⟩ := h
  split at h
  all_goals
    simp only [Run.bind_eq_ok, Cell.forget_eq_ok, Cell.keep_eq_ok, Run.pure_eq_ok] at h
    obtain ⟨_, _, rfl, rfl, rfl⟩ := h
  · exact .inl ⟨rfl, rfl⟩
  · exact .inr ⟨rfl, rfl⟩

/-- A leaf that keeps something in its slot while it is running, and nothing once it has succeeded. -/
def HoldsWhileRunning (cell : Cell ρ σ) (leaf : Behaviour ρ μ σ) : Prop :=
  ∀ m st m', leaf.tick m = .ok st m' → ∃ x,
    st = .success ∧ m' = (m.withMemory x).onRuns (cell.reset · m.context.depth) ∨
      st = .running ∧ ∃ slot, m' = (m.withMemory x).onRuns (cell.set · m.context.depth slot)

theorem waitUntil_holdsWhileRunning {holds : Predicate μ σ} {every : Duration} :
    HoldsWhileRunning cell (waitUntil cell holds every) := by
  intro m st m' ok
  obtain ⟨x, ended | ⟨running, a, t, kept⟩⟩ := waitUntil_ok ok
  · exact ⟨x, .inl ended⟩
  · exact ⟨x, .inr ⟨running, _, kept⟩⟩

theorem wait_holdsWhileRunning {duration : Duration} :
    HoldsWhileRunning cell (wait cell duration : Behaviour ρ μ σ) := by
  intro m st m' ok
  rcases wait_ok ok with ended | ⟨running, t, kept⟩
  · exact ⟨m.memory, .inl ended⟩
  · exact ⟨m.memory, .inr ⟨running, _, kept⟩⟩

theorem pause_holdsWhileRunning : HoldsWhileRunning cell (pause cell : Behaviour ρ μ σ) := by
  intro m st m' ok
  rcases pause_ok ok with ended | ⟨running, kept⟩
  · exact ⟨m.memory, .inl ended⟩
  · exact ⟨m.memory, .inr ⟨running, _, kept⟩⟩

theorem earlyReturn_ok {v : Verdict} (h : (earlyReturn v : Behaviour ρ μ σ).tick m = .ok st m') :
    st = v.status ∧ { m with context := { m.context with returnRequest := some v.status } }.Alike m' := by
  simp only [earlyReturn, ofTick, Run.requestReturn, Run.bind_eq_ok, Run.onContext_eq_ok, Run.depth_eq_ok,
    Run.pure_eq_ok] at h
  obtain ⟨_, _, rfl, _, _, ⟨-, rfl⟩, _, _, ht, rfl, rfl⟩ := h
  exact ⟨rfl, Run.trace_alike ht⟩

/-! ## One child, whose end is noted -/

/-- What a node that notes the end of its child remembers. -/
def noted (s : Status) : Slot σ := if s.isRunning then .started else .idle

theorem invert_ok (h : (invert cell child).tick m = .ok st m') :
    ∃ s m₁, child.tick m = .ok s m₁ ∧ st = s.invert ∧
      m' = m₁.onRuns (cell.set · m₁.context.depth (noted s)) := by
  simp only [invert, Cell.note, Run.bind_eq_ok, Run.depth_eq_ok, Cell.keep_eq_ok, Run.pure_eq_ok] at h
  obtain ⟨s, m₁, hc, _, _, ⟨rfl, rfl⟩, _, _, rfl, rfl, rfl⟩ := h
  exact ⟨s, _, hc, rfl, rfl⟩

theorem force_ok {v : Verdict} (h : (force cell v child).tick m = .ok st m') :
    ∃ s m₁, child.tick m = .ok s m₁ ∧ st = (if s.isRunning then .running else v.status) ∧
      m' = m₁.onRuns (cell.set · m₁.context.depth (noted s)) := by
  simp only [force, Cell.note, Run.bind_eq_ok, Run.depth_eq_ok, Cell.keep_eq_ok, Run.pure_eq_ok] at h
  obtain ⟨s, m₁, hc, _, _, ⟨rfl, rfl⟩, _, _, rfl, rfl, rfl⟩ := h
  exact ⟨s, _, hc, rfl, rfl⟩

theorem repeatUntil_ok {v : Verdict} (h : (repeatUntil cell v child).tick m = .ok st m') :
    ∃ s m₁, child.tick m = .ok s m₁ ∧
      st = (if m₁.context.returnRequest.isSome then s else if s = v.status then .success else .running) ∧
      m' = m₁.onRuns (cell.set · m₁.context.depth (noted s)) := by
  simp only [repeatUntil, Cell.note, Run.bind_eq_ok, Run.depth_eq_ok, Cell.keep_eq_ok, Run.pure_eq_ok,
    Run.returning_eq_ok, Run.ite_eq_ok] at h
  obtain ⟨s, m₁, hc, _, _, ⟨rfl, rfl⟩, _, _, rfl, b, _, ⟨hb, rfl⟩, h⟩ := h
  refine ⟨s, _, hc, ?_, ?_⟩
  · simp only [Machine.onRuns_context] at hb
    rcases h with ⟨hr, rfl, -⟩ | ⟨hr, rfl, -⟩ <;> simp [hb, hr]
  · rcases h with ⟨-, -, rfl⟩ | ⟨-, -, rfl⟩ <;> rfl

theorem admits_ok {holds : Predicate μ σ} {b : Bool} (h : admits cell holds d m = .ok b m') :
    cell.get m.runs d = .started ∧ b = true ∧ m' = m ∨
      cell.get m.runs d ≠ .started ∧ ∃ x, m' = m.withMemory x := by
  simp only [admits, Run.bind_eq_ok, Cell.read_eq_ok] at h
  obtain ⟨slot, _, ⟨hs, rfl⟩, h⟩ := h
  split at h
  · simp only [Run.pure_eq_ok] at h
    exact .inl ⟨hs, h.1.symm, h.2.symm⟩
  · rename_i hne
    simp only [Run.test_eq_ok] at h
    exact .inr ⟨fun k => hne (hs.symm.trans k), _, h.2.symm⟩

theorem guard_ok {holds : Predicate μ σ} (h : (guard cell holds child).tick m = .ok st m') :
    (cell.get m.runs m.context.depth ≠ .started ∧ st = .failure ∧ ∃ x, m' = m.withMemory x) ∨
    ∃ x m₁, child.tick (m.withMemory x) = .ok st m₁ ∧
      m' = m₁.onRuns (cell.set · m.context.depth (noted st)) := by
  simp only [guard, Cell.note, Run.bind_eq_ok, Run.depth_eq_ok, Run.ite_eq_ok, Cell.keep_eq_ok,
    Run.pure_eq_ok] at h
  obtain ⟨_, _, ⟨rfl, rfl⟩, b, m₀, hb, h⟩ := h
  obtain ⟨x, rfl⟩ : ∃ x, m₀ = m.withMemory x := by
    rcases admits_ok hb with ⟨-, -, rfl⟩ | ⟨-, x, rfl⟩
    · exact ⟨_, (Machine.withMemory_self _).symm⟩
    · exact ⟨x, rfl⟩
  obtain ⟨-, s, m₁, hc, _, _, rfl, rfl, rfl⟩ | ⟨hf, rfl, rfl⟩ := h
  · exact .inr ⟨x, m₁, hc, rfl⟩
  · rcases admits_ok hb with ⟨-, rfl, -⟩ | ⟨fresh, -⟩
    · exact absurd rfl hf
    · exact .inl ⟨fresh, rfl, x, rfl⟩

/-- A node that notes whether it left its child running. It is running while the child is, and a request to return early
that the child leaves ends the node too. It may also fail without a look at the child, if that is not in a run. -/
def NotesChild (cell : Cell ρ σ) (child node : Behaviour ρ μ σ) : Prop :=
  ∀ m st m', node.tick m = .ok st m' →
    (cell.get m.runs m.context.depth ≠ .started ∧ st = .failure ∧ ∃ x, m' = m.withMemory x) ∨
    ∃ x s m₁ e, child.tick (m.withMemory x) = .ok s m₁ ∧ (e = m.context.depth ∨ e = m₁.context.depth) ∧
      m' = m₁.onRuns (cell.set · e (noted s)) ∧ (s = .running → st = .running) ∧
      (m₁.context.returnRequest.isSome = true → s.isTerminal = true → st.isTerminal = true)

theorem invert_notesChild : NotesChild cell child (invert cell child) := by
  intro m st m' ok
  obtain ⟨s, m₁, ticked, rfl, rfl⟩ := invert_ok ok
  exact .inr ⟨m.memory, s, m₁, _, ticked, .inr rfl, rfl, by rintro rfl; rfl, fun _ => by simp⟩

theorem force_notesChild {v : Verdict} : NotesChild cell child (force cell v child) := by
  intro m st m' ok
  obtain ⟨s, m₁, ticked, rfl, rfl⟩ := force_ok ok
  refine .inr ⟨m.memory, s, m₁, _, ticked, .inr rfl, rfl, by rintro rfl; rfl, fun _ terminal => ?_⟩
  rw [if_neg (by simpa [Status.isTerminal] using terminal)]
  simp

theorem repeatUntil_notesChild {v : Verdict} : NotesChild cell child (repeatUntil cell v child) := by
  intro m st m' ok
  obtain ⟨s, m₁, ticked, rfl, rfl⟩ := repeatUntil_ok ok
  refine .inr ⟨m.memory, s, m₁, _, ticked, .inr rfl, rfl, fun hs => ?_, fun pending terminal => ?_⟩
  · subst hs
    cases v <;> simp [Verdict.status]
  · rw [if_pos pending]
    exact terminal

theorem guard_notesChild {holds : Predicate μ σ} : NotesChild cell child (guard cell holds child) := by
  intro m st m' ok
  rcases guard_ok ok with refused | ⟨x, m₁, ticked, rfl⟩
  · exact .inl refused
  · exact .inr ⟨x, st, m₁, _, ticked, .inl rfl, rfl, id, fun _ => id⟩

/-! ## One child, again and again -/

theorem iterate_ok {goOn : Verdict} {spent : UInt32 → Bool}
    (h : (iterate cell goOn spent child).tick m = .ok st m') :
    ∃ s m₁, child.tick m = .ok s m₁ ∧
      ((m₁.context.returnRequest.isSome = true ∨ s.isTerminal = true) ∧ st = s ∧
          m' = m₁.onRuns (cell.reset · m.context.depth) ∨
        m₁.context.returnRequest.isSome = false ∧ st = .running ∧ ∃ n,
          m' = m₁.onRuns (cell.set · m.context.depth (.iterations n s.isRunning))) := by
  simp only [iterate, Run.bind_eq_ok, Run.depth_eq_ok, Run.returning_eq_ok, Run.ite_eq_ok, Run.pure_eq_ok,
    Cell.forget_eq_ok, Cell.keep_eq_ok, Cell.read_eq_ok] at h
  obtain ⟨_, _, ⟨rfl, rfl⟩, s, m₁, hc, b, _, ⟨hb, rfl⟩, h⟩ := h
  refine ⟨s, m₁, hc, ?_⟩
  rcases h with ⟨ht, _, _, rfl, rfl, rfl⟩ | ⟨ht, h⟩
  · exact .inl ⟨.inl (hb.trans ht), rfl, rfl⟩
  have calm : m₁.context.returnRequest.isSome = false := by rw [hb]; simpa using ht
  rcases h with ⟨hr, _, _, ⟨rfl, rfl⟩, _, _, rfl, rfl, rfl⟩ | ⟨hr, h⟩
  · exact .inr ⟨calm, rfl, _, by rw [hr]⟩
  have terminal : s.isTerminal = true := by simp [Status.isTerminal, hr]
  rcases h with ⟨-, _, _, rfl, rfl, rfl⟩ | ⟨-, _, _, ⟨rfl, rfl⟩, h⟩
  · exact .inl ⟨.inr terminal, rfl, rfl⟩
  rcases h with ⟨-, _, _, rfl, rfl, rfl⟩ | ⟨-, _, _, rfl, rfl, rfl⟩
  · exact .inl ⟨.inr terminal, rfl, rfl⟩
  · exact .inr ⟨calm, rfl, (cell.get m₁.runs m.context.depth).count + 1, by simp [hr]⟩

/-! ## One child, and time -/

theorem timeout_ok {duration : Duration} (h : (timeout cell duration child).tick m = .ok st m') :
    ∃ s m₁, child.tick m = .ok s m₁ ∧
      (s.isTerminal = true ∧ st = s ∧ m' = m₁.onRuns (cell.reset · m.context.depth) ∨
        s = .running ∧ st = .failure ∧
          child.reset m.context.depth true (m₁.onRuns (cell.reset · m.context.depth)) = .ok () m' ∨
        s = .running ∧ st = .running ∧ ∃ t, m' = m₁.onRuns (cell.set · m.context.depth (.elapsed t))) := by
  simp only [timeout, Run.bind_eq_ok, Run.depth_eq_ok, Cell.read_eq_ok, Run.delta_eq_ok, Run.ite_eq_ok,
    Cell.forget_eq_ok, Cell.keep_eq_ok, Run.pure_eq_ok] at h
  obtain ⟨_, _, ⟨rfl, rfl⟩, slot, _, ⟨-, rfl⟩, _, _, ⟨-, rfl⟩, s, m₁, hc, h⟩ := h
  refine ⟨s, m₁, hc, ?_⟩
  rcases h with ⟨ht, _, _, rfl, rfl, rfl⟩ | ⟨ht, h⟩
  · exact .inl ⟨ht, rfl, rfl⟩
  have running : s = .running := by simpa [Status.isTerminal_iff] using ht
  rcases h with ⟨-, _, _, rfl, _, _, hr, rfl, rfl⟩ | ⟨-, _, _, rfl, rfl, rfl⟩
  · exact .inr (.inl ⟨running, rfl, hr⟩)
  · exact .inr (.inr ⟨running, rfl, _, rfl⟩)

theorem release_ok {duration : Duration} {b : Bool} (h : release cell duration d m = .ok b m') :
    b = true ∧ cell.get m.runs d = .released ∧ m' = m ∨
      cell.get m.runs d ≠ .released ∧ ∃ t, m' = m.onRuns (cell.set · d (if b then .released else .elapsed t)) := by
  simp only [release, Run.bind_eq_ok, Cell.read_eq_ok] at h
  obtain ⟨slot, _, ⟨hs, rfl⟩, h⟩ := h
  split at h
  · simp only [Run.pure_eq_ok] at h
    exact .inl ⟨h.1.symm, hs, h.2.symm⟩
  · rename_i hne
    simp only [Run.bind_eq_ok, Run.delta_eq_ok, Cell.keep_eq_ok, Run.pure_eq_ok] at h
    obtain ⟨_, _, ⟨-, rfl⟩, _, _, rfl, rfl, rfl⟩ := h
    exact .inr ⟨fun hr => hne (hs ▸ hr), _, rfl⟩

theorem delay_ok {duration : Duration} (h : (delay cell duration child).tick m = .ok st m') :
    (release cell duration m.context.depth m = .ok false m' ∧ st = .running) ∨
    ∃ m₀ m₁, release cell duration m.context.depth m = .ok true m₀ ∧ child.tick m₀ = .ok st m₁ ∧
      (st.isTerminal = true ∧ m' = m₁.onRuns (cell.reset · m.context.depth) ∨
        st = .running ∧ m' = m₁) := by
  simp only [delay, Run.bind_eq_ok, Run.depth_eq_ok, Run.ite_eq_ok, Cell.forget_eq_ok, Run.pure_eq_ok] at h
  obtain ⟨_, _, ⟨rfl, rfl⟩, b, m₀, hb, h⟩ := h
  rcases h with ⟨rfl, s, m₁, hc, h⟩ | ⟨hf, rfl, rfl⟩
  · rcases h with ⟨ht, _, _, rfl, rfl, rfl⟩ | ⟨ht, rfl, rfl⟩
    · exact .inr ⟨m₀, m₁, hb, hc, .inl ⟨ht, rfl⟩⟩
    · exact .inr ⟨m₀, _, hb, hc, .inr ⟨by simpa [Status.isTerminal_iff] using ht, rfl⟩⟩
  · cases b with
    | false => exact .inl ⟨hb, rfl⟩
    | true => exact absurd rfl hf

/-! ## One child, bracketed -/

theorem openScope_ok {host : Host ρ μ σ} {hooks : Hooks μ σ} (h : openScope cell host hooks d m = .ok u m') :
    cell.get m.runs d = .started ∧ m' = m ∨
      ∃ m₁, (m.onRuns (cell.set · d .started)).Alike m₁ ∧ hooks.onEnter.run host m₁ = .ok () m' := by
  simp only [openScope, Run.bind_eq_ok, Cell.read_eq_ok] at h
  obtain ⟨slot, _, ⟨hs, rfl⟩, h⟩ := h
  split at h
  · simp only [Run.pure_eq_ok, true_and] at h
    exact .inl ⟨hs, h.symm⟩
  · simp only [Run.bind_eq_ok, Cell.keep_eq_ok] at h
    obtain ⟨_, _, rfl, _, m₁, ht, h⟩ := h
    exact .inr ⟨m₁, Run.trace_alike ht, h⟩

theorem settleReturn_ok {ticked : Status} (h : settleReturn child d ticked m = .ok st m') :
    m.context.returnRequest = none ∧ st = ticked ∧ m' = m ∨
      m.context.returnRequest = some st ∧ ∃ m₁, m.cleared.Alike m₁ ∧
        (ticked = .running ∧ child.reset d true m₁ = .ok () m' ∨ ticked.isTerminal = true ∧ m' = m₁) := by
  simp only [settleReturn, Run.bind_eq_ok, Run.takeReturn_eq_ok] at h
  obtain ⟨r, _, ⟨hr, rfl⟩, h⟩ := h
  cases r with
  | none =>
    simp only [Run.pure_eq_ok] at h
    exact .inl ⟨hr, h.1.symm, by rw [← h.2, Machine.cleared_of_none hr]⟩
  | some requested =>
    simp only [Run.bind_eq_ok, Run.ite_eq_ok, Run.pure_eq_ok] at h
    obtain ⟨_, m₁, hj, h⟩ := h
    rcases h with ⟨ht, _, _, hc, rfl, rfl⟩ | ⟨ht, h⟩
    · exact .inr ⟨hr, m₁, Run.report_alike hj, .inl ⟨Status.isRunning_iff.mp ht, hc⟩⟩
    · exact .inr ⟨h.1 ▸ hr, m₁, Run.report_alike hj, .inr ⟨by simp [Status.isTerminal, ht], h.2.symm⟩⟩

theorem closeScope_ok {hooks : Hooks μ σ} (h : closeScope cell hooks d st m = .ok u m') :
    st = .running ∧ m' = m ∨ st.isTerminal = true ∧ ∃ m₁, (m.onRuns (cell.reset · d)).Alike m₁ ∧
      m' = m₁.withMemory (hooks.onExit st m₁.memory) := by
  simp only [closeScope, Run.bind_eq_ok, Run.ite_eq_ok, Cell.forget_eq_ok, Run.remember_eq_ok,
    Run.pure_eq_ok] at h
  rcases h with ⟨ht, _, _, rfl, _, m₁, hj, h⟩ | ⟨ht, -, rfl⟩
  · exact .inr ⟨ht, m₁, Run.trace_alike hj, h.symm⟩
  · exact .inl ⟨by simpa [Status.isTerminal_iff] using ht, rfl⟩

theorem scope_ok {host : Host ρ μ σ} {hooks : Hooks μ σ} (h : (scope cell host hooks child).tick m = .ok st m') :
    ∃ m₀ ticked m₁ m₂, openScope cell host hooks m.context.depth m = .ok () m₀ ∧
      child.tick m₀ = .ok ticked m₁ ∧ settleReturn child m.context.depth ticked m₁ = .ok st m₂ ∧
      closeScope cell hooks m.context.depth st m₂ = .ok () m' := by
  simp only [scope, Run.bind_eq_ok, Run.depth_eq_ok, Run.pure_eq_ok] at h
  obtain ⟨_, _, ⟨rfl, rfl⟩, _, m₀, ho, ticked, m₁, hc, s, m₂, hs, _, _, hf, rfl, rfl⟩ := h
  exact ⟨m₀, ticked, m₁, m₂, ho, hc, hs, hf⟩

theorem localScope_ok (h : (localScope cell child).tick m = .ok st m') :
    ∃ m₀ m₁ m₂, (m.onRuns (cell.reset · m.context.depth)).Alike m₀ ∧ child.tick m₀ = .ok st m₁ ∧ m₁.Alike m₂ ∧
      (st = .running ∧ (∃ b, m' = m₂.onRuns (cell.set · m.context.depth (.overlay b))) ∨
        st.isTerminal = true ∧ m' = m₂) := by
  simp only [localScope, Run.bind_eq_ok, Run.depth_eq_ok, Cell.take_eq_ok, Run.onContext_eq_ok, Run.context_eq_ok,
    Run.ite_eq_ok, Cell.keep_eq_ok, Run.pure_eq_ok] at h
  obtain ⟨_, _, ⟨rfl, rfl⟩, slot, _, ⟨-, rfl⟩, _, m₀, pushed, s, m₁, hc, _, _, ⟨rfl, rfl⟩, _, m₂, popped, h⟩ := h
  have h₀ : (m.onRuns (cell.reset · m.context.depth)).Alike m₀ := pushed ▸ ⟨rfl, rfl, rfl, rfl, rfl, rfl⟩
  have h₂ : m₁.Alike m₂ := popped ▸ ⟨rfl, rfl, rfl, rfl, rfl, rfl⟩
  rcases h with ⟨hr, _, _, rfl, rfl, rfl⟩ | ⟨hr, rfl, rfl⟩
  · exact ⟨m₀, m₁, m₂, h₀, hc, h₂, .inl ⟨Status.isRunning_iff.mp hr, _, rfl⟩⟩
  · exact ⟨m₀, m₁, _, h₀, hc, h₂, .inr ⟨by simp [Status.isTerminal, hr], rfl⟩⟩

/-! ## Children in order -/

theorem inOrderFrom_nil_ok {pass : Verdict} {i : Nat} (h : inOrderFrom cell pass d i [] m = .ok st m') :
    st = pass.status ∧ m' = m.onRuns (cell.reset · d) := by
  simp only [inOrderFrom, Run.bind_eq_ok, Cell.forget_eq_ok, Run.pure_eq_ok] at h
  obtain ⟨_, _, rfl, rfl, rfl⟩ := h
  exact ⟨rfl, rfl⟩

theorem inOrderFrom_cons_ok {pass : Verdict} {i : Nat}
    (h : inOrderFrom cell pass d i (child :: children) m = .ok st m') :
    ∃ s m₁, child.tick m = .ok s m₁ ∧
      ((m₁.context.returnRequest.isSome = true ∨ s.isTerminal = true) ∧ st = s ∧ m' = m₁.onRuns (cell.reset · d) ∨
        m₁.context.returnRequest = none ∧ s = .running ∧ st = .running ∧ m' = m₁.onRuns (cell.set · d (.child i)) ∨
        m₁.context.returnRequest = none ∧ s = pass.status ∧
          inOrderFrom cell pass d (i + 1) children m₁ = .ok st m') := by
  simp only [inOrderFrom, Run.bind_eq_ok, Run.returning_eq_ok, Run.ite_eq_ok, Cell.forget_eq_ok,
    Cell.keep_eq_ok, Run.pure_eq_ok] at h
  obtain ⟨s, m₁, hc, b, _, ⟨hb, rfl⟩, h⟩ := h
  refine ⟨s, m₁, hc, ?_⟩
  rcases h with ⟨ht, _, _, rfl, rfl, rfl⟩ | ⟨ht, h⟩
  · exact .inl ⟨.inl (hb.trans ht), rfl, rfl⟩
  have calm : m₁.context.returnRequest = none := by
    rw [← hb] at ht; simpa using ht
  rcases h with ⟨hr, _, _, rfl, rfl, rfl⟩ | ⟨hr, h⟩
  · exact .inr (.inl ⟨calm, Status.isRunning_iff.mp hr, rfl, rfl⟩)
  rcases h with ⟨hp, h⟩ | ⟨-, _, _, rfl, rfl, rfl⟩
  · exact .inr (.inr ⟨calm, hp, h⟩)
  · exact .inl ⟨.inr (by simp [Status.isTerminal, hr]), rfl, rfl⟩

theorem inOrder_ok {pass : Verdict} (h : (inOrder cell pass children).tick m = .ok st m') :
    inOrderFrom cell pass m.context.depth ((cell.get m.runs m.context.depth).child?.getD 0)
      (children.drop ((cell.get m.runs m.context.depth).child?.getD 0)) m = .ok st m' := by
  simp only [inOrder, Run.bind_eq_ok, Run.depth_eq_ok, Cell.read_eq_ok] at h
  obtain ⟨_, _, ⟨rfl, rfl⟩, _, _, ⟨rfl, rfl⟩, h⟩ := h
  exact h

theorem preempt_ok {i : Nat} (h : cell.preempt children d i m = .ok u m') :
    (∀ k, cell.get m.runs d = .child k → k ≤ i) ∧ m' = m.onRuns (cell.reset · d) ∨
      ∃ k c, cell.get m.runs d = .child k ∧ i < k ∧ children[k]? = some c ∧
        c.reset d true (m.onRuns (cell.reset · d)) = .ok () m' := by
  simp only [Cell.preempt, Run.bind_eq_ok, Cell.take_eq_ok] at h
  obtain ⟨slot, _, ⟨hs, rfl⟩, h⟩ := h
  split at h
  · rename_i k
    simp only [Run.ite_eq_ok, Run.pure_eq_ok, true_and] at h
    rcases h with ⟨hk, h⟩ | ⟨hk, rfl⟩
    · cases hc : children[k]? with
      | some c => exact .inr ⟨k, c, hs, hk, hc, by simpa only [hc] using h⟩
      | none => simp [hc] at h
    · exact .inl ⟨fun j hj => by rw [hs] at hj; cases hj; omega, rfl⟩
  · rename_i hne
    simp only [Run.pure_eq_ok, true_and] at h
    exact .inl ⟨fun k hk => absurd (hs.symm.trans hk) (hne k), h.symm⟩

theorem reactiveFrom_nil_ok {pass : Verdict} {all : List (Behaviour ρ μ σ)} {i : Nat}
    (h : reactiveFrom cell pass all d i [] m = .ok st m') :
    st = pass.status ∧ m' = m.onRuns (cell.reset · d) := by
  simp only [reactiveFrom, Run.bind_eq_ok, Cell.forget_eq_ok, Run.pure_eq_ok] at h
  obtain ⟨_, _, rfl, rfl, rfl⟩ := h
  exact ⟨rfl, rfl⟩

theorem reactiveFrom_cons_ok {pass : Verdict} {all : List (Behaviour ρ μ σ)} {i : Nat}
    (h : reactiveFrom cell pass all d i (child :: children) m = .ok st m') :
    ∃ s m₁, child.tick m = .ok s m₁ ∧
      ((m₁.context.returnRequest.isSome = true ∨ s.isTerminal = true) ∧ st = s ∧
          cell.preempt all d i m₁ = .ok () m' ∨
        m₁.context.returnRequest = none ∧ s = .running ∧ st = .running ∧
          (∃ m₂, cell.preempt all d i m₁ = .ok () m₂ ∧ m' = m₂.onRuns (cell.set · d (.child i))) ∨
        m₁.context.returnRequest = none ∧ s = pass.status ∧
          reactiveFrom cell pass all d (i + 1) children m₁ = .ok st m') := by
  simp only [reactiveFrom, Run.bind_eq_ok, Run.returning_eq_ok, Run.ite_eq_ok, Cell.keep_eq_ok,
    Run.pure_eq_ok] at h
  obtain ⟨s, m₁, hc, b, _, ⟨hb, rfl⟩, h⟩ := h
  refine ⟨s, m₁, hc, ?_⟩
  rcases h with ⟨ht, _, _, hp, rfl, rfl⟩ | ⟨ht, h⟩
  · exact .inl ⟨.inl (hb.trans ht), rfl, hp⟩
  have calm : m₁.context.returnRequest = none := by
    rw [← hb] at ht; simpa using ht
  rcases h with ⟨hs, h⟩ | ⟨-, _, m₂, hp, h⟩
  · exact .inr (.inr ⟨calm, hs, h⟩)
  rcases h with ⟨hr, _, _, rfl, rfl, rfl⟩ | ⟨hr, rfl, rfl⟩
  · have running := Status.isRunning_iff.mp hr
    exact .inr (.inl ⟨calm, running, running, m₂, hp, rfl⟩)
  · exact .inl ⟨.inr (by simp [Status.isTerminal, hr]), rfl, hp⟩

theorem reactive_ok {pass : Verdict} (h : (reactive cell pass children).tick m = .ok st m') :
    reactiveFrom cell pass children m.context.depth 0 children m = .ok st m' := by
  simp only [reactive, Run.bind_eq_ok, Run.depth_eq_ok] at h
  obtain ⟨_, _, ⟨rfl, rfl⟩, h⟩ := h
  exact h

/-! ## One child among several -/

theorem choose_ok {chooser : Chooser ρ μ σ} {count : Nat} {o : Option Nat}
    (h : choose cell chooser count d m = .ok o m') :
    (∃ i, (cell.get m.runs d).child? = some i ∧ o = some i ∧ m' = m) ∨
      (cell.get m.runs d).child? = none ∧ chooser.pick count m = .ok o m' := by
  simp only [choose, Run.bind_eq_ok, Cell.read_eq_ok] at h
  obtain ⟨slot, _, ⟨rfl, rfl⟩, h⟩ := h
  cases hi : (cell.get m.runs d).child? with
  | some i =>
    simp only [hi, Run.pure_eq_ok] at h
    exact .inl ⟨i, rfl, h.1.symm, h.2.symm⟩
  | none =>
    simp only [hi] at h
    exact .inr ⟨rfl, h⟩

theorem tickChosen_ok {chooser : Chooser ρ μ σ} {i : Nat}
    (h : tickChosen cell chooser children d i m = .ok st m') :
    ∃ c m₁, children[i]? = some c ∧ c.tick m = .ok st m₁ ∧
      (st = .running ∧ m' = m₁.onRuns (cell.set · d (.child i)) ∨
        st.isTerminal = true ∧ chooser.complete i (m₁.onRuns (cell.reset · d)) = .ok () m') := by
  unfold tickChosen at h
  cases hc : children[i]? with
  | none => simp [hc] at h
  | some c =>
    simp only [hc, Run.bind_eq_ok, Run.ite_eq_ok, Cell.keep_eq_ok, Cell.forget_eq_ok, Run.pure_eq_ok] at h
    obtain ⟨s, m₁, ht, h⟩ := h
    rcases h with ⟨hr, _, _, rfl, rfl, rfl⟩ | ⟨hr, _, _, rfl, _, _, hd, rfl, rfl⟩
    · exact ⟨c, m₁, rfl, ht, .inl ⟨Status.isRunning_iff.mp hr, rfl⟩⟩
    · exact ⟨c, m₁, rfl, ht, .inr ⟨by simp [Status.isTerminal, hr], hd⟩⟩

theorem selectOne_ok {chooser : Chooser ρ μ σ} (h : (selectOne cell chooser children).tick m = .ok st m') :
    ∃ o m₀, choose cell chooser children.length m.context.depth m = .ok o m₀ ∧
      (o = none ∧ st = .failure ∧ m' = m₀ ∨
        ∃ i, o = some i ∧ tickChosen cell chooser children m.context.depth i m₀ = .ok st m') := by
  simp only [selectOne, Run.bind_eq_ok, Run.depth_eq_ok] at h
  obtain ⟨_, _, ⟨rfl, rfl⟩, o, m₀, ho, h⟩ := h
  refine ⟨o, m₀, ho, ?_⟩
  cases o with
  | some i => exact .inr ⟨i, rfl, h⟩
  | none =>
    simp only [Run.pure_eq_ok] at h
    exact .inl ⟨rfl, h.1.symm, h.2.symm⟩

/-! ## Children side by side -/

theorem keepRunning_ok {states : List ChildState} {otherwise : Status}
    (h : keepRunning cell d states otherwise m = .ok st m') :
    .running ∈ states ∧ st = .running ∧ m' = m.onRuns (cell.set · d (.children states)) ∨
      .running ∉ states ∧ st = otherwise ∧ m' = m := by
  simp only [keepRunning, Run.bind_eq_ok, Run.ite_eq_ok, Cell.keep_eq_ok, Run.pure_eq_ok] at h
  rcases h with ⟨hr, _, _, rfl, rfl, rfl⟩ | ⟨hr, rfl, rfl⟩
  · exact .inl ⟨hr, rfl, rfl⟩
  · exact .inr ⟨hr, rfl, rfl⟩

/-- A child that has ended is passed by. -/
theorem visit_finished {stop : Status → Bool} {seen rest : List (Tracked ρ μ σ)} {s : Status} :
    visit stop d seen ((child, .finished s) :: rest) = visit stop d (seen ++ [(child, ChildState.finished s)]) rest := by
  simp only [visit]

/-- A child that has not ended is ticked. -/
theorem visit_unfinished {stop : Status → Bool} {seen rest : List (Tracked ρ μ σ)} {state : ChildState}
    (hs : ∀ s, state ≠ .finished s) :
    visit stop d seen ((child, state) :: rest) = (do
      let status ← child.tick
      let seen := seen ++ [(child, ChildState.after status)]
      if (← Run.returning) || stop status then
        abort d true (seen ++ rest)
        return .inl status
      else visit stop d seen rest) := by
  cases state with
  | finished s => exact absurd rfl (hs s)
  | _ => simp only [visit]

theorem visit_cons_ok {stop : Status → Bool} {seen rest : List (Tracked ρ μ σ)} {state : ChildState}
    {r : Status ⊕ List ChildState} (hs : ∀ s, state ≠ .finished s)
    (h : visit stop d seen ((child, state) :: rest) m = .ok r m') :
    ∃ s m₁, child.tick m = .ok s m₁ ∧
      ((m₁.context.returnRequest.isSome = true ∨ stop s = true) ∧ r = .inl s ∧
          abort d true (seen ++ (child, ChildState.after s) :: rest) m₁ = .ok () m' ∨
        m₁.context.returnRequest = none ∧ stop s = false ∧
          visit stop d (seen ++ [(child, ChildState.after s)]) rest m₁ = .ok r m') := by
  rw [visit_unfinished hs] at h
  simp only [Run.bind_eq_ok, Run.returning_eq_ok, Run.ite_eq_ok, Run.pure_eq_ok] at h
  obtain ⟨s, m₁, hc, b, _, ⟨rfl, rfl⟩, h⟩ := h
  refine ⟨s, m₁, hc, ?_⟩
  rcases h with ⟨hb, _, m₂, ha, rfl, rfl⟩ | ⟨hb, h⟩
  · exact .inl ⟨by simpa using hb, rfl, by simpa using ha⟩
  · simp only [Bool.or_eq_true, not_or, Bool.not_eq_true, Option.isSome_eq_false_iff, Option.isNone_iff_eq_none] at hb
    exact .inr ⟨hb.1, hb.2, h⟩

theorem raceFrom_cons_ok {seen rest : List (Tracked ρ μ σ)} {state : ChildState}
    (h : raceFrom cell d seen ((child, state) :: rest) m = .ok st m') :
    ∃ s m₁, child.tick m = .ok s m₁ ∧
      ((m₁.context.returnRequest.isSome = true ∨ s.isTerminal = true) ∧ st = s ∧
          abort d true (seen ++ (child, .finished s) :: rest) m₁ = .ok () m' ∨
        m₁.context.returnRequest = none ∧ s = .running ∧
          raceFrom cell d (seen ++ [(child, ChildState.running)]) rest m₁ = .ok st m') := by
  simp only [raceFrom, Run.bind_eq_ok, Run.returning_eq_ok, Run.ite_eq_ok, Run.pure_eq_ok] at h
  obtain ⟨s, m₁, hc, b, _, ⟨rfl, rfl⟩, h⟩ := h
  refine ⟨s, m₁, hc, ?_⟩
  rcases h with ⟨hb, _, m₂, ha, rfl, rfl⟩ | ⟨hb, h⟩
  · exact .inl ⟨by simpa [or_comm] using hb, rfl, ha⟩
  · simp only [Bool.or_eq_true, not_or, Bool.not_eq_true, Option.isSome_eq_false_iff, Option.isNone_iff_eq_none] at hb
    exact .inr ⟨hb.2, by simpa [Status.isTerminal, Status.isRunning_iff] using hb.1, h⟩

theorem raceFrom_nil_ok {seen : List (Tracked ρ μ σ)} (h : raceFrom cell d seen [] m = .ok st m') :
    st = .running ∧ m' = m.onRuns (cell.set · d (.children (seen.map (·.2)))) := by
  simp only [raceFrom, Run.bind_eq_ok, Cell.keep_eq_ok, Run.pure_eq_ok] at h
  obtain ⟨_, _, rfl, rfl, rfl⟩ := h
  exact ⟨rfl, rfl⟩

theorem race_ok (h : (race cell children).tick m = .ok st m') :
    children = [] ∧ st = .failure ∧ m' = m ∨
      children ≠ [] ∧ raceFrom cell m.context.depth []
        (children.zip ((cell.get m.runs m.context.depth).childStates children.length))
        (m.onRuns (cell.reset · m.context.depth)) = .ok st m' := by
  simp only [race, Run.bind_eq_ok, Run.depth_eq_ok, Cell.take_eq_ok, Run.ite_eq_ok, Run.pure_eq_ok] at h
  rcases h with ⟨he, rfl, rfl⟩ | ⟨he, _, _, ⟨rfl, rfl⟩, _, _, ⟨rfl, rfl⟩, h⟩
  · exact .inl ⟨by simpa using he, rfl, rfl⟩
  · exact .inr ⟨by simpa using he, h⟩

theorem visitAll_ok {stop : Status → Bool} {otherwise : List ChildState → Status}
    (h : visitAll cell stop otherwise children m = .ok st m') :
    ∃ r m₁, visit stop m.context.depth []
        (children.zip ((cell.get m.runs m.context.depth).childStates children.length))
        (m.onRuns (cell.reset · m.context.depth)) = .ok r m₁ ∧
      (r = .inl st ∧ m' = m₁ ∨
        ∃ states, r = .inr states ∧ keepRunning cell m.context.depth states (otherwise states) m₁ = .ok st m') := by
  simp only [visitAll, Run.bind_eq_ok, Run.depth_eq_ok, Cell.take_eq_ok] at h
  obtain ⟨_, _, ⟨rfl, rfl⟩, _, _, ⟨rfl, rfl⟩, r, m₁, hv, h⟩ := h
  refine ⟨r, m₁, hv, ?_⟩
  cases r with
  | inl s =>
    simp only [Run.pure_eq_ok] at h
    exact .inl ⟨by rw [h.1], h.2.symm⟩
  | inr states => exact .inr ⟨states, rfl, h⟩

/-! ## Another tree -/

theorem stateFor_ok {makeState : Option (StateMaker μ σ)} {o : Option σ} (h : stateFor makeState m = .ok o m') :
    ∃ x, m' = m.withMemory x := by
  cases makeState with
  | none =>
    simp only [stateFor, Run.pure_eq_ok] at h
    exact ⟨m.memory, h.2.symm⟩
  | some make =>
    simp only [stateFor, Run.bind_eq_ok, Run.context_eq_ok, Run.map_eq_ok, Run.consult_eq_ok] at h
    obtain ⟨_, _, ⟨rfl, rfl⟩, _, ⟨-, rfl⟩, -⟩ := h
    exact ⟨_, rfl⟩

/-- The target of a run in progress, or a fresh one that is kept before anything else happens. -/
theorem callTarget_ok {resolve : Run ρ μ σ (Option TreeId)} {makeState : Option (StateMaker μ σ)}
    {o : Option (TreeId × Option σ × Bool)} (h : callTarget cell resolve makeState d m = .ok o m') :
    (∃ t own, cell.get m.runs d = .call t own ∧ o = some (t, own, false) ∧ m' = m) ∨
      (∀ t own, cell.get m.runs d ≠ .call t own) ∧
        ((∃ m₁, resolve m = .ok none m₁ ∧ o = none ∧ m₁.Alike m') ∨
          ∃ t own m₁ x, resolve m = .ok (some t) m₁ ∧ o = some (t, own, true) ∧
            m' = (m₁.withMemory x).onRuns (cell.set · d (.call t own))) := by
  simp only [callTarget, Run.bind_eq_ok, Cell.read_eq_ok] at h
  obtain ⟨slot, _, ⟨hs, rfl⟩, h⟩ := h
  split at h
  · simp only [Run.pure_eq_ok] at h
    exact .inl ⟨_, _, hs, h.1.symm, h.2.symm⟩
  · rename_i hne
    refine .inr ⟨fun t own hk => hne t own (hs.symm.trans hk), ?_⟩
    simp only [Run.bind_eq_ok] at h
    obtain ⟨r, m₁, hr, h⟩ := h
    cases r with
    | none =>
      simp only [Run.bind_eq_ok, Run.pure_eq_ok] at h
      obtain ⟨_, _, hj, rfl, rfl⟩ := h
      exact .inl ⟨m₁, hr, rfl, Run.report_alike hj⟩
    | some t =>
      simp only [Run.bind_eq_ok, Cell.keep_eq_ok, Run.pure_eq_ok] at h
      obtain ⟨own, _, ho, _, _, rfl, rfl, rfl⟩ := h
      obtain ⟨x, rfl⟩ := stateFor_ok ho
      exact .inr ⟨t, own, m₁, x, hr, rfl, rfl⟩

/-- What entering a call changes. -/
theorem enter_ok {context entered : Context σ} {name : String} (h : context.enter name = .ok entered) :
    ∃ stack, entered = { context with depth := context.depth + 1, stack } := by
  unfold Context.enter at h
  split at h
  · cases h
  · split at h
    · rename_i none
      cases h
      exact ⟨_, rfl⟩
    · split at h
      · cases h
        exact ⟨_, rfl⟩
      · cases h

/-- The machine after a call is left. -/
def left (m : Machine ρ μ σ) : Machine ρ μ σ := { m with context := m.context.leave }

theorem announceCall_ok {name : String} {fresh : Bool} (h : announceCall name fresh d m = .ok u m') : m.Alike m' := by
  simp only [announceCall, Run.bind_eq_ok, Run.ite_eq_ok, Run.pure_eq_ok] at h
  rcases h with ⟨-, _, _, hj, ht⟩ | ⟨-, -, rfl⟩
  · exact (Run.report_alike hj).trans (Run.trace_alike ht)
  · exact .refl _

theorem finishCall_ok {name : String} (h : finishCall cell name d st m = .ok u m') :
    st = .running ∧ m' = m ∨ st.isTerminal = true ∧ ∃ m₁, m.Alike m₁ ∧ m' = m₁.onRuns (cell.reset · d) := by
  simp only [finishCall, Run.bind_eq_ok, Run.ite_eq_ok, Cell.forget_eq_ok, Run.pure_eq_ok] at h
  rcases h with ⟨ht, _, _, hj, _, m₁, htr, rfl⟩ | ⟨ht, -, rfl⟩
  · exact .inr ⟨ht, m₁, (Run.report_alike hj).trans (Run.trace_alike htr), rfl⟩
  · exact .inl ⟨by simpa [Status.isTerminal_iff] using ht, rfl⟩

/-- The steps of a tick of a called tree. Another state for it leaves the rest of the context as it is. -/
theorem runCallee_steps {callee : Callee ρ μ σ} {ownState fresh : Bool} {state : Option σ}
    (h : runCallee cell callee ownState fresh state d m = .ok st m') :
    ∃ m₀ s m₁ s', announceCall callee.name fresh d m = .ok () m₀ ∧
      callee.root.tick { m₀ with context := { m₀.context with state := s } } = .ok st m₁ ∧
      finishCall cell callee.name d st (left { m₁ with context := { m₁.context with state := s' } }) = .ok () m' := by
  cases ownState
  all_goals
    simp only [runCallee, Bool.false_eq_true, if_true, if_false, Run.bind_eq_ok, Run.onContext_eq_ok,
      Run.pure_eq_ok] at h
    obtain ⟨_, m₀, announced, _, m₁, ticked, _, _, rfl, _, _, finished, rfl, rfl⟩ := h
  · exact ⟨m₀, m₀.context.state, m₁, m₁.context.state, announced, ticked, finished⟩
  · simp only [Run.withState, Run.bind_eq_ok, Run.context_eq_ok, Run.onContext_eq_ok, Run.pure_eq_ok] at ticked
    obtain ⟨_, _, ⟨rfl, rfl⟩, _, _, rfl, _, m₁, ticked, _, _, rfl, rfl, rfl⟩ := ticked
    exact ⟨m₀, state, m₁, m₀.context.state, announced, ticked, finished⟩

theorem runCallee_ok {callee : Callee ρ μ σ} {ownState fresh : Bool} {state : Option σ}
    (h : runCallee cell callee ownState fresh state d m = .ok st m') :
    ∃ m₀ m₁ m₂ m₃, m.Alike m₀ ∧ callee.root.tick m₀ = .ok st m₁ ∧ m₁.Alike m₂ ∧ (left m₂).Alike m₃ ∧
      (st = .running ∧ m' = m₃ ∨ st.isTerminal = true ∧ m' = m₃.onRuns (cell.reset · d)) := by
  obtain ⟨m₀, s, m₁, s', announced, ticked, finished⟩ := runCallee_steps h
  have begun : m.Alike { m₀ with context := { m₀.context with state := s } } :=
    (announceCall_ok announced).trans ⟨rfl, rfl, rfl, rfl, rfl, rfl⟩
  have ended : m₁.Alike { m₁ with context := { m₁.context with state := s' } } := ⟨rfl, rfl, rfl, rfl, rfl, rfl⟩
  rcases finishCall_ok finished with ⟨running, rfl⟩ | ⟨terminal, m₃, alike, rfl⟩
  · exact ⟨_, m₁, _, _, begun, ticked, ended, .refl _, .inl ⟨running, rfl⟩⟩
  · exact ⟨_, m₁, _, m₃, begun, ticked, ended, alike, .inr ⟨terminal, rfl⟩⟩

/-- The steps of a tick of a call. -/
theorem call_steps {resolve : Run ρ μ σ (Option TreeId)} {makeState : Option (StateMaker μ σ)}
    {callee : TreeId → Callee ρ μ σ} (h : (call cell resolve makeState callee).tick m = .ok st m') :
    ∃ o m₀, callTarget cell resolve makeState m.context.depth m = .ok o m₀ ∧
      (o = none ∧ st = .failure ∧ m' = m₀ ∨
        ∃ t own fresh, o = some (t, own, fresh) ∧
          ((∃ refused m₁, m₀.context.enter (callee t).name = .error refused ∧ Run.refuse refused m₀ = .ok () m₁ ∧
              st = .failure ∧ m' = m₁.onRuns (cell.reset · m.context.depth)) ∨
            ∃ c, m₀.context.enter (callee t).name = .ok c ∧
              runCallee cell (callee t) makeState.isSome fresh own m.context.depth { m₀ with context := c } =
                .ok st m')) := by
  simp only [call, Run.bind_eq_ok, Run.depth_eq_ok] at h
  obtain ⟨_, _, ⟨rfl, rfl⟩, o, m₀, ho, h⟩ := h
  refine ⟨o, m₀, ho, ?_⟩
  rcases o with _ | ⟨t, own, fresh⟩
  · simp only [Run.pure_eq_ok] at h
    exact .inl ⟨rfl, h.1.symm, h.2.symm⟩
  · refine .inr ⟨t, own, fresh, rfl, ?_⟩
    simp only [Run.bind_eq_ok, Run.enter] at h
    obtain ⟨r, m₁, hr, h⟩ := h
    cases he : m₀.context.enter (callee t).name with
    | ok c =>
      simp only [he, EStateM.Result.ok.injEq] at hr
      obtain ⟨rfl, rfl⟩ := hr
      exact .inr ⟨c, rfl, h⟩
    | error refused =>
      simp only [he, EStateM.Result.ok.injEq] at hr
      obtain ⟨rfl, rfl⟩ := hr
      simp only [Run.bind_eq_ok, Cell.forget_eq_ok, Run.pure_eq_ok] at h
      obtain ⟨_, m₁, told, _, _, rfl, rfl, rfl⟩ := h
      exact .inl ⟨refused, m₁, rfl, told, rfl, rfl⟩

theorem refuse_ok {o : Overflow} (h : Run.refuse o m = .ok u m') : m.Alike m' := by
  simp only [Run.refuse, Run.bind_eq_ok, Run.onContext_eq_ok] at h
  obtain ⟨_, _, hj, _, m₁, ht, rfl⟩ := h
  exact ((Run.report_alike hj).trans (Run.trace_alike ht)).trans ⟨rfl, rfl, rfl, rfl, rfl, rfl⟩

theorem call_ok {resolve : Run ρ μ σ (Option TreeId)} {makeState : Option (StateMaker μ σ)}
    {callee : TreeId → Callee ρ μ σ} (h : (call cell resolve makeState callee).tick m = .ok st m') :
    ∃ o m₀, callTarget cell resolve makeState m.context.depth m = .ok o m₀ ∧
      (o = none ∧ st = .failure ∧ m' = m₀ ∨
        ∃ t own fresh, o = some (t, own, fresh) ∧
          ((∃ refused m₁, m₀.context.enter (callee t).name = .error refused ∧ m₀.Alike m₁ ∧ st = .failure ∧
              m' = m₁.onRuns (cell.reset · m.context.depth)) ∨
            ∃ c, m₀.context.enter (callee t).name = .ok c ∧
              runCallee cell (callee t) makeState.isSome fresh own m.context.depth { m₀ with context := c } =
                .ok st m')) := by
  obtain ⟨o, m₀, found, none | ⟨t, own, fresh, same, ⟨refused, m₁, full, told, outcome⟩ | entered⟩⟩ := call_steps h
  · exact ⟨o, m₀, found, .inl none⟩
  · exact ⟨o, m₀, found, .inr ⟨t, own, fresh, same, .inl ⟨refused, m₁, full, refuse_ok told, outcome⟩⟩⟩
  · exact ⟨o, m₀, found, .inr ⟨t, own, fresh, same, .inr entered⟩⟩

end Behaviour

/-! ## Around the nodes -/

section
variable {stage : Stage ρ μ σ} {site : Address} {policy : Policy μ}

/-- To pick a child, or to tell that it is done, changes the node's picker or the memory. -/
def Stage.Chooses (stage : Stage ρ μ σ) (site : Address) (m m' : Machine ρ μ σ) : Prop :=
  (∃ p, m' = m.onRuns (stage.onStore (·.setPicker site p))) ∨ ∃ x, m' = m.withMemory x

theorem Stage.pick_ok {count : Nat} {o : Option Nat} (h : (stage.chooser site policy).pick count m = .ok o m') :
    stage.Chooses site m m' := by
  cases policy with
  | picker initial =>
    cases h
    exact .inl ⟨_, rfl⟩
  | custom pick complete => exact .inr ⟨_, (Run.consult_eq_ok.mp h).2.symm⟩

theorem Stage.complete_ok {i : Nat} (h : (stage.chooser site policy).complete i m = .ok u m') :
    stage.Chooses site m m' := by
  cases policy with
  | picker initial =>
    cases h
    exact .inl ⟨_, rfl⟩
  | custom pick complete => exact .inr ⟨_, (Run.remember_eq_ok.mp h).symm⟩

/-- To look up the tree of a call changes the memory at most, and finds one that the source names. -/
theorem System.resolve_ok {sys : System μ σ} {source : Source μ} {o : Option TreeId}
    (h : sys.resolve stage source m = .ok o m') :
    (∃ x, m' = m.withMemory x) ∧ ∀ tree, o = some tree → source.Names tree := by
  rcases source with (tree | tree) | provide
  · obtain ⟨rfl, rfl⟩ := Run.pure_eq_ok.mp h
    exact ⟨⟨m.memory, rfl⟩, fun t same => Option.some.inj same⟩
  · cases h
    refine ⟨⟨m.memory, rfl⟩, fun t same => ?_⟩
    split at same
    · exact Option.some.inj same
    · cases same
  · obtain ⟨rfl, rfl⟩ := Run.consult_eq_ok.mp h
    exact ⟨⟨_, rfl⟩, fun t same => ⟨_, same⟩⟩

end

/-! ## Resets -/

namespace Cell

variable (cell : Cell ρ σ) (child : Behaviour ρ μ σ) (children : List (Behaviour ρ μ σ)) (d : Nat) (fire : Bool)
  (m : Machine ρ μ σ)

theorem resetStarted_apply : cell.resetStarted child d fire m =
    match cell.get m.runs d with
    | .started => child.reset d fire (m.onRuns (cell.reset · d))
    | _ => .ok () m := by
  unfold resetStarted
  refine Cell.read_bind.trans ?_
  generalize cell.get m.runs d = slot
  cases slot <;> rfl

theorem resetIteration_apply : cell.resetIteration child d fire m =
    match cell.get m.runs d with
    | .iterations _ true => child.reset d fire (m.onRuns (cell.reset · d))
    | _ => .ok () (m.onRuns (cell.reset · d)) := by
  unfold resetIteration
  refine Cell.take_bind.trans ?_
  generalize cell.get m.runs d = slot
  cases slot with
  | iterations count running => cases running <;> rfl
  | _ => rfl

theorem resetChild_apply : cell.resetChild children d fire m =
    match cell.get m.runs d with
    | .child index => match children[index]? with
      | some child => child.reset d fire (m.onRuns (cell.reset · d))
      | none => .error (.noSuchChild children.length index) (m.onRuns (cell.reset · d))
    | _ => .ok () (m.onRuns (cell.reset · d)) := by
  unfold resetChild
  refine Cell.take_bind.trans ?_
  generalize cell.get m.runs d = slot
  cases slot with
  | child index =>
    dsimp only
    cases children[index]? <;> rfl
  | _ => rfl

end Cell

namespace Behaviour

variable (cell : Cell ρ σ) (child : Behaviour ρ μ σ) (children : List (Behaviour ρ μ σ)) (d : Nat) (fire : Bool)
  (m : Machine ρ μ σ)

theorem resetTracked_apply : resetTracked cell children d fire m =
    match cell.get m.runs d with
    | .children states => abort d fire (children.zip states) (m.onRuns (cell.reset · d))
    | _ => .ok () (m.onRuns (cell.reset · d)) := by
  unfold resetTracked
  refine Cell.take_bind.trans ?_
  generalize cell.get m.runs d = slot
  cases slot <;> rfl

theorem timeout_reset_apply (duration : Duration) : (timeout cell duration child).reset d fire m =
    match cell.get m.runs d with
    | .elapsed _ => child.reset d fire (m.onRuns (cell.reset · d))
    | _ => .ok () (m.onRuns (cell.reset · d)) := by
  unfold timeout
  refine Cell.take_bind.trans ?_
  generalize cell.get m.runs d = slot
  cases slot <;> rfl

theorem delay_reset_apply (duration : Duration) : (delay cell duration child).reset d fire m =
    match cell.get m.runs d with
    | .released => child.reset d fire (m.onRuns (cell.reset · d))
    | _ => .ok () (m.onRuns (cell.reset · d)) := by
  unfold delay
  refine Cell.take_bind.trans ?_
  generalize cell.get m.runs d = slot
  cases slot <;> rfl

theorem localScope_reset_apply : (localScope cell child).reset d fire m =
    match cell.get m.runs d with
    | .overlay _ => child.reset d fire (m.onRuns (cell.reset · d))
    | _ => .ok () (m.onRuns (cell.reset · d)) := by
  unfold localScope
  refine Cell.take_bind.trans ?_
  generalize cell.get m.runs d = slot
  cases slot <;> rfl

theorem scope_reset_apply (host : Host ρ μ σ) (hooks : Hooks μ σ) : (scope cell host hooks child).reset d fire m =
    match cell.get m.runs d with
    | .started => (do
      child.reset d fire
      if fire then Run.remember (hooks.onExit .running) : Run ρ μ σ Unit) (m.onRuns (cell.reset · d))
    | _ => .ok () m := by
  unfold scope
  refine Cell.read_bind.trans ?_
  generalize cell.get m.runs d = slot
  cases slot <;> rfl

theorem call_reset_apply (resolve : Run ρ μ σ (Option TreeId)) (makeState : Option (StateMaker μ σ))
    (callee : TreeId → Callee ρ μ σ) : (call cell resolve makeState callee).reset d fire m =
    match cell.get m.runs d with
    | .call tree _ => (callee tree).root.reset (d + 1) fire (m.onRuns (cell.reset · d))
    | _ => .ok () (m.onRuns (cell.reset · d)) := by
  unfold call
  refine Cell.take_bind.trans ?_
  generalize cell.get m.runs d = slot
  cases slot <;> rfl

end Behaviour

end BehaviorTree
