/-
  BehaviorTree.Proofs.Minutes.Polls: when a predicate is asked.

  The history of such a node is told in its ticks and resets at all depths, each with its delta
  (`Occasion`). The occasions at one depth say what is remembered there: the last answer of the
  predicate, and the deltas of the ticks since (`latest`). A condition forgets it when it is reset,
  `WaitUntil` also when it succeeds.

  A tick asks the predicate if nothing is remembered, or if the sum of the deltas since the last
  answer and of its own reaches the interval (`Due`).

  Without an interval, a condition asks in every tick. `WaitUntil` asks in those in which it is due,
  and a sum that is below zero, or is no number, does not reach zero (`waitUntil_lets_a_tick_pass`).
-/

import BehaviorTree.Proofs.Elapsed
import BehaviorTree.Proofs.Minutes.Starts

namespace BehaviorTree

variable {ρ μ σ : Type}

/-! ## Occasions -/

/-- A tick or a reset of the node at some depth, and the delta that came with it. -/
structure Occasion (σ : Type) where
  depth : Nat
  delta : Float32
  stint : Stint σ

/-- A node that remembers nothing at first. Between its ticks and resets all may change, but for what it remembers. -/
def polling (cell : Cell ρ σ) (node : Behaviour ρ (Minutes μ σ) σ) :
    Going (Occasion σ) (Machine ρ (Minutes μ σ) σ) where
  starts m := ∀ d, cell.get m.runs d = .idle
  aside m n := ∀ d, cell.get n.runs d = cell.get m.runs d
  step m x n := x.delta = m.context.delta ∧ Served x.depth node m x.stint n

/-- The last answer of the predicate, and the deltas of the ticks since. -/
structure Polled where
  answer : Bool
  since : List Float32 := []

/-- What is remembered after such an occasion. An answer is forgotten after a tick that has asked and ended so. -/
def Occasion.remembered (forgets : Status → Bool) (past : Option Polled) (x : Occasion σ) : Option Polled :=
  match x.stint with
  | .tick (.asked answer :: _) status => if forgets status then none else some ⟨answer, []⟩
  | .tick _ _ => past.map fun last => { last with since := last.since ++ [x.delta] }
  | .reset _ _ => none

/-- What is remembered at the depth, by a node that forgets an answer when it has ended so. -/
def latest (forgets : Status → Bool) (d : Nat) (told : List (Occasion σ)) : Option Polled :=
  (told.filter (·.depth = d)).foldl (Occasion.remembered forgets) none

section
variable {forgets : Status → Bool} {d : Nat} {told : List (Occasion σ)} {delta : Float32} {stint : Stint σ}

theorem latest_snoc : latest forgets d (told ++ [⟨d, delta, stint⟩]) =
    Occasion.remembered forgets (latest forgets d told) ⟨d, delta, stint⟩ := by
  simp [latest, List.filter_append]

theorem latest_snoc_of_ne {e : Nat} (elsewhere : e ≠ d) :
    latest forgets d (told ++ [⟨e, delta, stint⟩]) = latest forgets d told := by
  simp [latest, List.filter_append, elsewhere]

end

/-- Nothing is remembered, or the time since the last answer reaches the interval. -/
def Duration.Due (every : Duration) (past : Option Polled) (delta : Float32) : Prop :=
  ∀ last, past = some last → every.Reached (last.since ++ [delta])

theorem Duration.not_due {every : Duration} {past : Option Polled} {delta : Float32} :
    ¬ every.Due past delta ↔ ∃ last, past = some last ∧ ¬ every.Reached (last.since ++ [delta]) := by
  simp [Due]

/-- The slot of a node that remembers this. -/
def Polled.slot : Option Polled → Slot σ
  | none => .idle
  | some last => .answered last.answer (elapsed last.since)

/-! ## The schedule -/

/-- What a tick does that is on schedule: it asks the predicate if this is due, and answers as the predicate does; if it
is not due, the tick leaves the memory as it is, and answers as the predicate did. -/
structure Scheduled (predicate : Predicate μ σ) (every : Duration) (fresh stale : Bool → Status) (past : Option Polled)
    (m : Machine ρ (Minutes μ σ) σ) (status : Status) (n : Machine ρ (Minutes μ σ) σ) : Prop where
  due : every.Due past m.context.delta → n.memory = (predicate.minuted m.context m.memory).2 ∧
    status = fresh (predicate m.context m.memory.own).1
  early : ¬ every.Due past m.context.delta → n.memory = m.memory ∧
    ∃ last, past = some last ∧ status = stale last.answer

/-- Every tick is on schedule, at any depth and after any occasions. A reset asks nothing. -/
structure Polls (cell : Cell ρ σ) (predicate : Predicate μ σ) (every : Duration) (forgets : Status → Bool)
    (fresh stale : Bool → Status) (node : Behaviour ρ (Minutes μ σ) σ) : Prop where
  tick : ∀ told m, (polling cell node).Reaches told m → m.memory.acts = [] → ∃ status n, node.tick m = .ok status n ∧
    Scheduled predicate every fresh stale (latest forgets m.context.depth told) m status n
  asks_iff : ∀ told m, (polling cell node).Reaches told m → m.memory.acts = [] →
    ∀ status n, node.tick m = .ok status n → ((∃ answer, .asked answer ∈ n.memory.acts) ↔
      every.Due (latest forgets m.context.depth told) m.context.delta)
  reset : ∀ told d fire m, (polling cell node).Reaches told m → ∃ n, node.reset d fire m = .ok () n ∧
    n.memory = m.memory

namespace Scheduled

variable {predicate : Predicate μ σ} {every : Duration} {fresh stale : Bool → Status} {past : Option Polled}
  {m n : Machine ρ (Minutes μ σ) σ} {status : Status} (h : Scheduled predicate every fresh stale past m status n)
  (blank : m.memory.acts = [])
include h blank

theorem acts_due (due : every.Due past m.context.delta) :
    n.memory.acts = [.asked (predicate m.context m.memory.own).1] := by
  rw [(h.due due).1]
  exact congrArg (· ++ _) blank

theorem acts_early (early : ¬ every.Due past m.context.delta) : n.memory.acts = [] := by
  rw [(h.early early).1, blank]

theorem asks_iff : (∃ answer, .asked answer ∈ n.memory.acts) ↔ every.Due past m.context.delta := by
  by_cases due : every.Due past m.context.delta
  · rw [h.acts_due blank due]
    exact iff_of_true ⟨_, List.mem_singleton_self _⟩ due
  · rw [h.acts_early blank due]
    exact iff_of_false (by simp) due

end Scheduled

/-- The tick was on schedule, and has left at its depth what is to be remembered. -/
structure Looked (cell : Cell ρ σ) (predicate : Predicate μ σ) (every : Duration) (forgets : Status → Bool)
    (fresh stale : Bool → Status) (past : Option Polled) (m : Machine ρ (Minutes μ σ) σ) (status : Status)
    (n : Machine ρ (Minutes μ σ) σ) : Prop extends Scheduled predicate every fresh stale past m status n where
  left : cell.get n.runs m.context.depth = Polled.slot
    (Occasion.remembered forgets past ⟨m.context.depth, m.context.delta, .tick n.memory.acts status⟩)

namespace Looked

variable {cell : Cell ρ σ} {predicate : Predicate μ σ} {every : Duration} {forgets : Status → Bool}
  {fresh stale : Bool → Status} {m n : Machine ρ (Minutes μ σ) σ} (blank : m.memory.acts = [])
include blank

theorem asked {past : Option Polled} {answer : Bool} (due : every.Due past m.context.delta)
    (memory : n.memory = (predicate.minuted m.context m.memory).2)
    (same : (predicate m.context m.memory.own).1 = answer)
    (left : cell.get n.runs m.context.depth =
      Polled.slot (if forgets (fresh answer) then none else some ⟨answer, []⟩)) :
    Looked cell predicate every forgets fresh stale past m (fresh answer) n := by
  subst same
  have scheduled : Scheduled predicate every fresh stale past m _ n := ⟨fun _ => ⟨memory, rfl⟩, (absurd due ·)⟩
  refine ⟨scheduled, left.trans (congrArg Polled.slot ?_)⟩
  rw [scheduled.acts_due blank due]
  rfl

theorem spared {last : Polled} (early : ¬ every.Reached (last.since ++ [m.context.delta]))
    (memory : n.memory = m.memory) (left : cell.get n.runs m.context.depth =
      Polled.slot (some { last with since := last.since ++ [m.context.delta] })) :
    Looked cell predicate every forgets fresh stale (some last) m (stale last.answer) n := by
  have early : ¬ every.Due (some last) m.context.delta := Duration.not_due.mpr ⟨last, rfl, early⟩
  have scheduled : Scheduled predicate every fresh stale (some last) m _ n :=
    ⟨(absurd · early), fun _ => ⟨memory, last, rfl, rfl⟩⟩
  refine ⟨scheduled, left.trans (congrArg Polled.slot ?_)⟩
  rw [scheduled.acts_early blank early]
  rfl

end Looked

/-- One tick is on schedule, wherever this is remembered at its depth, and leaves there what is to be remembered. One
reset forgets it. -/
structure Looks (cell : Cell ρ σ) (predicate : Predicate μ σ) (every : Duration) (forgets : Status → Bool)
    (fresh stale : Bool → Status) (node : Behaviour ρ (Minutes μ σ) σ) : Prop where
  tick : ∀ past m, cell.get m.runs m.context.depth = Polled.slot past → m.memory.acts = [] →
    ∃ status n, node.tick m = .ok status n ∧ Looked cell predicate every forgets fresh stale past m status n
  reset : ∀ d fire m, node.reset d fire m = .ok () (m.onRuns (cell.reset · d))
  aside : ∀ d e, e ≠ d → node.Aside cell d e

namespace Looks

variable {cell : Cell ρ σ} {predicate : Predicate μ σ} {every : Duration} {forgets : Status → Bool}
  {fresh stale : Bool → Status} {node : Behaviour ρ (Minutes μ σ) σ}
  (h : Looks cell predicate every forgets fresh stale node) (holds : ∀ d, cell.Holds d)
include h holds

/-- Whatever the occasions were, the node remembers at every depth what it should. -/
theorem kept {told : List (Occasion σ)} {m : Machine ρ (Minutes μ σ) σ} (reached : (polling cell node).Reaches told m)
    (d : Nat) : cell.get m.runs d = Polled.slot (latest forgets d told) := by
  revert d
  refine reached.invariant (fun told m => ∀ d, cell.get m.runs d = Polled.slot (latest forgets d told))
    (fun m idle => idle) (fun told m n kept same d => (same d).trans (kept d)) fun told m x n kept stepped d => ?_
  obtain ⟨e, delta, stint⟩ := x
  obtain ⟨rfl, served⟩ := stepped
  cases served with
  | @tick answer n depth blank ok =>
    change m.context.depth = e at depth
    subst depth
    obtain ⟨status, k, ran, looked⟩ := h.tick _ m (kept _) blank
    rw [ok] at ran
    cases ran
    by_cases here : m.context.depth = d
    · subst here
      rw [latest_snoc]
      exact looked.left
    · rw [latest_snoc_of_ne here, (h.aside d _ here).tick m _ _ rfl ok, kept]
  | @reset fire n blank ok =>
    change node.reset e fire m = _ at ok
    by_cases here : e = d
    · subst here
      rw [h.reset] at ok
      cases ok
      rw [latest_snoc]
      exact (holds e).reset _
    · rw [latest_snoc_of_ne here, (h.aside d e here).reset fire m n ok, kept]

/-- If no delta at this depth was below zero, no tick has been let pass without an interval. -/
theorem since_nil {told : List (Occasion σ)} {m : Machine ρ (Minutes μ σ) σ} {d : Nat} {last : Polled}
    (instant : ¬ 0 < every.length) (reached : (polling cell node).Reaches told m)
    (forward : ∀ x ∈ told, x.depth = d → 0 ≤ x.delta) (same : latest forgets d told = some last) : last.since = [] := by
  induction reached generalizing last with
  | start => cases same
  | aside _ _ ih => exact ih forward same
  | @step told m n x reached stepped ih =>
    obtain ⟨e, delta, stint⟩ := x
    have before (x) (among : x ∈ told) := forward x (List.mem_append_left _ among)
    by_cases here : e = d
    · subst here
      rw [latest_snoc] at same
      obtain ⟨rfl, served⟩ := stepped
      cases served with
      | @tick answer n depth blank ok =>
        change m.context.depth = e at depth
        subst depth
        have now : 0 ≤ m.context.delta :=
          forward ⟨m.context.depth, m.context.delta, .tick n.memory.acts answer⟩ List.mem_concat_self rfl
        have due : every.Due (latest forgets m.context.depth told) m.context.delta := fun last known => by
          rw [ih before known, List.nil_append]
          exact Duration.reached_single instant now
        obtain ⟨status, k, ran, looked⟩ := h.tick _ m (h.kept holds reached _) blank
        rw [ok] at ran
        cases ran
        rw [looked.acts_due blank due] at same
        dsimp only [Occasion.remembered] at same
        split at same <;> cases same
        rfl
      | reset => cases same
    · rw [latest_snoc_of_ne here] at same
      exact ih before same

theorem polls : Polls cell predicate every forgets fresh stale node where
  tick told m reached blank := by
    obtain ⟨status, n, ran, looked⟩ := h.tick _ m (h.kept holds reached _) blank
    exact ⟨status, n, ran, looked.toScheduled⟩
  asks_iff told m reached blank status n ok := by
    obtain ⟨status', k, ran, looked⟩ := h.tick _ m (h.kept holds reached _) blank
    rw [ok] at ran
    cases ran
    exact looked.asks_iff blank
  reset told d fire m _ := ⟨_, h.reset d fire m, rfl⟩

end Looks

namespace Behaviour

/-! ## One tick -/

section
variable {cell : Cell ρ σ} {predicate : Predicate μ σ} {every : Duration} {past : Option Polled} {last : Polled}
  {m : Machine ρ μ σ}

theorem keptAnswer_due {d : Nat} (slot : cell.get m.runs d = Polled.slot past) (due : every.Due past m.context.delta) :
    keptAnswer cell every d m = .ok none m := by
  rw [keptAnswer, Cell.read_bind, slot]
  cases past with
  | none => rfl
  | some last =>
    have reached : every.length ≤ elapsed last.since + m.context.delta := by
      rw [← elapsed_snoc]
      exact due last rfl
    dsimp only [Polled.slot]
    rw [Run.delta_bind, if_pos reached]
    rfl

theorem keptAnswer_early {d : Nat} (slot : cell.get m.runs d = Polled.slot (some last))
    (early : ¬ every.Reached (last.since ++ [m.context.delta])) : keptAnswer cell every d m = .ok (some last.answer)
      (m.onRuns (cell.set · d (Polled.slot (some { last with since := last.since ++ [m.context.delta] })))) := by
  rw [Duration.Reached, elapsed_snoc] at early
  rw [keptAnswer, Cell.read_bind, slot]
  dsimp only [Polled.slot]
  rw [Run.delta_bind, if_neg early, elapsed_snoc]
  rfl

theorem condition_due (positive : 0 < every.length) (slot : cell.get m.runs m.context.depth = Polled.slot past)
    (due : every.Due past m.context.delta) : (condition cell predicate every).tick m =
      .ok (.ofBool (predicate m.context m.memory).1) ((m.withMemory (predicate m.context m.memory).2).onRuns
        (cell.set · m.context.depth (Polled.slot (some ⟨(predicate m.context m.memory).1, []⟩)))) := by
  rw [condition, leaf_tick, if_pos positive, Run.bind_ok (keptAnswer_due slot due)]
  rfl

theorem condition_early (positive : 0 < every.length) (slot : cell.get m.runs m.context.depth = Polled.slot (some last))
    (early : ¬ every.Reached (last.since ++ [m.context.delta])) : (condition cell predicate every).tick m =
      .ok (.ofBool last.answer) (m.onRuns (cell.set · m.context.depth
        (Polled.slot (some { last with since := last.since ++ [m.context.delta] })))) := by
  rw [condition, leaf_tick, if_pos positive, Run.bind_ok (keptAnswer_early slot early)]
  rfl

/-- Without an interval nothing is remembered. -/
theorem condition_each (instant : ¬ 0 < every.length) : (condition cell predicate every).tick m =
    .ok (.ofBool (predicate m.context m.memory).1) (m.withMemory (predicate m.context m.memory).2) := by
  rw [condition, leaf_tick, if_neg instant]
  rfl

theorem waitUntil_due (slot : cell.get m.runs m.context.depth = Polled.slot past)
    (due : every.Due past m.context.delta) : (waitUntil cell predicate every).tick m =
      if (predicate m.context m.memory).1 then
        .ok .success ((m.withMemory (predicate m.context m.memory).2).onRuns (cell.reset · m.context.depth))
      else .ok .running ((m.withMemory (predicate m.context m.memory).2).onRuns
        (cell.set · m.context.depth (Polled.slot (some ⟨false, []⟩)))) := by
  rw [waitUntil, leaf_tick, Run.bind_ok (keptAnswer_due slot due), if_neg (by simp), Run.test_bind]
  split <;> rfl

theorem waitUntil_early (slot : cell.get m.runs m.context.depth = Polled.slot (some last))
    (early : ¬ every.Reached (last.since ++ [m.context.delta])) : (waitUntil cell predicate every).tick m =
      .ok .running (m.onRuns (cell.set · m.context.depth
        (Polled.slot (some { last with since := last.since ++ [m.context.delta] })))) := by
  rw [waitUntil, leaf_tick, Run.bind_ok (keptAnswer_early slot early)]
  rfl

end

/-- What `WaitUntil` answers when the predicate has answered so. -/
def waitUntilStatus (holds : Bool) : Status := if holds then .success else .running

theorem waitUntil_succeeds_iff {predicate : Predicate μ σ} {every : Duration} {past : Option Polled}
    {m n : Machine ρ (Minutes μ σ) σ} {status : Status} (blank : m.memory.acts = [])
    (h : Scheduled predicate every waitUntilStatus (fun _ => .running) past m status n) :
    status = .success ↔ .asked true ∈ n.memory.acts := by
  by_cases due : every.Due past m.context.delta
  · rw [h.acts_due blank due, (h.due due).2]
    cases (predicate m.context m.memory.own).1 <;> simp [waitUntilStatus]
  · obtain ⟨-, last, -, rfl⟩ := h.early due
    rw [h.acts_early blank due]
    simp

section
variable {cell : Cell ρ σ} {every : Duration} (holds : ∀ d, cell.Holds d) (separates : ∀ d, cell.Separates d)
  (predicate : Predicate μ σ)

include separates in
theorem condition_aside {predicate : Predicate μ σ} {d e : Nat} (other : e ≠ d) :
    (condition cell predicate every).Aside cell d e where
  tick m answer n depth ticked := by
    subst depth
    obtain ⟨-, _, rfl | ⟨_, rfl⟩⟩ := condition_ok ticked
    · rfl
    · exact (separates d).set _ _ _ other
  reset _ _ _ := leaf_reset_aside (separates d) other

include separates in
theorem waitUntil_aside {predicate : Predicate μ σ} {d e : Nat} (other : e ≠ d) :
    (waitUntil cell predicate every).Aside cell d e where
  tick m answer n depth ticked := by
    subst depth
    obtain ⟨_, ⟨-, rfl⟩ | ⟨-, _, _, rfl⟩⟩ := waitUntil_ok ticked
    · exact (separates d).reset _ _ other
    · exact (separates d).set _ _ _ other
  reset _ _ _ := leaf_reset_aside (separates d) other

include holds separates

theorem condition_looks (positive : 0 < every.length) : Looks cell predicate every (fun _ => false) .ofBool .ofBool
    (condition cell predicate.minuted every) where
  tick past m slot blank := by
    by_cases due : every.Due past m.context.delta
    · exact ⟨_, _, condition_due positive slot due, .asked blank due rfl rfl ((holds _).set _ _)⟩
    · obtain ⟨last, rfl, early⟩ := Duration.not_due.mp due
      exact ⟨_, _, condition_early positive slot early, .spared blank early rfl ((holds _).set _ _)⟩
  reset _ _ _ := rfl
  aside _ _ := condition_aside separates

theorem waitUntil_looks : Looks cell predicate every (· = .success) waitUntilStatus (fun _ => .running)
    (waitUntil cell predicate.minuted every) where
  tick past m slot blank := by
    by_cases due : every.Due past m.context.delta
    · have came : (waitUntil cell predicate.minuted every).tick m = _ := waitUntil_due slot due
      cases answer : (predicate m.context m.memory.own).1 with
      | true =>
        rw [show (predicate.minuted m.context m.memory).1 = true from answer, if_pos rfl] at came
        exact ⟨_, _, came, .asked blank due rfl answer ((holds _).reset _)⟩
      | false =>
        rw [show (predicate.minuted m.context m.memory).1 = false from answer, if_neg Bool.false_ne_true] at came
        exact ⟨_, _, came, .asked blank due rfl answer ((holds _).set _ _)⟩
    · obtain ⟨last, rfl, early⟩ := Duration.not_due.mp due
      exact ⟨_, _, waitUntil_early slot early, .spared blank early rfl ((holds _).set _ _)⟩
  reset _ _ _ := rfl
  aside _ _ := waitUntil_aside separates

end

/-! ## With an interval -/

/-- With an interval, both nodes go by the sum of the deltas since the last answer, at each depth for itself: they ask
the predicate if no answer is remembered or if the sum reaches the interval, and in no other tick. In those a condition
answers what it has answered before, and `WaitUntil` goes on. A condition forgets an answer when it is reset,
`WaitUntil` also when it succeeds, which it does in the ticks in which the predicate is asked and holds. -/
theorem predicates_asked_on_schedule (cell : Cell ρ σ) (holds : ∀ d, cell.Holds d) (separates : ∀ d, cell.Separates d)
    (predicate : Predicate μ σ) {every : Duration} (positive : 0 < every.length) :
    Polls cell predicate every (fun _ => false) .ofBool .ofBool (condition cell predicate.minuted every) ∧
      Polls cell predicate every (· = .success) waitUntilStatus (fun _ => .running)
        (waitUntil cell predicate.minuted every) ∧
      ∀ told m, (polling cell (waitUntil cell predicate.minuted every)).Reaches told m → m.memory.acts = [] →
        ∀ status n, (waitUntil cell predicate.minuted every).tick m = .ok status n →
          (status = .success ↔ .asked true ∈ n.memory.acts) := by
  have looks : Looks cell predicate every _ _ _ _ := waitUntil_looks holds separates predicate
  refine ⟨(condition_looks holds separates predicate positive).polls holds, looks.polls holds, ?_⟩
  intro told m reached blank status n ok
  obtain ⟨status', k, ran, looked⟩ := looks.tick _ m (looks.kept holds reached _) blank
  rw [ok] at ran
  cases ran
  exact waitUntil_succeeds_iff blank looked.toScheduled

/-- One tick of the node at the depth, or one reset, and the occasion. -/
abbrev occasionOf (node : Behaviour ρ (Minutes μ σ) σ) (m : Machine ρ (Minutes μ σ) σ) (use : Nat × Option Bool) :
    Option (Occasion σ × Machine ρ (Minutes μ σ) σ) :=
  node.telling use.1 (fun m answer n => ⟨use.1, m.context.delta, .tick n.memory.acts answer⟩)
    (fun m fire n => ⟨use.1, m.context.delta, .reset fire n.memory.acts⟩) m use.2

/-- Blank minutes, and the other one of the first two depths. -/
def changeDepth (m : Machine ρ (Minutes μ σ) σ) : Machine ρ (Minutes μ σ) σ :=
  { m with context := { m.context with depth := 1 - m.context.depth }, memory := { m.memory with acts := [] } }

theorem occasions_reach {cell : Cell ρ σ} {node : Behaviour ρ (Minutes μ σ) σ} {m : Machine ρ (Minutes μ σ) σ}
    {uses : List (Nat × Option Bool)} {told : List (Occasion σ)} (idle : ∀ d, cell.get m.runs d = .idle)
    (blank : m.memory.acts = []) (h : Going.played node.occasionOf changeDepth m uses = some told) :
    ∃ n, (polling cell node).Reaches told n := by
  refine Going.Reaches.played (fun m => m.memory.acts = []) ?_ ?_ ?_ (.start idle) blank h
  · exact fun _ _ _ _ blank told =>
      telling_steps (fun _ _ depth ok => ⟨rfl, .tick depth blank ok⟩) (fun _ _ ok => ⟨rfl, .reset blank ok⟩) told
  · exact fun _ _ => rfl
  · exact fun _ => rfl

/-- A predicate that answers what the memory tells it to. -/
def scriptedAnswer : Predicate (List Bool) Unit := fun _ answers => (answers.headD false, answers.tail)

/-- Each tick takes one, and this is to be answered. -/
def questioned (script : List Bool) : Machine (DepthSlots (Slot Unit)) (Minutes (List Bool) Unit) Unit :=
  ⟨{ delta := 1 }, ⟨script, []⟩, {}, #[], #[]⟩

def soloCondition : Behaviour (DepthSlots (Slot Unit)) (Minutes (List Bool) Unit) Unit :=
  condition Cell.alone scriptedAnswer.minuted .oneAndAHalf

def soloWaitUntil : Behaviour (DepthSlots (Slot Unit)) (Minutes (List Bool) Unit) Unit :=
  waitUntil Cell.alone scriptedAnswer.minuted .oneAndAHalf

/-- Ticks at two depths in turn, and a reset at one of them. -/
def inTurn : List (Nat × Option Bool) :=
  [(0, none), (1, none), (0, none), (1, none), (0, none), (1, some true), (0, none), (1, none)]

/-- At each depth, the predicate is asked in the first tick and in those with which enough time has passed. -/
theorem solo_asks_on_schedule :
    (∃ told m, (polling Cell.alone soloCondition).Reaches told m ∧
        told.map Occasion.stint = [.tick [.asked true] .success, .tick [.asked false] .failure, .tick [] .success,
          .tick [] .failure, .tick [.asked true] .success, .reset true [], .tick [] .success,
          .tick [.asked false] .failure] ∧
        Polls Cell.alone scriptedAnswer .oneAndAHalf (fun _ => false) .ofBool .ofBool soloCondition) ∧
      ∃ told m, (polling Cell.alone soloWaitUntil).Reaches told m ∧
        told.map Occasion.stint = [.tick [.asked false] .running, .tick [.asked true] .success, .tick [] .running,
          .tick [.asked true] .success, .tick [.asked false] .running, .reset true [], .tick [] .running,
          .tick [.asked false] .running] ∧
        Polls Cell.alone scriptedAnswer .oneAndAHalf (· = .success) waitUntilStatus (fun _ => .running)
          soloWaitUntil := by
  have positive : 0 < Duration.oneAndAHalf.length := by decide
  have polls := predicates_asked_on_schedule (Cell.alone : Cell (DepthSlots (Slot Unit)) Unit)
    (fun _ => Cell.alone_holds) (fun _ => Cell.alone_separates) scriptedAnswer positive
  have lived {node : Behaviour (DepthSlots (Slot Unit)) (Minutes (List Bool) Unit) Unit} {stints : List (Stint Unit)}
      {keeps : Prop} (script : List Bool) (holds : keeps)
      (ran : (Going.played node.occasionOf changeDepth (questioned script) inTurn).map (·.map Occasion.stint) =
        some stints) :
      ∃ told m, (polling Cell.alone node).Reaches told m ∧ told.map Occasion.stint = stints ∧ keeps := by
    obtain ⟨told, made, same⟩ := Option.map_eq_some_iff.mp ran
    have idle (d : Nat) : Cell.alone.get (questioned script).runs d = .idle := DepthSlots.get_empty d
    obtain ⟨m, reached⟩ := occasions_reach idle rfl made
    exact ⟨told, m, reached, same, holds⟩
  exact ⟨lived [true, false, true, false] polls.1 (by decide +kernel),
    lived [false, true, true, false, false] polls.2.1 (by decide +kernel)⟩

/-! ## Without an interval -/

/-- A tick asks the predicate, and succeeds if it holds and goes on if not: it succeeds when a condition without an
interval would. This is asked of the ticks after such occasions and on such machines only. -/
structure PollsWhile (cell : Cell ρ σ) (predicate : Predicate μ σ) (every : Duration)
    (when : List (Occasion σ) → Machine ρ (Minutes μ σ) σ → Prop) (node : Behaviour ρ (Minutes μ σ) σ) : Prop where
  tick : ∀ told m, (polling cell node).Reaches told m → m.memory.acts = [] → when told m →
    ∃ n, node.tick m = .ok (waitUntilStatus (predicate m.context m.memory.own).1) n ∧
      n.memory = (predicate.minuted m.context m.memory).2
  like_condition : ∀ told m, (polling cell node).Reaches told m → m.memory.acts = [] → when told m →
    ∃ status n status' n', node.tick m = .ok status n ∧
      (condition cell predicate.minuted every).tick m = .ok status' n' ∧ (status = .success ↔ status' = .success) ∧ n.memory = n'.memory

section
variable (cell : Cell ρ σ) (holds : ∀ d, cell.Holds d) (separates : ∀ d, cell.Separates d) (predicate : Predicate μ σ)
  {every : Duration} (instant : ¬ 0 < every.length)
include holds separates instant

theorem pollsWhile_due {when : List (Occasion σ) → Machine ρ (Minutes μ σ) σ → Prop}
    (due : ∀ told m, (polling cell (waitUntil cell predicate.minuted every)).Reaches told m → when told m →
      every.Due (latest (· = .success) m.context.depth told) m.context.delta) :
    PollsWhile cell predicate every when (waitUntil cell predicate.minuted every) := by
  have asks : ∀ told m, (polling cell (waitUntil cell predicate.minuted every)).Reaches told m → m.memory.acts = [] →
      when told m → ∃ n,
        (waitUntil cell predicate.minuted every).tick m = .ok (waitUntilStatus (predicate m.context m.memory.own).1) n ∧
          n.memory = (predicate.minuted m.context m.memory).2 := by
    intro told m reached blank here
    obtain ⟨_, n, ran, scheduled⟩ := ((waitUntil_looks holds separates predicate).polls holds).tick told m reached blank
    obtain ⟨memory, rfl⟩ := scheduled.due (due told m reached here)
    exact ⟨n, ran, memory⟩
  refine ⟨asks, fun told m reached blank here => ?_⟩
  obtain ⟨n, ran, memory⟩ := asks told m reached blank here
  refine ⟨_, n, _, _, ran, condition_each instant, ?_, memory⟩
  show waitUntilStatus (predicate m.context m.memory.own).1 = .success ↔
    Status.ofBool (predicate m.context m.memory.own).1 = .success
  cases (predicate m.context m.memory.own).1 <;> decide

/-- Without an interval, `WaitUntil` asks in every tick that is due: if nothing is remembered at the depth, or if the
sum of the deltas since the last answer reaches zero. So it does in every tick if no delta at the depth is below zero.
A tick that is not due goes on and asks nothing. -/
theorem waitUntil_asks_when_due :
    PollsWhile cell predicate every
        (fun told m => every.Due (latest (· = .success) m.context.depth told) m.context.delta)
        (waitUntil cell predicate.minuted every) ∧
      PollsWhile cell predicate every
        (fun told m => 0 ≤ m.context.delta ∧ ∀ x ∈ told, x.depth = m.context.depth → 0 ≤ x.delta)
        (waitUntil cell predicate.minuted every) ∧
      ∀ told m, (polling cell (waitUntil cell predicate.minuted every)).Reaches told m → m.memory.acts = [] →
        ¬ every.Due (latest (· = .success) m.context.depth told) m.context.delta →
        ∃ n, (waitUntil cell predicate.minuted every).tick m = .ok .running n ∧ n.memory = m.memory := by
  have looks : Looks cell predicate every _ _ _ _ := waitUntil_looks holds separates predicate
  refine ⟨pollsWhile_due cell holds separates predicate instant fun _ _ _ => id, ?_, ?_⟩
  · refine pollsWhile_due cell holds separates predicate instant fun told m reached forward last same => ?_
    rw [looks.since_nil holds instant reached forward.2 same, List.nil_append]
    exact Duration.reached_single instant forward.1
  · intro told m reached blank early
    obtain ⟨_, n, ran, scheduled⟩ := (looks.polls holds).tick told m reached blank
    obtain ⟨memory, last, -, rfl⟩ := scheduled.early early
    exact ⟨n, ran, memory⟩

end

/-- A node without an interval. -/
def soloInstant : Behaviour (DepthSlots (Slot Unit)) (Minutes (List Bool) Unit) Unit :=
  waitUntil Cell.alone scriptedAnswer.minuted .none

/-- The predicate has been asked once, and did not hold. -/
def askedOnce : List (Occasion Unit) := [⟨0, 1, .tick [.asked false] .running⟩]

/-- The next tick takes this delta, and the predicate would hold. -/
def afterOne (delta : Float32) : Machine (DepthSlots (Slot Unit)) (Minutes (List Bool) Unit) Unit :=
  ⟨{ delta := delta }, ⟨[true], []⟩, ({} : DepthSlots (Slot Unit)).set 0 (.answered false 0), #[], #[]⟩

theorem afterOne_reached (delta : Float32) : (polling Cell.alone soloInstant).Reaches askedOnce (afterOne delta) := by
  have started : (polling Cell.alone soloInstant).Reaches [] (questioned [false, true]) :=
    .start fun d => DepthSlots.get_empty d
  have idle : Cell.alone.get (questioned [false, true]).runs 0 = Polled.slot none := DepthSlots.get_empty 0
  have ticked : soloInstant.tick (questioned [false, true]) = _ := waitUntil_due idle nofun
  exact .aside (.step started ⟨rfl, .tick rfl rfl ticked⟩) fun _ => rfl

/-- In the second tick the predicate is asked again, and holds. -/
theorem instant_asks_again : ∃ n, soloInstant.tick (afterOne 1) = .ok .success n := by
  have instant : ¬ 0 < Duration.none.length := by decide
  have asks := (waitUntil_asks_when_due (Cell.alone : Cell (DepthSlots (Slot Unit)) Unit) (fun _ => Cell.alone_holds)
    (fun _ => Cell.alone_separates) scriptedAnswer instant).2.1
  have forward : ∀ x ∈ askedOnce, x.depth = (afterOne 1).context.depth → 0 ≤ x.delta := by
    intro x among _
    rw [List.mem_singleton.mp among]
    decide
  obtain ⟨n, ran, -⟩ := asks.tick _ _ (afterOne_reached 1) rfl ⟨by decide, forward⟩
  exact ⟨n, ran⟩

/-- It is not asked again if the second tick has a delta below zero. -/
theorem waitUntil_lets_a_tick_pass : ¬ PollsWhile Cell.alone scriptedAnswer .none (fun _ _ => True) soloInstant := by
  intro polls
  obtain ⟨n, ran, -⟩ := polls.tick _ _ (afterOne_reached (-1)) rfl trivial
  have early : ¬ Duration.none.Reached [-1] := by decide
  have slot : Cell.alone.get (afterOne (-1)).runs 0 = Polled.slot (some ⟨false, []⟩) := rfl
  have passed : soloInstant.tick (afterOne (-1)) = _ := waitUntil_early slot early
  rw [passed] at ran
  cases ran

/-! ## Without the minutes -/

open Accord in
/-- With minutes, the nodes do what they do without. -/
theorem minuted_polls (cell : Cell ρ σ) (predicate : Predicate μ σ) (every : Duration) :
    Mirrored Minutes.own (condition cell predicate every) (condition cell predicate.minuted every) ∧
      Mirrored Minutes.own (waitUntil cell predicate every) (waitUntil cell predicate.minuted every) := by
  have cells : (mirror ρ σ (Minutes.own (μ := μ) (σ := σ))).Cells cell := mirror_cells cell
  have tests : (mirror ρ σ Minutes.own).Paired () () (Run.test predicate) (Run.test predicate.minuted) :=
    paired_of_mirrors (.test fun _ _ => rfl) () ()
  exact ⟨(condition_goes cells tests).mirrored, (waitUntil_goes cells tests).mirrored⟩

end Behaviour

end BehaviorTree
