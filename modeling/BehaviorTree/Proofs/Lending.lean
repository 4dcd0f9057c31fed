/-
  BehaviorTree.Proofs.Lending: which state each node sees.

  A call can make a state for its tree, out of the state that it sees itself. It makes it when a run
  starts and lends it to the tree at every tick of that run, whatever the callers see by then. All
  other nodes see what the innermost such call around them lends, or what the tick was given
  (`states_lent`). That holds wherever ticks and resets lead, and whatever a tick comes to: a call
  that ends, goes on or is refused leaves its caller's state as it found it.
-/

import BehaviorTree.Proofs.Depth
import BehaviorTree.Proofs.Lending.Trees

namespace BehaviorTree

variable {μ σ α : Type}

namespace System

variable {sys : System μ σ} {given : Option σ} {m start : Machine (Recorded μ σ) μ σ}

/-- Where a tick stands that has not begun. -/
def outset (m : Machine (Recorded μ σ) μ σ) : Outlook μ σ := ⟨m.runs.history, [], m.context.depth, m.context.state⟩

theorem Lends.outset (h : sys.Lends m.runs) : (sys.lending given (outset m)).holds m :=
  ⟨⟨rfl, rfl, [], (List.append_nil _).symm, .nil⟩, h⟩

theorem Lends.last {a : Run (Recorded μ σ) μ σ α} (keeps : (sys.lending given (System.outset m)).Keeps a)
    (h : sys.Lends m.runs) : sys.Lends (a.last m).runs := by
  have ended := keeps m h.outset
  unfold Run.last
  generalize a m = r at ended
  cases ended with
  | ok came => exact came.2.2
  | error breaks => exact breaks.1

theorem tick_lends (tree : TreeId) (delta : Float32) :
    (sys.lending given (outset m)).Keeps (sys.tick .recording tree delta given) :=
  tickWith_lends (nestedHost_lends nestingBound) rfl

theorem reset_lends (tree : TreeId) (fire : Bool) :
    (sys.lending none (outset m)).Keeps (sys.reset .recording tree fire) := resetAt_lends _ tree 0 fire

/-- Wherever ticks and resets lead from where nothing was in progress, calls remember what they have lent. -/
theorem Onward.lends (h : sys.Onward start m) (idle : ∀ p, start.runs.store.slot p = .idle)
    (blank : start.runs.history = []) : sys.Lends m.runs := by
  induction h with
  | refl => exact fun p => .of_idle (by rw [blank]; rfl) fun _ _ _ => idle p
  | between _ _ _ _ _ slots _ ih => exact ih.of_same (slots _) rfl
  | tick tree delta state _ ih => exact ih.last (tick_lends tree delta)
  | reset tree fire _ ih => exact ih.last (reset_lends tree fire)

end System

/-- In every system, wherever ticks and resets of any trees lead from where nothing is in progress, and whatever the
next tick comes to: each node that it enters sees the state in force there, and sees the same state when it is left.
If the tick ends well, it has left all nodes. -/
theorem states_lent (sys : System μ σ) (start m : Machine (Recorded μ σ) μ σ)
    (idle : ∀ p, start.runs.store.slot p = .idle) (blank : start.runs.history = []) (onward : sys.Onward start m)
    (tree : TreeId) (delta : Float32) (state : Option σ) :
    ∃ xs, ((sys.tick .recording tree delta state).last m).runs.history = m.runs.history ++ xs ∧
      sys.AllInForce state m.runs.history [] xs ∧
      ∀ status n, sys.tick .recording tree delta state m = .ok status n → staysAfter m.runs.history [] xs = [] := by
  have ticks : (sys.lending state (System.outset m)).Keeps (sys.tick .recording tree delta state) :=
    System.tick_lends tree delta
  have ended := ticks m (onward.lends idle blank).outset
  unfold Run.last
  generalize sys.tick .recording tree delta state m = r at ended
  cases ended with
  | ok came =>
    obtain ⟨xs, history, told⟩ := came.2.1.told
    exact ⟨xs, history, told.inForce, fun _ _ _ => told.back⟩
  | error breaks =>
    obtain ⟨-, xs, history, inForce⟩ := breaks
    exact ⟨xs, history, inForce, fun _ _ h => nomatch h⟩

/-! ## A tree that calls itself with states of its own -/

/-- Calls its own tree with the next number, and waits beside it. -/
def lineage : Node Unit Nat :=
  .join .any [.call (.fixed (.strong 0)) (some fun caller memory => (caller.getD 0 + 1, memory)), .pause]

/-- The tree may be called two calls deep. -/
def lineal : System Unit Nat where
  trees := #[{ name := "lineage", root := lineage
               limits := ⟨{ maxCallDepth := 2, stackCapacity := some 8 }, by decide⟩ }]

/-- Nothing happened yet. -/
def linealStart : Machine (Recorded Unit Nat) Unit Nat := { context := {}, memory := (), runs := { store := {} } }

/-- How deep a node is entered, and the state that it sees. -/
def Moment.sight : Moment Unit Nat → Option (Nat × Option Nat)
  | entered _ scene => some (scene.context.depth, scene.context.state)
  | _ => none

/-- Two ticks with different states: their answers, and what the nodes see in the second. -/
def linealRun : Run (Recorded Unit Nat) Unit Nat (List Status × List (Nat × Option Nat)) := do
  let first ← lineal.tick .recording 0 0 (some 5)
  let m ← get
  let second ← lineal.tick .recording 0 0 (some 50)
  let n ← get
  return ([first, second], (n.runs.history.drop m.runs.history.length).filterMap Moment.sight)

/-- The caller sees another state at the second tick, before its call and after it, and the trees called still see
those that they were lent at the first; so does the node beside the call that was refused. -/
theorem lineage_keeps_states : ∃ m xs, lineal.Onward linealStart m ∧
    ((lineal.tick .recording 0 0 (some 50)).last m).runs.history = m.runs.history ++ xs ∧
    lineal.AllInForce (some 50) m.runs.history [] xs ∧ xs.filterMap Moment.sight =
      [(0, some 50), (0, some 50), (1, some 6), (1, some 6), (2, some 7), (2, some 7), (1, some 6), (0, some 50)] := by
  obtain ⟨_, ran⟩ := Run.ok_of_answer (a := linealRun) (m := linealStart) (x := ([.running, .success],
    [(0, some 50), (0, some 50), (1, some 6), (1, some 6), (2, some 7), (2, some 7), (1, some 6), (0, some 50)]))
    (by decide +kernel)
  simp only [linealRun, Run.bind_eq_ok, Run.get_eq_ok, Run.pure_eq_ok, Prod.mk.injEq] at ran
  obtain ⟨_, m, first, _, _, ⟨rfl, rfl⟩, _, n, second, _, _, ⟨rfl, rfl⟩, ⟨-, seen⟩, rfl⟩ := ran
  have onward : lineal.Onward linealStart m := by
    have once : lineal.Onward linealStart _ := System.Onward.refl.tick 0 0 (some 5)
    rwa [Run.last_ok first] at once
  obtain ⟨xs, history, inForce, -⟩ :=
    states_lent lineal linealStart m (fun _ => Store.slot_empty _) rfl onward 0 0 (some 50)
  rw [Run.last_ok second] at history
  rw [history, List.drop_left] at seen
  exact ⟨m, xs, onward, by rw [Run.last_ok second, history], inForce, seen⟩

end BehaviorTree
