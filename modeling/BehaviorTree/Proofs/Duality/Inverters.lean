/-
  BehaviorTree.Proofs.Duality.Inverters: what the inverters do for the children and for the node.

  An inverter around a child notes whether the child is running and swaps its result. Seen from
  the front that is the child itself, ticked, with the result swapped back; and its reset, as
  long as the inverter has noted that the child is running. The same inverter around the node
  swaps the results a second time (`Duals.inverted`).
-/

import BehaviorTree.Proofs.Duality.Wrapped
import BehaviorTree.Proofs.Passage

namespace BehaviorTree

variable {ρ μ σ : Type}

@[simp] theorem Status.isRunning_invert (s : Status) : s.invert.isRunning = s.isRunning := by cases s <;> rfl

theorem Status.invert_eq_flip {s : Status} {v : Verdict} : s.invert = v.flip.status ↔ s = v.status := by
  cases s <;> cases v <;> simp [invert, Verdict.flip, Verdict.status]

/-- What an inverter remembers of a child that answered so. -/
def Status.noted (s : Status) : Slot σ := if s.isRunning then .started else .idle

namespace Behaviour

theorem invert_reset_started (cell : Cell ρ σ) {child : Behaviour ρ μ σ} {m : Machine ρ μ σ} {d : Nat} {fire : Bool}
    (h : cell.get m.runs d = .started) :
    (invert cell child).reset d fire m = child.reset d fire (m.onRuns (cell.reset · d)) := by
  show cell.resetStarted child d fire m = _
  rw [Cell.resetStarted_apply, h]

theorem invert_reset_spared (cell : Cell ρ σ) {child : Behaviour ρ μ σ} {m : Machine ρ μ σ} {d : Nat} {fire : Bool}
    (h : cell.get m.runs d ≠ .started) : (invert cell child).reset d fire m = .ok () m := by
  show cell.resetStarted child d fire m = _
  rw [Cell.resetStarted_apply]
  split
  · exact absurd ‹_› h
  · rfl

/-- An inverter around the child with this number. -/
def invertedSeat (number : Nat) (child : Behaviour ρ μ σ) : Behaviour (Trial (Wrapped σ) ρ) μ σ :=
  invert (Wrapped.childCell number) (child.seat number)

/-- An inverter around each child. -/
def invertedSeats (children : List (Behaviour ρ μ σ)) : List (Behaviour (Trial (Wrapped σ) ρ) μ σ) :=
  children.zipIdx.map fun child => invertedSeat child.2 child.1

end Behaviour

open Behaviour

namespace Wrapped

/-- The inverter around a child has noted an answer. -/
def note (w : Wrapped σ) (i d : Nat) (s : Status) : Wrapped σ := w.setChild i ((w.child i).set d s.noted)

/-- The inverter around a child has let a reset through. -/
def release (w : Wrapped σ) (i d : Nat) : Wrapped σ := w.setChild i ((w.child i).reset d)

variable {w : Wrapped σ} {d : Nat}

theorem child_note (w : Wrapped σ) (i d j : Nat) (s : Status) :
    ((w.note i d s).child j).get d = if i = j then s.noted else (w.child j).get d := by
  rw [note, child_setChild]
  split
  · subst j
    rw [DepthSlots.get_set, if_pos rfl]
  · rfl

theorem child_release (w : Wrapped σ) (i d j : Nat) :
    ((w.release i d).child j).get d = if i = j then .idle else (w.child j).get d := by
  rw [release, child_setChild]
  split
  · subst j
    rw [DepthSlots.get_reset, if_pos rfl, Slot.default_eq]
  · rfl

theorem Elsewhere.note (h : Elsewhere d w) (i : Nat) (s : Status) : Elsewhere d (w.note i d s) :=
  h.setChild fun e other => by rw [DepthSlots.get_set, if_neg (Ne.symm other)]

theorem Elsewhere.release (h : Elsewhere d w) (i : Nat) : Elsewhere d (w.release i d) :=
  h.setChild fun e other => by rw [DepthSlots.get_reset, if_neg (Ne.symm other)]

/-- At the depth the node remembers nothing, and elsewhere the slots stand. -/
def Cleared (d : Nat) (w : Wrapped σ) : Prop := w.Elsewhere d ∧ w.node.get d = .idle

theorem Cleared.of_take (h : w.Elsewhere d) : (w.setNode (w.node.reset d)).Cleared d := by
  refine ⟨h.setNode fun e other => by rw [DepthSlots.get_reset, if_neg (Ne.symm other)], ?_⟩
  show (w.node.reset d).get d = .idle
  rw [DepthSlots.get_reset, if_pos rfl, Slot.default_eq]

theorem Cleared.release (h : w.Cleared d) (i : Nat) : (w.release i d).Cleared d := ⟨h.1.release i, h.2⟩

theorem Cleared.note (h : w.Cleared d) (i : Nat) (s : Status) : (w.note i d s).Cleared d := ⟨h.1.note i s, h.2⟩

/-- The slots after a tick at the depth: the node has a run in progress only if it answered so. -/
structure Ticked (d : Nat) (s : Status) (w : Wrapped σ) : Prop where
  elsewhere : w.Elsewhere d
  ready : w.Ready d
  node : w.node.get d = .idle ∨ s = .running

theorem Cleared.ticked (h : w.Cleared d) (s : Status) : w.Ticked d s := ⟨h.1, .of_idle h.2, .inl h.2⟩

end Wrapped

namespace Shows

variable {d e : Nat} {pre : Wrapped σ → Prop} {child : Behaviour ρ μ σ} (level : child.Level) (i : Nat)
include level

theorem inverted_tick {q : Status → Wrapped σ → Prop} (h : ∀ w s, pre w → q s (w.note i d s)) :
    Shows d pre Status.invert (child.seat i).tick (invertedSeat i child).tick q := by
  rw [← bind_pure (child.seat i).tick]
  refine (seat_tick level i).bind fun s => knowing (unseen (q := q s.invert) (f := (·.note i d s))
    (c := Pure.pure s.invert) (fun _ _ => Run.bind_ok rfl) (fun _ _ => rfl) (fun w own => ?_) ?_)
  · have noted : (s.noted : Slot σ) = s.invert.noted := by simp [Status.noted]
    show q s.invert (w.setChild i ((w.child i).set d s.noted))
    rw [noted]
    exact h w s.invert own
  · have back : Pure.pure s = (Pure.pure s.invert.invert : Run (Trial (DepthSlots (Slot σ)) ρ) μ σ Status) := by
      rw [Status.invert_invert]
    show Shows d (q s.invert) Status.invert (Pure.pure s) (Pure.pure s.invert) q
    rw [back]
    exact pure fun _ own => own

theorem inverted_reset {fire : Bool} {q : Unit → Wrapped σ → Prop}
    (started : ∀ w, pre w → (w.child i).get e = .started) (h : ∀ w, pre w → q () (w.release i e)) :
    Shows d pre id ((child.seat i).reset e fire) ((invertedSeat i child).reset e fire) q := by
  refine unseen (f := (·.release i e)) (fun m own => ?_) (fun _ _ => rfl) h (seat_reset level i fire)
  exact invert_reset_started (Wrapped.childCell i) (started _ own)

end Shows

/-! ## The inverter around the node -/

/-- Where nothing is remembered there is nothing to forget. -/
theorem Machine.forget_idle {m : Machine (Trial (DepthSlots (Slot σ)) ρ) μ σ} {d : Nat}
    (idle : m.runs.own.get d = .idle) : m.onRuns (Trial.slots.reset · d) = m := by
  show { m with runs := { m.runs with own := m.runs.own.reset d } } = m
  rw [DepthSlots.reset_eq_self _ d idle]

/-- The first node does what the second one does over inverted children, with the results swapped. The second
one leaves its slots in order, so that an inverter may be put around it. -/
structure Duals (left : Behaviour (Trial (DepthSlots (Slot σ)) ρ) μ σ)
    (right : Behaviour (Trial (Wrapped σ) ρ) μ σ) : Prop where
  tick : ∀ d, Shows d (fun w => ∀ e, w.Standing e) Status.invert left.tick right.tick
    (Wrapped.Ticked d)
  reset : ∀ d e fire, Shows d (fun w => w.Elsewhere e ∧ w.Ready e) id (left.reset e fire) (right.reset e fire)
    fun _ => Wrapped.Cleared e
  /-- Where nothing is remembered a reset does nothing. -/
  spared : ∀ e fire m, m.runs.own.get e = .idle → left.reset e fire m = .ok () m

namespace Duals

variable {left : Behaviour (Trial (DepthSlots (Slot σ)) ρ) μ σ} {right : Behaviour (Trial (Wrapped σ) ρ) μ σ}
  (h : Duals left right)
include h

theorem inverted_tick (d : Nat) : Shows d (fun w => ∀ e, w.Standing e) id left.tick
    (invert Wrapped.aroundCell right).tick fun _ w => ∀ e, w.Standing e := by
  rw [← bind_pure left.tick]
  refine (h.tick d).bind fun s => .knowing (.unseen (q := fun w => ∀ e, w.Standing e)
    (f := fun w => w.setAround (w.around.set d s.noted)) (c := pure s.invert) (fun _ _ => Run.bind_ok rfl)
    (fun _ _ => rfl) (fun w own e => ?_) (.pure fun _ own => own))
  obtain ⟨elsewhere, ready, node⟩ := own
  by_cases here : e = d
  · subst e
    refine ⟨ready, node.imp_right fun running => ?_⟩
    show (w.around.set d s.noted).get d = .started
    rw [DepthSlots.get_set, if_pos rfl, running]
    rfl
  · refine elsewhere.setAround (fun e other => ?_) e here
    rw [DepthSlots.get_set, if_neg (Ne.symm other)]

theorem inverted_reset (d e : Nat) (fire : Bool) : Shows d (fun w => ∀ e, w.Standing e) id (left.reset e fire)
    ((invert Wrapped.aroundCell right).reset e fire) fun _ w => ∀ e, w.Standing e := by
  refine .given fun w stands => ?_
  by_cases started : w.around.get e = .started
  · refine .unseen (q := fun w => w.Elsewhere e ∧ w.Ready e) (f := fun w => w.setAround (w.around.reset e))
      (c := right.reset e fire) (fun m own => ?_) (fun _ _ => rfl) (fun w own => ?_)
      ((h.reset d e fire).weaken (fun _ own => own) fun _ w own e' => ?_)
    · subst own
      exact invert_reset_started Wrapped.aroundCell started
    · subst own
      have elsewhere : w.Elsewhere e := fun e' _ => stands e'
      exact ⟨elsewhere.setAround fun e' other => by rw [DepthSlots.get_reset, if_neg (Ne.symm other)],
        (stands e).ready⟩
    · by_cases here : e' = e
      · exact here ▸ ⟨.of_idle own.2, .inl own.2⟩
      · exact own.1 e' here
  · intro m depth own
    subst own
    have idle : m.front.runs.own.get e = .idle := by
      show m.runs.own.front.get e = .idle
      rw [Wrapped.get_front, (stands e).around.resolve_right started, Slot.invert_idle]
    rw [h.spared e fire m.front idle, invert_reset_spared Wrapped.aroundCell started]
    exact .ok (y := ()) ⟨depth, stands⟩

end Duals

end BehaviorTree
