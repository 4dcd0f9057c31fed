/-
  BehaviorTree.Proofs.Duality.Ordered: selectors and inverted sequences.

  A selector goes on where a sequence of inverted children does, since what passes for the one
  is what passes for the other with results swapped. The child that either remembers is the same,
  and its inverter has noted that it is running. The reactive nodes may pass that child while it
  is remembered; then only the children from there on need their notes (`Ahead`).
-/

import BehaviorTree.Behaviour.Reactive
import BehaviorTree.Proofs.Duality.Inverters

namespace BehaviorTree

variable {ρ μ σ : Type} {d e i : Nat} {pre : Wrapped σ → Prop} {pass : Verdict} {children : List (Behaviour ρ μ σ)}

theorem drop_zipIdx {τ : Type} (xs : List τ) (n : Nat) : xs.zipIdx.drop n = (xs.drop n).zipIdx n :=
  List.ext_getElem? fun i => by simp [List.getElem?_zipIdx]

open Behaviour

namespace Wrapped

variable {w : Wrapped σ}

/-- The node remembers a child that runs. -/
theorem Ticked.of_child (h : w.Elsewhere d) (running : (w.child i).get d = .started) :
    (w.setNode (w.node.set d (.child i))).Ticked d .running := by
  have slot : (w.setNode (w.node.set d (.child i))).node.get d = .child i := by
    show (w.node.set d (.child i)).get d = .child i
    rw [DepthSlots.get_set, if_pos rfl]
  refine ⟨h.setNode fun e other => by rw [DepthSlots.get_set, if_neg (Ne.symm other)], ?_, .inr rfl⟩
  unfold Ready
  rw [slot]
  exact running

/-- The node remembers the children that run side by side. -/
theorem Ticked.of_children (h : w.Elsewhere d) {states : List ChildState} (known : w.Knows d states) :
    (w.setNode (w.node.set d (.children states))).Ticked d .running := by
  have slot : (w.setNode (w.node.set d (.children states))).node.get d = .children states := by
    show (w.node.set d (.children states)).get d = .children states
    rw [DepthSlots.get_set, if_pos rfl]
  refine ⟨h.setNode fun e other => by rw [DepthSlots.get_set, if_neg (Ne.symm other)], ?_, .inr rfl⟩
  unfold Ready
  rw [slot]
  exact known

/-- The inverters of the children from the given place on know which child was left running. -/
def Ahead (i d : Nat) (w : Wrapped σ) : Prop :=
  ∀ k, w.node.get d = .child k → i ≤ k → (w.child k).get d = .started

end Wrapped

theorem seats_getElem? (k : Nat) :
    (seats (κ := DepthSlots (Slot σ)) children)[k]? = (children[k]?).map (seat k) := by
  simp [seats, List.getElem?_zipIdx, Function.comp_def]

theorem invertedSeats_getElem? (k : Nat) : (invertedSeats children)[k]? = (children[k]?).map (invertedSeat k) := by
  simp [invertedSeats, List.getElem?_zipIdx, Function.comp_def]

namespace Duals

/-! ## One after the other -/

theorem inOrderFrom (bs : List (Behaviour ρ μ σ)) (level : ∀ b ∈ bs, b.Level) :
    Shows d (Wrapped.Elsewhere d) Status.invert
      (inOrderFrom Trial.slots pass.flip d i ((bs.zipIdx i).map fun c => c.1.seat c.2))
      (inOrderFrom Wrapped.nodeCell pass d i ((bs.zipIdx i).map fun c => invertedSeat c.2 c.1)) (Wrapped.Ticked d) := by
  have forgets : ∀ (pre : Wrapped σ → Prop) (s : Status), (∀ w, pre w → w.Elsewhere d) →
      Shows d pre Status.invert
        (do Trial.slots.forget d; return s.invert : Run (Trial (DepthSlots (Slot σ)) ρ) μ σ Status)
        (do Wrapped.nodeCell.forget d; return s) (Wrapped.Ticked d) := fun pre s own =>
    (Shows.forget (q := fun _ => Wrapped.Ticked d s) fun w h => (Wrapped.Cleared.of_take (own w h)).ticked s).bind fun _ =>
      .pure fun _ h => h
  induction bs generalizing i with
  | nil =>
    have swapped : pass.flip.status = pass.status.invert := by simp
    simp only [List.zipIdx_nil, List.map_nil, Behaviour.inOrderFrom, swapped]
    exact forgets _ _ fun _ own => own
  | cons b bs ih =>
    simp only [List.zipIdx_cons, List.map_cons, Behaviour.inOrderFrom]
    refine (Shows.inverted_tick (level b (List.mem_cons_self ..)) i
      (q := fun s w => w.Elsewhere d ∧ (w.child i).get d = s.noted)
      fun w s own => ⟨own.note i s, by rw [Wrapped.child_note, if_pos rfl]⟩).bind fun s => ?_
    refine Shows.returning.bind fun _ => .ite Iff.rfl (fun _ => forgets _ s fun _ own => own.1) fun _ => ?_
    refine .ite (by simp) (fun running => ?_) fun _ => ?_
    · refine (Shows.keep (x := .child i) (q := fun _ => Wrapped.Ticked d .running) fun w own =>
        .of_child own.1 ?_).bind fun _ => .pure (y := Status.running) fun _ h => h
      rw [own.2, Status.noted, if_pos running]
    · refine .ite Status.invert_eq_flip (fun _ => ?_) fun _ => forgets _ s fun _ own => own.1
      exact (ih fun c hc => level c (List.mem_cons_of_mem _ hc)).weaken (fun _ own => own.1) fun _ _ h => h

theorem resetChild (level : ∀ b ∈ children, b.Level) (fire : Bool) :
    Shows d (fun w => w.Elsewhere e ∧ w.Ready e) id (Trial.slots.resetChild (seats children) e fire)
      (Wrapped.nodeCell.resetChild (invertedSeats children) e fire)
      fun _ => Wrapped.Cleared e := by
  refine (Shows.take (q := fun slot w => w.Cleared e ∧ ∀ k, slot = .child k → (w.child k).get e = .started)
    fun w own => ⟨.of_take own.1, fun k => own.2.of_child⟩).bind fun slot => ?_
  cases slot
  case child k =>
    simp only [Slot.invert, seats_getElem?, invertedSeats_getElem?]
    cases hb : children[k]? with
    | none => 
      simp only [Option.map_none, seats, invertedSeats, List.length_map, List.length_zipIdx]
      exact Shows.throw
    | some b =>
      exact Shows.inverted_reset (level b (List.mem_of_getElem? hb)) k (fun w own => own.2 k rfl)
        fun w own => own.1.release k
  all_goals exact .pure fun _ own => own.1

/-! ## Every child again on each tick -/

theorem preempt (level : ∀ b ∈ children, b.Level) (current : Nat) (noted : Slot σ) :
    Shows d (fun w => w.Elsewhere d ∧ w.Ahead (current + 1) d ∧ (w.child current).get d = noted) id
      (Trial.slots.preempt (seats children) d current) (Wrapped.nodeCell.preempt (invertedSeats children) d current)
      fun _ w => w.Cleared d ∧ (w.child current).get d = noted := by
  refine (Shows.take (q := fun slot w => w.Cleared d ∧ (w.child current).get d = noted ∧
      ∀ k, slot = .child k → current < k → (w.child k).get d = .started)
    fun w own => ⟨.of_take own.1, own.2.2, own.2.1⟩).bind fun slot => ?_
  cases slot
  case child k =>
    refine .ite Iff.rfl (fun later => ?_) fun _ => .pure fun _ own => ⟨own.1, own.2.1⟩
    simp only [seats_getElem?, invertedSeats_getElem?]
    cases hb : children[k]? with
    | none =>
      simp only [Option.map_none, seats, invertedSeats, List.length_map, List.length_zipIdx]
      exact Shows.throw
    | some b =>
      refine Shows.inverted_reset (level b (List.mem_of_getElem? hb)) k (fun w own => own.2.2 k rfl later)
        fun w own => ⟨own.1.release k, ?_⟩
      rw [Wrapped.child_release, if_neg (Nat.ne_of_gt later)]
      exact own.2.1
  all_goals exact .pure fun _ own => ⟨own.1, own.2.1⟩

theorem reactiveFrom (level : ∀ b ∈ children, b.Level) (bs : List (Behaviour ρ μ σ)) (among : bs ⊆ children) :
    Shows d (fun w => w.Elsewhere d ∧ w.Ahead i d) Status.invert
      (reactiveFrom Trial.slots pass.flip (seats children) d i ((bs.zipIdx i).map fun c => c.1.seat c.2))
      (reactiveFrom Wrapped.nodeCell pass (invertedSeats children) d i
        ((bs.zipIdx i).map fun c => invertedSeat c.2 c.1)) (Wrapped.Ticked d) := by
  induction bs generalizing i with
  | nil =>
    have swapped : pass.flip.status = pass.status.invert := by simp
    simp only [List.zipIdx_nil, List.map_nil, Behaviour.reactiveFrom, swapped]
    exact (Shows.forget (q := fun _ => Wrapped.Ticked d pass.status)
      fun w own => (Wrapped.Cleared.of_take own.1).ticked _).bind fun _ => .pure fun _ h => h
  | cons b bs ih =>
    simp only [List.zipIdx_cons, List.map_cons, Behaviour.reactiveFrom]
    refine (Shows.inverted_tick (level b (among (List.mem_cons_self ..))) i
      (q := fun s w => w.Elsewhere d ∧ w.Ahead (i + 1) d ∧ (w.child i).get d = s.noted) fun w s own => ?_).bind
      fun s => ?_
    · refine ⟨own.1.note i s, fun k slot later => ?_, by rw [Wrapped.child_note, if_pos rfl]⟩
      rw [Wrapped.child_note, if_neg (by omega)]
      exact own.2 k slot (by omega)
    refine Shows.returning.bind fun _ => .ite Iff.rfl (fun _ => ?_) fun _ => .ite Status.invert_eq_flip (fun _ => ?_)
      fun _ => ?_
    · exact (preempt level i s.noted).bind fun _ => .pure fun _ own => own.1.ticked s
    · exact (ih fun c hc => among (List.mem_cons_of_mem _ hc)).weaken (fun _ own => ⟨own.1, own.2.1⟩) fun _ _ h => h
    · refine (preempt level i s.noted).bind fun _ => ?_
      by_cases running : s = .running
      · subst running
        exact (Shows.keep (x := .child i) (q := fun _ => Wrapped.Ticked d .running) fun w own =>
          .of_child own.1.1 own.2).bind fun _ => .pure (y := Status.running) fun _ h => h
      · have still : s.isRunning = false := by cases s <;> simp_all [Status.isRunning]
        simp only [Status.isRunning_invert, still]
        exact .pure fun _ own => own.1.ticked s

end Duals

theorem resetChild_spared {bs : List (Behaviour (Trial (DepthSlots (Slot σ)) ρ) μ σ)} {fire : Bool}
    {m : Machine (Trial (DepthSlots (Slot σ)) ρ) μ σ} (idle : m.runs.own.get e = .idle) :
    Trial.slots.resetChild bs e fire m = .ok () m := by
  rw [Cell.resetChild_apply, show Trial.slots.get m.runs e = .idle from idle]
  exact congrArg _ (Machine.forget_idle idle)

variable (level : ∀ b ∈ children, b.Level)
include level

theorem inOrder_duals (pass : Verdict) :
    Duals (inOrder Trial.slots pass.flip (seats children)) (inOrder Wrapped.nodeCell pass (invertedSeats children)) where
  tick d := by
    refine .depth ((Shows.read (q := fun _ => Wrapped.Elsewhere d) fun w own e _ => own e).bind fun slot => ?_)
    dsimp only
    rw [Slot.invert_child?, seats, invertedSeats, ← List.map_drop, ← List.map_drop, drop_zipIdx]
    exact Duals.inOrderFrom _ fun b hb => level b (List.mem_of_mem_drop hb)
  reset _ _ fire := Duals.resetChild level fire
  spared _ _ _ idle := resetChild_spared idle

theorem reactive_duals (pass : Verdict) :
    Duals (reactive Trial.slots pass.flip (seats children))
      (reactive Wrapped.nodeCell pass (invertedSeats children)) where
  tick _ := .depth ((Duals.reactiveFrom level children (List.Subset.refl _)).weaken
    (fun _ own => ⟨fun e _ => own e, fun _ slot _ => (own _).ready.of_child slot⟩) fun _ _ h => h)
  reset _ _ fire := Duals.resetChild level fire
  spared _ _ _ idle := resetChild_spared idle

end BehaviorTree
