/-
  BehaviorTree.Proofs.Flattening.Ordered: nodes that run their children in order, one inside the other.

  The tick starts where the records say. Before the inner node and after it the outer node stands
  where the flat one does (`inOrder_walk`). At the inner node the flat one stands where the inner
  one does, and what the inner one answers at its end the outer one takes as the answer of the
  child (`inOrder_inside`): it goes on, remembers the inner node, or ends as well.
-/

import BehaviorTree.Proofs.Flattening.Nested
import BehaviorTree.Proofs.Passage

namespace BehaviorTree

variable {κ ρ μ σ : Type} {n k l d : Nat} {pass : Verdict}

namespace Behaviour

/-- The children in their order, numbered from `n` on. -/
def seatsFrom (n : Nat) (children : List (Behaviour ρ μ σ)) : List (Behaviour (Trial κ ρ) μ σ) :=
  (children.zipIdx n).map fun child => child.1.seat child.2

/-- Children of which some are in a node of their own. -/
def seatsAround (inner : List (Behaviour (Trial κ ρ) μ σ) → Behaviour (Trial κ ρ) μ σ)
    (xs ys zs : List (Behaviour ρ μ σ)) : List (Behaviour (Trial κ ρ) μ σ) :=
  seatsFrom 0 xs ++ inner (seatsFrom xs.length ys) :: seatsFrom (xs.length + ys.length) zs

section
variable {children xs ys zs : List (Behaviour ρ μ σ)}

@[simp] theorem seatsFrom_nil : seatsFrom (κ := κ) n ([] : List (Behaviour ρ μ σ)) = [] := rfl

theorem seatsFrom_cons (child : Behaviour ρ μ σ) :
    seatsFrom (κ := κ) n (child :: children) = child.seat n :: seatsFrom (n + 1) children := by
  simp [seatsFrom]

@[simp] theorem length_seatsFrom : (seatsFrom (κ := κ) n children).length = children.length := by simp [seatsFrom]

theorem getElem?_seatsFrom (i : Nat) :
    (seatsFrom (κ := κ) n children)[i]? = children[i]?.map fun child => child.seat (n + i) := by
  simp [seatsFrom, List.getElem?_zipIdx, Function.comp_def]

theorem seatsFrom_append : seatsFrom (κ := κ) n (xs ++ ys) = seatsFrom n xs ++ seatsFrom (n + xs.length) ys := by
  simp [seatsFrom, List.zipIdx_append]

theorem drop_seatsFrom (i : Nat) :
    (seatsFrom (κ := κ) n children).drop i = seatsFrom (n + i) (children.drop i) := by
  simp only [seatsFrom, ← List.map_drop]
  congr 1
  refine List.ext_getElem? fun j => ?_
  simp only [List.getElem?_drop, List.getElem?_zipIdx, Nat.add_assoc]

/-- The flat list, part by part. -/
theorem seats_parts : seats (κ := κ) (xs ++ ys ++ zs) =
    seatsFrom 0 xs ++ (seatsFrom xs.length ys ++ seatsFrom (xs.length + ys.length) zs) := by
  show seatsFrom 0 _ = _
  rw [List.append_assoc, seatsFrom_append, seatsFrom_append, Nat.zero_add]

end

/-! ## When a child has answered -/

/-- What a node that runs its children in order does when the child at `index` has answered. -/
def settled (cell : Cell ρ σ) (pass : Verdict) (depth index : Nat) (next : Run ρ μ σ Status) (status : Status) :
    Run ρ μ σ Status := do
  if ← Run.returning then
    cell.forget depth
    return status
  else if status.isRunning then
    cell.keep depth (.child index)
    return .running
  else if status = pass.status then next
  else
    cell.forget depth
    return status

variable {cell : Cell ρ σ} {i : Nat} {next : Run ρ μ σ Status} {s : Status} {m : Machine ρ μ σ}

theorem inOrderFrom_cons (child : Behaviour ρ μ σ) (rest : List (Behaviour ρ μ σ)) :
    inOrderFrom cell pass d i (child :: rest) =
      child.tick >>= settled cell pass d i (inOrderFrom cell pass d (i + 1) rest) := rfl

theorem settled_returning (asked : m.context.returnRequest.isSome = true) :
    settled cell pass d i next s m = .ok s (m.onRuns (cell.reset · d)) := by
  refine (Run.bind_ok (a := Run.returning) (m := m) rfl).trans ?_
  rw [if_pos asked]
  rfl

theorem settled_running (calm : ¬ m.context.returnRequest.isSome = true) :
    settled cell pass d i next .running m = .ok .running (m.onRuns (cell.set · d (.child i))) := by
  refine (Run.bind_ok (a := Run.returning) (m := m) rfl).trans ?_
  rw [if_neg calm]
  rfl

theorem settled_pass (calm : ¬ m.context.returnRequest.isSome = true) :
    settled cell pass d i next pass.status m = next m := by
  refine (Run.bind_ok (a := Run.returning) (m := m) rfl).trans ?_
  rw [if_neg calm]
  cases pass <;> rfl

theorem settled_end (calm : ¬ m.context.returnRequest.isSome = true) (running : ¬ s = .running)
    (other : ¬ s = pass.status) : settled cell pass d i next s m = .ok s (m.onRuns (cell.reset · d)) := by
  refine (Run.bind_ok (a := Run.returning) (m := m) rfl).trans ?_
  have still : s.isRunning = false := by cases s <;> simp_all [Status.isRunning]
  rw [if_neg calm, still, if_neg (by simp), if_neg other]
  rfl

end Behaviour

open Behaviour

/-! ## Records at the end of a tick -/

namespace Nested

variable {flat slots : DepthSlots (Slot σ)} {w : Nested σ}

/-- At the depth of the tick nothing is remembered of the inner node's children. -/
structure Calm (n k l d : Nat) (c : Context σ) (flat : DepthSlots (Slot σ)) (w : Nested σ) : Prop where
  depth : c.depth = d
  elsewhere : Elsewhere n k l d flat w
  inner : w.inner.get d = .idle

/-- Records that are forgotten or written at this depth are the same ones at the others. -/
theorem get_reset_ne {e : Nat} (h : e ≠ d) : (slots.reset d).get e = slots.get e := by
  rw [DepthSlots.get_reset, if_neg (Ne.symm h)]

theorem get_reset_eq : (slots.reset d).get d = .idle := by
  rw [DepthSlots.get_reset, if_pos rfl, Slot.default_eq]

theorem get_set_ne {e : Nat} {slot : Slot σ} (h : e ≠ d) : (slots.set d slot).get e = slots.get e := by
  rw [DepthSlots.get_set, if_neg (Ne.symm h)]

theorem get_set_eq {slot : Slot σ} : (slots.set d slot).get d = slot := by
  rw [DepthSlots.get_set, if_pos rfl]

theorem Elsewhere.forgotten (h : Elsewhere n k l d flat w) :
    Elsewhere n k l d (flat.reset d) (w.setOuter (w.outer.reset d)) :=
  h.congr fun _ other => ⟨get_reset_ne other, get_reset_ne other, rfl⟩

theorem Elsewhere.kept {p q : Slot σ} (h : Elsewhere n k l d flat w) :
    Elsewhere n k l d (flat.set d p) (w.setOuter (w.outer.set d q)) :=
  h.congr fun _ other => ⟨get_set_ne other, get_set_ne other, rfl⟩

theorem Elsewhere.setInner (h : Elsewhere n k l d flat w)
    (same : ∀ e, e ≠ d → slots.get e = w.inner.get e) : Elsewhere n k l d flat (w.setInner slots) :=
  h.congr fun e other => ⟨rfl, rfl, same e other⟩

/-- All nodes have forgotten. -/
theorem Calm.forgotten {c : Context σ} (h : Calm n k l d c flat w) :
    Fitting n k l (flat.reset d) (w.setOuter (w.outer.reset d)) :=
  h.elsewhere.forgotten.everywhere <| by
    unfold Fits setOuter
    rw [get_reset_eq, get_reset_eq, h.inner]
    exact .idle

/-- The flat node and the outer one remember the same child. -/
theorem Calm.kept {c : Context σ} {p q : Nat} (h : Calm n k l d c flat w)
    (place : Spread n k l (.child p : Slot σ) (.child q) .idle) :
    Fitting n k l (flat.set d (.child p)) (w.setOuter (w.outer.set d (.child q))) :=
  h.elsewhere.kept.everywhere <| by
    unfold Fits setOuter
    rw [get_set_eq, get_set_eq, h.inner]
    exact place

/-- The inner node has forgotten. -/
theorem Calm.of_inner {c : Context σ} (depth : c.depth = d) (h : Elsewhere n k l d flat w) :
    Calm n k l d c flat (w.setInner (w.inner.reset d)) :=
  ⟨depth, h.setInner fun _ other => get_reset_ne other, get_reset_eq⟩

/-- The inner node remembers a child, and the outer one that it is there. -/
theorem Fitting.of_inside {j : Nat} (h : Elsewhere n k l d flat w) (place : j < k) :
    Fitting n k l (flat.set d (.child (n + j)))
      ((w.setInner (w.inner.set d (.child j))).setOuter (w.outer.set d (.child n))) := by
  have apart : ∀ e, e ≠ d → (w.inner.set d (.child j)).get e = w.inner.get e := fun e other => get_set_ne other
  have later := (h.setInner apart).kept (p := .child (n + j)) (q := .child n)
  refine later.everywhere ?_
  simp only [Fits, setOuter, setInner, get_set_eq]
  exact .inside place

end Nested

/-! ## Walking through the children -/

namespace Matches

open Nested

variable {next : Run (Trial (DepthSlots (Slot σ)) ρ) μ σ Status} {next' : Run (Trial (Nested σ) ρ) μ σ Status}

/-- The end of the tick. -/
theorem ending (s : Status) : Matches (ρ := ρ) (μ := μ) (Calm n k l d) (do Trial.slots.forget d; return s)
    (do outerCell.forget d; return s) fun _ _ => Fitting (σ := σ) n k l := fun m w h =>
  .ok (x := s) (m := m.onRuns (Trial.slots.reset · d)) (w := w.setOuter (w.outer.reset d)) h.forgotten

/-- The node and the outer one do the same when a child has answered that is at places that correspond. -/
theorem settling {p q : Nat} (place : Spread n k l (.child p : Slot σ) (.child q) .idle) (s : Status)
    (rest : Matches (Calm n k l d) next next' fun _ _ => Fitting n k l) :
    Matches (Calm n k l d) (settled Trial.slots pass d p next s) (settled outerCell pass d q next' s)
      fun _ _ => Fitting n k l := by
  refine returning.bind fun r => .ite (fun _ => (ending s).weaken (fun _ _ _ h => h.1) fun _ _ _ _ h => h) fun _ => ?_
  refine .ite (fun running => fun m w h => ?_) fun _ => .ite (fun _ => rest.weaken (fun _ _ _ h => h.1)
    fun _ _ _ _ h => h) fun _ => (ending s).weaken (fun _ _ _ h => h.1) fun _ _ _ _ h => h
  exact .ok (x := Status.running) (m := m.onRuns (Trial.slots.set · d (.child p)))
    (w := w.setOuter (w.outer.set d (.child q))) (h.1.kept place)

theorem seat_calm {child : Behaviour ρ μ σ} (secluded : child.Secluded) (number : Nat) :
    Matches (Calm n k l d) (child.seat number).tick (child.seat number).tick fun _ => Calm n k l d :=
  (seat_tick (R := fun x w => Elsewhere n k l d x w ∧ w.inner.get d = .idle) secluded number).weaken
    (fun _ _ _ h => ⟨h.depth, h.elsewhere, h.inner⟩) fun _ _ _ _ h => ⟨h.1, h.2.1, h.2.2⟩

/-- Through children that are not in the inner node, and on from there. -/
theorem inOrder_walk {bs : List (Behaviour ρ μ σ)} {p q : Nat} (secluded : ∀ b ∈ bs, b.Secluded)
    (places : ∀ i < bs.length, Spread n k l (.child (p + i) : Slot σ) (.child (q + i)) .idle)
    {more : List (Behaviour (Trial (DepthSlots (Slot σ)) ρ) μ σ)} {more' : List (Behaviour (Trial (Nested σ) ρ) μ σ)}
    (rest : Matches (Calm n k l d) (inOrderFrom Trial.slots pass d (p + bs.length) more)
      (inOrderFrom outerCell pass d (q + bs.length) more') fun _ _ => Fitting n k l) :
    Matches (Calm n k l d) (inOrderFrom Trial.slots pass d p (seatsFrom p bs ++ more))
      (inOrderFrom outerCell pass d q (seatsFrom p bs ++ more')) fun _ _ => Fitting n k l := by
  induction bs generalizing p q with
  | nil => simpa using rest
  | cons b bs ih =>
    rw [seatsFrom_cons, seatsFrom_cons, List.cons_append, List.cons_append, inOrderFrom_cons, inOrderFrom_cons]
    refine (seat_calm (secluded b (List.mem_cons_self ..)) p).bind fun s => ?_
    refine settling (places 0 (Nat.succ_pos _)) s (ih (fun b hb => secluded b (List.mem_cons_of_mem _ hb)) ?_ ?_)
    · intro i hi
      have place := places (i + 1) (Nat.succ_lt_succ hi)
      rwa [show p + (i + 1) = p + 1 + i by omega, show q + (i + 1) = q + 1 + i by omega] at place
    · rw [show p + 1 + bs.length = p + (b :: bs).length by simp; omega,
        show q + 1 + bs.length = q + (b :: bs).length by simp; omega]
      exact rest

/-- Through the children in the inner node, whose answer the outer node takes, and on from there. -/
theorem inOrder_inside {bs : List (Behaviour ρ μ σ)} {j : Nat} (secluded : ∀ b ∈ bs, b.Secluded)
    (nonempty : bs ≠ []) (count : j + bs.length = k)
    {more : List (Behaviour (Trial (DepthSlots (Slot σ)) ρ) μ σ)} {more' : List (Behaviour (Trial (Nested σ) ρ) μ σ)}
    (rest : Matches (Calm n k l d) (inOrderFrom Trial.slots pass d (n + k) more)
      (inOrderFrom outerCell pass d (n + 1) more') fun _ _ => Fitting n k l) :
    Matches (fun c x w => c.depth = d ∧ Elsewhere n k l d x w)
      (inOrderFrom Trial.slots pass d (n + j) (seatsFrom (n + j) bs ++ more))
      (inOrderFrom innerCell pass d j (seatsFrom (n + j) bs) >>=
        settled outerCell pass d n (inOrderFrom outerCell pass d (n + 1) more'))
      fun _ _ => Fitting n k l := by
  induction bs generalizing j with
  | nil => exact absurd rfl nonempty
  | cons b bs ih =>
    simp only [seatsFrom_cons, List.cons_append, inOrderFrom_cons, bind_assoc]
    refine (seat_tick (secluded b (List.mem_cons_self ..)) (n + j)).bind fun s m w h => ?_
    have ended := (Calm.of_inner h.1 h.2).forgotten
    by_cases asked : m.context.returnRequest.isSome = true
    · rw [settled_returning asked, Run.bind_ok (settled_returning (m := m.owning w) asked),
        settled_returning (m := (m.owning w).onRuns _) asked]
      exact .ok (x := s) (m := m.onRuns (Trial.slots.reset · d)) ended
    by_cases running : s = .running
    · subst running
      rw [settled_running asked, Run.bind_ok (settled_running (m := m.owning w) asked),
        settled_running (m := (m.owning w).onRuns _) asked]
      exact .ok (x := Status.running) (m := m.onRuns (Trial.slots.set · d (.child (n + j))))
        (Fitting.of_inside h.2 (by simp at count; omega))
    by_cases passed : s = pass.status
    · subst passed
      rw [settled_pass asked, Run.bind_congr (settled_pass (m := m.owning w) asked)]
      cases bs with
      | nil =>
        have inner : inOrderFrom innerCell pass d (j + 1) (seatsFrom (n + j + 1) []) (m.owning w) =
            .ok pass.status (m.owning (w.setInner (w.inner.reset d))) := rfl
        rw [Run.bind_ok inner, settled_pass (m := m.owning (w.setInner _)) asked, show n + j + 1 = n + k by simp at count; omega]
        exact rest m _ (.of_inner h.1 h.2)
      | cons b' bs =>
        exact ih (j := j + 1) (fun b hb => secluded b (List.mem_cons_of_mem _ hb)) (by simp)
          (by simp only [List.length_cons] at count ⊢; omega) m w h
    · rw [settled_end asked running passed, Run.bind_ok (settled_end (m := m.owning w) asked running passed),
        settled_end (m := (m.owning w).onRuns _) asked running passed]
      exact .ok (x := s) (m := m.onRuns (Trial.slots.reset · d)) ended

/-! ## Ticks and resets -/

section
variable {xs ys zs : List (Behaviour ρ μ σ)} (secluded : ∀ child ∈ xs ++ ys ++ zs, child.Secluded)
include secluded

variable (pass d) in
/-- Through the children after the inner node. -/
theorem inOrder_later (i : Nat) :
    Matches (Calm xs.length ys.length zs.length d)
      (inOrderFrom Trial.slots pass d (xs.length + ys.length + i) (seatsFrom (xs.length + ys.length + i) (zs.drop i)))
      (inOrderFrom outerCell pass d (xs.length + 1 + i) (seatsFrom (xs.length + ys.length + i) (zs.drop i)))
      fun _ _ => Fitting xs.length ys.length zs.length := by
  have places : ∀ e < (zs.drop i).length, Spread xs.length ys.length zs.length
      (.child (xs.length + ys.length + i + e) : Slot σ) (.child (xs.length + 1 + i + e)) .idle := fun e he => by
    rw [Nat.add_assoc _ i e, Nat.add_assoc _ i e]
    exact .after (by simp at he; omega)
  rw [← List.append_nil (seatsFrom _ _), ← List.append_nil (seatsFrom (κ := Nested σ) _ _)]
  exact inOrder_walk (fun b hb => secluded b (List.mem_append_right _ (List.mem_of_mem_drop hb))) places
    (ending pass.status)

variable (pass d) in
/-- At the inner node, which goes on where it was. -/
theorem inOrder_inner (j : Nat) (place : j < ys.length) :
    Matches (fun c x w => c.depth = d ∧ Elsewhere xs.length ys.length zs.length d x w ∧
        (w.inner.get d).child?.getD 0 = j)
      (inOrderFrom Trial.slots pass d (xs.length + j) (seatsFrom (xs.length + j) (ys.drop j) ++
        seatsFrom (xs.length + ys.length) zs))
      (inOrderFrom outerCell pass d xs.length (inOrder innerCell pass (seatsFrom xs.length ys) ::
        seatsFrom (xs.length + ys.length) zs))
      fun _ _ => Fitting xs.length ys.length zs.length := by
  intro m w h
  have later := inOrder_later d pass secluded 0
  have starts : (inOrder innerCell pass (seatsFrom xs.length ys)).tick (m.owning w) =
      inOrderFrom innerCell pass d j (seatsFrom (xs.length + j) (ys.drop j)) (m.owning w) := by
    show inOrderFrom innerCell pass m.context.depth ((w.inner.get m.context.depth).child?.getD 0)
      ((seatsFrom xs.length ys).drop ((w.inner.get m.context.depth).child?.getD 0)) (m.owning w) = _
    rw [h.1, h.2.2, drop_seatsFrom]
  rw [inOrderFrom_cons, Run.bind_congr starts]
  exact inOrder_inside (fun b hb => secluded b (List.mem_append_left _ (List.mem_append_right _
    (List.mem_of_mem_drop hb)))) (by simpa using place) (by simp; omega) (by simpa using later) m w ⟨h.1, h.2.1⟩

variable (pass d) in
/-- Through the children before the inner node, and on. -/
theorem inOrder_earlier (nonempty : ys ≠ []) (i : Nat) (place : i ≤ xs.length) :
    Matches (Calm xs.length ys.length zs.length d)
      (inOrderFrom Trial.slots pass d i (seatsFrom i (xs.drop i) ++ (seatsFrom xs.length ys ++
        seatsFrom (xs.length + ys.length) zs)))
      (inOrderFrom outerCell pass d i (seatsFrom i (xs.drop i) ++ inOrder innerCell pass (seatsFrom xs.length ys) ::
        seatsFrom (xs.length + ys.length) zs))
      fun _ _ => Fitting xs.length ys.length zs.length := by
  refine inOrder_walk (fun b hb => secluded b (List.mem_append_left _ (List.mem_append_left _
    (List.mem_of_mem_drop hb)))) (fun e he => .before (by simp at he; omega)) ?_
  have inner := inOrder_inner d pass secluded 0 (List.length_pos_iff.mpr nonempty)
  rw [show i + (xs.drop i).length = xs.length by simp; omega]
  exact inner.weaken (fun _ _ _ h => ⟨h.depth, h.elsewhere, by rw [h.inner]; rfl⟩) fun _ _ _ _ h => h

theorem inOrder_tick (nonempty : ys ≠ []) :
    Matches (fun c x w => c.depth = d ∧ Fitting xs.length ys.length zs.length x w)
      (inOrder Trial.slots pass (seats (xs ++ ys ++ zs))).tick
      (inOrder outerCell pass (seatsAround (inOrder innerCell pass) xs ys zs)).tick
      fun _ _ => Fitting xs.length ys.length zs.length := by
  refine .depth (fun _ _ _ h => h.1) fun m w h => ?_
  have elsewhere : Elsewhere xs.length ys.length zs.length d m.runs.own w := fun e _ => h.2 e
  show Matched _ (inOrderFrom Trial.slots pass d ((m.runs.own.get d).child?.getD 0)
      ((seats (xs ++ ys ++ zs)).drop ((m.runs.own.get d).child?.getD 0)) m)
    (inOrderFrom outerCell pass d ((w.outer.get d).child?.getD 0)
      ((seatsAround (inOrder innerCell pass) xs ys zs).drop ((w.outer.get d).child?.getD 0)) (m.owning w))
  have here := h.2 d
  unfold Fits at here
  rw [seats_parts, seatsAround]
  generalize m.runs.own.get d = flat at here
  generalize w.outer.get d = outer at here
  generalize hi : w.inner.get d = inner at here
  cases here with
  | idle =>
    have earlier := inOrder_earlier d pass secluded nonempty 0 (Nat.zero_le _)
    exact earlier m w ⟨h.1, elsewhere, hi⟩
  | @before i place =>
    have earlier := inOrder_earlier d pass secluded nonempty i (Nat.le_of_lt place)
    have first : ∀ {κ : Type} (more : List (Behaviour (Trial κ ρ) μ σ)),
        (seatsFrom 0 xs ++ more).drop i = seatsFrom i (xs.drop i) ++ more := fun more => by
      rw [List.drop_append_of_le_length (by simp; omega), drop_seatsFrom, Nat.zero_add]
    simp only [Slot.child?, Option.getD_some, first]
    exact earlier m w ⟨h.1, elsewhere, hi⟩
  | @inside j place =>
    have inner := inOrder_inner d pass secluded j place
    simp only [Slot.child?, Option.getD_some]
    have flat : (seatsFrom (κ := DepthSlots (Slot σ)) 0 xs ++
          (seatsFrom xs.length ys ++ seatsFrom (xs.length + ys.length) zs)).drop (xs.length + j) =
        seatsFrom (xs.length + j) (ys.drop j) ++ seatsFrom (xs.length + ys.length) zs := by
      rw [List.drop_append, List.drop_of_length_le (by simp), List.nil_append, length_seatsFrom,
        Nat.add_sub_cancel_left, List.drop_append_of_le_length (by simp; omega), drop_seatsFrom]
    have nested : ∀ more : List (Behaviour (Trial (Nested σ) ρ) μ σ),
        (seatsFrom 0 xs ++ more).drop xs.length = more := fun more => List.drop_left' length_seatsFrom
    rw [flat, nested]
    exact inner m w ⟨h.1, elsewhere, by rw [hi]; rfl⟩
  | @after i place =>
    have later := inOrder_later d pass secluded i
    simp only [Slot.child?, Option.getD_some]
    have flat : (seatsFrom (κ := DepthSlots (Slot σ)) 0 xs ++
          (seatsFrom xs.length ys ++ seatsFrom (xs.length + ys.length) zs)).drop (xs.length + ys.length + i) =
        seatsFrom (xs.length + ys.length + i) (zs.drop i) := by
      rw [← List.append_assoc, List.drop_append, List.drop_of_length_le (by simp), List.nil_append,
        List.length_append, length_seatsFrom, length_seatsFrom, Nat.add_sub_cancel_left, drop_seatsFrom]
    have nested : ∀ inner : Behaviour (Trial (Nested σ) ρ) μ σ,
        (seatsFrom 0 xs ++ inner :: seatsFrom (xs.length + ys.length) zs).drop (xs.length + 1 + i) =
          seatsFrom (xs.length + ys.length + i) (zs.drop i) := fun inner => by
      rw [List.append_cons, List.drop_append, List.drop_of_length_le (by simp), List.nil_append,
        List.length_append, length_seatsFrom, List.length_singleton, Nat.add_sub_cancel_left, drop_seatsFrom]
    rw [flat, nested]
    exact later m w ⟨h.1, elsewhere, hi⟩

end

end Matches

end BehaviorTree
