/-
  BehaviorTree.Proofs.Flattening.Reactive: nodes that look at every child again, one inside the other.

  All nodes keep their records of the last tick until this one ends at some child, and then abandon
  the child that was left running if it comes later. Where that one is decides which node has to do
  it: the inner node resets a later child of its own, the outer one a child after the inner node,
  or the inner node as a whole, which passes the reset on (`preempt_inner`, `resetChild_around`).
-/

import BehaviorTree.Proofs.Flattening.Ordered

namespace BehaviorTree

variable {κ ρ μ σ : Type} {n k l d i : Nat} {pass : Verdict}

/-! ## Abandoning later children -/

namespace Cell

variable {cell : Cell ρ σ} {children : List (Behaviour ρ μ σ)} {m : Machine ρ μ σ} {current : Nat}

/-- The child that was left running comes later. -/
theorem preempt_ahead (recorded : cell.get m.runs d = .child i) (later : current < i) :
    cell.preempt children d current m = cell.resetChild children d true m := by
  unfold preempt resetChild
  rw [Run.bind_ok (a := cell.take d) (m := m) rfl, Run.bind_ok (a := cell.take d) (m := m) rfl, recorded]
  dsimp only
  cases children[i]? <;> exact congrFun (if_pos later) _

/-- No child that was left running comes later. -/
theorem preempt_behind (behind : ∀ i, cell.get m.runs d = .child i → i ≤ current) :
    cell.preempt children d current m = .ok () (m.onRuns (cell.reset · d)) := by
  unfold preempt
  rw [Run.bind_ok (a := cell.take d) (m := m) rfl]
  cases recorded : cell.get m.runs d with
  | child i =>
    dsimp only
    rw [if_neg (Nat.not_lt.mpr (behind i recorded))]
    rfl
  | _ => rfl

/-- Remembers the child at `index` if it is to be remembered. -/
def noteChild (cell : Cell ρ σ) (depth index : Nat) (wanted : Bool) : Run ρ μ σ Unit :=
  if wanted then cell.keep depth (.child index) else pure ()

end Cell

namespace Behaviour

/-- What a node that looks at every child again does when the child at `index` has answered. -/
def reacted (cell : Cell ρ σ) (pass : Verdict) (children : List (Behaviour ρ μ σ)) (depth index : Nat)
    (next : Run ρ μ σ Status) (status : Status) : Run ρ μ σ Status := do
  if ← Run.returning then
    cell.preempt children depth index
    return status
  else if status = pass.status then next
  else
    cell.preempt children depth index
    if status.isRunning then cell.keep depth (.child index)
    return status

variable {cell : Cell ρ σ} {children : List (Behaviour ρ μ σ)} {next : Run ρ μ σ Status} {s : Status}
  {m : Machine ρ μ σ}

theorem reactiveFrom_cons (child : Behaviour ρ μ σ) (rest : List (Behaviour ρ μ σ)) :
    reactiveFrom cell pass children d i (child :: rest) =
      child.tick >>= reacted cell pass children d i (reactiveFrom cell pass children d (i + 1) rest) := rfl

theorem reacted_pass (calm : ¬ m.context.returnRequest.isSome = true) :
    reacted cell pass children d i next pass.status m = next m := by
  refine (Run.bind_ok (a := Run.returning) (m := m) rfl).trans ?_
  rw [if_neg calm, if_pos rfl]

/-- The tick ends at this child, which is remembered if it is running and no return is asked for. -/
theorem reacted_ends {asked : Bool} (known : m.context.returnRequest.isSome = asked)
    (ends : asked = true ∨ s ≠ pass.status) :
    reacted cell pass children d i next s m = (do
      cell.preempt children d i
      cell.noteChild d i (!asked && s.isRunning)
      return s : Run ρ μ σ Status) m := by
  refine (Run.bind_ok (a := Run.returning) (m := m) rfl).trans ?_
  cases asked with
  | true => rw [if_pos known]; rfl
  | false =>
    rw [if_neg (by simp [known]), if_neg (ends.resolve_left nofun)]
    cases s <;> rfl

end Behaviour

open Behaviour

/-! ## Records in the course of a tick -/

namespace Nested

variable {flat : DepthSlots (Slot σ)} {w : Nested σ} {c : Context σ}

/-- The records at the depth of the tick are these. Whether a return is asked for is known. -/
structure Standing (n k l d : Nat) (asked : Bool) (one two three : Slot σ) (c : Context σ)
    (flat : DepthSlots (Slot σ)) (w : Nested σ) : Prop where
  asked : c.returnRequest.isSome = asked
  elsewhere : Elsewhere n k l d flat w
  flat : flat.get d = one
  outer : w.outer.get d = two
  inner : w.inner.get d = three

/-- The inner node has ended. What else is remembered is the same child after it, or one that was passed. -/
structure Late (n k l d : Nat) (flat : DepthSlots (Slot σ)) (w : Nested σ) : Prop where
  elsewhere : Elsewhere n k l d flat w
  inner : w.inner.get d = .idle
  later : (∃ i < l, flat.get d = .child (n + k + i) ∧ w.outer.get d = .child (n + 1 + i)) ∨
    (∀ i, flat.get d = .child i → i < n + k) ∧ ∀ i, w.outer.get d = .child i → i ≤ n

/-- The inner node ends. -/
theorem Fitting.late (h : Fitting n k l flat w) : Late n k l d flat (w.setInner (w.inner.reset d)) where
  elsewhere := Elsewhere.setInner (fun e _ => h e) fun _ other => get_reset_ne other
  inner := get_reset_eq
  later := by
    have here := h d
    unfold Fits at here
    show (∃ i < l, flat.get d = _ ∧ w.outer.get d = _) ∨ (∀ i, flat.get d = _ → _) ∧ ∀ i, w.outer.get d = _ → _
    generalize flat.get d = one at here
    generalize w.outer.get d = two at here
    generalize w.inner.get d = three at here
    cases here with
    | idle => exact .inr ⟨nofun, nofun⟩
    | before place => exact .inr ⟨fun i same => by cases same; omega, fun i same => by cases same; omega⟩
    | inside place => exact .inr ⟨fun i same => by cases same; omega, fun i same => by cases same; omega⟩
    | @after i place => exact .inl ⟨i, place, rfl, rfl⟩

/-- What is remembered of a child that is perhaps to be remembered. -/
def mark (wanted : Bool) (i : Nat) : Slot σ := if wanted then .child i else .idle

variable {asked : Bool} {one two three x : Slot σ}

theorem Standing.fitting (h : Standing n k l d asked one two three c flat w) (place : Spread n k l one two three) :
    Fitting n k l flat w := h.elsewhere.everywhere (by rwa [Fits, h.flat, h.outer, h.inner])

theorem Fitting.standing (h : Fitting n k l flat w) :
    Standing n k l d c.returnRequest.isSome (flat.get d) (w.outer.get d) (w.inner.get d) c flat w :=
  ⟨rfl, fun e _ => h e, rfl, rfl, rfl⟩

namespace Standing

variable (h : Standing n k l d asked one two three c flat w)
include h

theorem flat_reset : Standing n k l d asked .idle two three c (flat.reset d) w :=
  { h with elsewhere := h.elsewhere.congr fun _ other => ⟨get_reset_ne other, rfl, rfl⟩, flat := get_reset_eq }

theorem flat_set : Standing n k l d asked x two three c (flat.set d x) w :=
  { h with elsewhere := h.elsewhere.congr fun _ other => ⟨get_set_ne other, rfl, rfl⟩, flat := get_set_eq }

theorem outer_reset : Standing n k l d asked one .idle three c flat (w.setOuter (w.outer.reset d)) :=
  { h with elsewhere := h.elsewhere.congr fun _ other => ⟨rfl, get_reset_ne other, rfl⟩, outer := get_reset_eq }

theorem outer_set : Standing n k l d asked one x three c flat (w.setOuter (w.outer.set d x)) :=
  { h with elsewhere := h.elsewhere.congr fun _ other => ⟨rfl, get_set_ne other, rfl⟩, outer := get_set_eq }

theorem inner_reset : Standing n k l d asked one two .idle c flat (w.setInner (w.inner.reset d)) :=
  { h with elsewhere := h.elsewhere.congr fun _ other => ⟨rfl, rfl, get_reset_ne other⟩, inner := get_reset_eq }

theorem inner_set : Standing n k l d asked one two x c flat (w.setInner (w.inner.set d x)) :=
  { h with elsewhere := h.elsewhere.congr fun _ other => ⟨rfl, rfl, get_set_ne other⟩, inner := get_set_eq }

end Standing

end Nested

namespace Matches

open Nested

variable {asked : Bool} {one two three : Slot σ} {xs ys zs bs : List (Behaviour ρ μ σ)} {s : Status} {fire : Bool}

section
variable {p q number : Nat} {child : Behaviour ρ μ σ} {all : List (Behaviour (Trial (DepthSlots (Slot σ)) ρ) μ σ)}
  {all' : List (Behaviour (Trial (Nested σ) ρ) μ σ)} (secluded : child.Secluded)
  (here : all[p]? = some (child.seat number)) (there : all'[q]? = some (child.seat number))
include secluded here there

/-- The flat node and the outer one reset the same child. -/
theorem resetChild_outer : Matches (Standing n k l d asked (.child p) (.child q) three)
    (Trial.slots.resetChild all d fire) (outerCell.resetChild all' d fire)
    fun _ => Standing n k l d asked .idle .idle three := by
  intro m w h
  rw [Cell.resetChild_apply, Cell.resetChild_apply, show Trial.slots.get m.runs d = .child p from h.flat,
    show outerCell.get (m.owning w).runs d = .child q from h.outer]
  simp only [here, there]
  exact seat_reset secluded number d fire (m.onRuns (Trial.slots.reset · d)) _ h.flat_reset.outer_reset

/-- The flat node and the inner one reset the same child. -/
theorem resetChild_inner : Matches (Standing n k l d asked (.child p) two (.child q))
    (Trial.slots.resetChild all d fire) (innerCell.resetChild all' d fire)
    fun _ => Standing n k l d asked .idle two .idle := by
  intro m w h
  rw [Cell.resetChild_apply, Cell.resetChild_apply, show Trial.slots.get m.runs d = .child p from h.flat,
    show innerCell.get (m.owning w).runs d = .child q from h.inner]
  simp only [here, there]
  exact seat_reset secluded number d fire (m.onRuns (Trial.slots.reset · d)) _ h.flat_reset.inner_reset

end

/-! ## The same child in both lists -/

section
variable (inner : List (Behaviour (Trial (Nested σ) ρ) μ σ) → Behaviour (Trial (Nested σ) ρ) μ σ)
variable (xs ys zs)

theorem seats_before (place : i < xs.length) :
    (seats (κ := DepthSlots (Slot σ)) (xs ++ ys ++ zs))[i]? = some (xs[i].seat i) ∧
      (seatsAround inner xs ys zs)[i]? = some (xs[i].seat i) := by
  refine ⟨?_, ?_⟩
  · rw [seats_parts, List.getElem?_append_left (by simpa using place), getElem?_seatsFrom,
      List.getElem?_eq_getElem place, Nat.zero_add]
    rfl
  · rw [seatsAround, List.getElem?_append_left (by simpa using place), getElem?_seatsFrom,
      List.getElem?_eq_getElem place, Nat.zero_add]
    rfl

theorem seats_inside {j : Nat} (place : j < ys.length) :
    (seats (κ := DepthSlots (Slot σ)) (xs ++ ys ++ zs))[xs.length + j]? = some (ys[j].seat (xs.length + j)) ∧
      (seatsFrom (κ := Nested σ) xs.length ys)[j]? = some (ys[j].seat (xs.length + j)) := by
  refine ⟨?_, ?_⟩
  · rw [seats_parts, List.getElem?_append_right (by simp), length_seatsFrom, Nat.add_sub_cancel_left,
      List.getElem?_append_left (by simpa using place), getElem?_seatsFrom, List.getElem?_eq_getElem place]
    rfl
  · rw [getElem?_seatsFrom, List.getElem?_eq_getElem place]
    rfl

theorem seats_after (place : i < zs.length) :
    (seats (κ := DepthSlots (Slot σ)) (xs ++ ys ++ zs))[xs.length + ys.length + i]? =
        some (zs[i].seat (xs.length + ys.length + i)) ∧
      (seatsAround inner xs ys zs)[xs.length + 1 + i]? = some (zs[i].seat (xs.length + ys.length + i)) := by
  refine ⟨?_, ?_⟩
  · rw [seats_parts, ← List.append_assoc, List.getElem?_append_right (by simp), List.length_append, length_seatsFrom,
      length_seatsFrom, Nat.add_sub_cancel_left, getElem?_seatsFrom, List.getElem?_eq_getElem place]
    rfl
  · rw [seatsAround, List.append_cons, List.getElem?_append_right (by simp), List.length_append, length_seatsFrom,
      List.length_singleton, Nat.add_sub_cancel_left, getElem?_seatsFrom, List.getElem?_eq_getElem place]
    rfl

theorem seatsAround_inner : (seatsAround inner xs ys zs)[xs.length]? = some (inner (seatsFrom xs.length ys)) := by
  rw [seatsAround, List.getElem?_append_right (by simp), length_seatsFrom, Nat.sub_self]
  rfl

end

section
variable {node : List (Behaviour (Trial (Nested σ) ρ) μ σ) → Behaviour (Trial (Nested σ) ρ) μ σ}
  (resets : ∀ bs d fire, (node bs).reset d fire = innerCell.resetChild bs d fire)
  (secluded : ∀ child ∈ xs ++ ys ++ zs, child.Secluded)
include resets secluded

/-- All nodes forget, and the child that was left running is reset, by the inner node if it is one of its own. -/
theorem resetChild_around (place : Spread xs.length ys.length zs.length one two three) :
    Matches (Standing xs.length ys.length zs.length d asked one two three)
      (Trial.slots.resetChild (seats (xs ++ ys ++ zs)) d fire)
      (outerCell.resetChild (seatsAround node xs ys zs) d fire)
      fun _ => Standing xs.length ys.length zs.length d asked .idle .idle .idle := by
  cases place with
  | idle =>
    intro m w h
    rw [Cell.resetChild_apply, Cell.resetChild_apply, show Trial.slots.get m.runs d = .idle from h.flat,
      show outerCell.get (m.owning w).runs d = .idle from h.outer]
    exact .ok (m := m.onRuns (Trial.slots.reset · d)) h.flat_reset.outer_reset
  | @before i place =>
    obtain ⟨here, there⟩ := seats_before xs ys zs node place
    exact resetChild_outer (secluded _ (by simp)) here there
  | @inside j place =>
    intro m w h
    obtain ⟨here, there⟩ := seats_inside (σ := σ) xs ys zs place
    have onwards : outerCell.resetChild (seatsAround node xs ys zs) d fire (m.owning w) =
        innerCell.resetChild (seatsFrom xs.length ys) d fire (m.owning (w.setOuter (w.outer.reset d))) := by
      rw [Cell.resetChild_apply, show outerCell.get (m.owning w).runs d = .child xs.length from h.outer]
      simp only [seatsAround_inner, resets]
      rfl
    rw [onwards]
    exact resetChild_inner (secluded _ (by simp)) here there m _ h.outer_reset
  | @after i place =>
    obtain ⟨here, there⟩ := seats_after xs ys zs node place
    exact resetChild_outer (secluded _ (by simp)) here there

end

/-! ## Ends of ticks -/

section
variable {p q : Nat}

/-- Nothing that was left running comes later, neither for the flat node nor for the outer one. -/
theorem preempt_behind {all : List (Behaviour (Trial (DepthSlots (Slot σ)) ρ) μ σ)}
    {all' : List (Behaviour (Trial (Nested σ) ρ) μ σ)} (flat : ∀ i, one = .child i → i ≤ p)
    (outer : ∀ i, two = .child i → i ≤ q) : Matches (Standing n k l d asked one two three)
      (Trial.slots.preempt all d p) (outerCell.preempt all' d q) fun _ => Standing n k l d asked .idle .idle three := by
  intro m w h
  rw [Cell.preempt_behind (m := m) fun i same => flat i (h.flat.symm.trans same),
    Cell.preempt_behind (m := m.owning w) fun i same => outer i (h.outer.symm.trans same)]
  exact .ok (m := m.onRuns (Trial.slots.reset · d)) h.flat_reset.outer_reset

/-- The same for the outer node alone. -/
theorem preempt_outer_behind {all' : List (Behaviour (Trial (Nested σ) ρ) μ σ)}
    (outer : ∀ i, two = .child i → i ≤ q) : Matches (Standing n k l d asked one two three) (Pure.pure ())
      (outerCell.preempt all' d q) fun x c own w => x = () ∧ Standing n k l d asked one .idle three c own w := by
  intro m w h
  rw [Cell.preempt_behind (m := m.owning w) fun i same => outer i (h.outer.symm.trans same)]
  exact .ok (m := m) ⟨rfl, h.outer_reset⟩

/-- The same for the inner node alone. -/
theorem preempt_inner_behind {all' : List (Behaviour (Trial (Nested σ) ρ) μ σ)}
    (inner : ∀ i, three = .child i → i ≤ q) : Matches (Standing n k l d asked one two three) (Pure.pure ())
      (innerCell.preempt all' d q) fun x c own w => x = () ∧ Standing n k l d asked one two .idle c own w := by
  intro m w h
  rw [Cell.preempt_behind (m := m.owning w) fun i same => inner i (h.inner.symm.trans same)]
  exact .ok (m := m) ⟨rfl, h.inner_reset⟩

/-- The inner node remembers its child, or nothing. -/
theorem note_inner (wanted : Bool) : Matches (ρ := ρ) (μ := μ) (Standing n k l d asked one two .idle) (Pure.pure ())
    (innerCell.noteChild d q wanted) fun x c own (w : Nested σ) =>
      x = () ∧ Standing n k l d asked one two (mark wanted q) c own w := by
  intro m w h
  cases wanted with
  | false => exact .ok (x := ()) (m := m) (w := w) ⟨rfl, h⟩
  | true => exact .ok (x := ()) (m := m) (w := w.setInner (w.inner.set d (.child q))) ⟨rfl, h.inner_set⟩

/-- The flat node and the outer one remember the child that the tick has come to, or nothing. -/
theorem closing (s : Status) (wanted : Bool) (noted : wanted = true → Spread n k l (.child p) (.child q) three)
    (not : wanted = false → three = .idle) : Matches (ρ := ρ) (μ := μ) (Standing n k l d asked .idle .idle three)
      (do Trial.slots.noteChild d p wanted; return s) (do outerCell.noteChild d q wanted; return s)
      fun _ _ => Fitting n k l := by
  intro m w h
  cases wanted with
  | false => exact .ok (x := s) (m := m) (w := w) (h.fitting (by rw [not rfl]; exact .idle))
  | true =>
    exact .ok (x := s) (m := m.onRuns (Trial.slots.set · d (.child p))) (w := w.setOuter (w.outer.set d (.child q)))
      (h.flat_set.outer_set.fitting (noted rfl))

end

section
variable {node : List (Behaviour (Trial (Nested σ) ρ) μ σ) → Behaviour (Trial (Nested σ) ρ) μ σ}
  {next : Run (Trial (Nested σ) ρ) μ σ Status} {j : Nat} (secluded : ∀ child ∈ xs ++ ys ++ zs, child.Secluded)
include secluded

/-- The flat node and the inner one abandon the same child, if it is not one after the inner node. -/
theorem preempt_inner (place : Spread xs.length ys.length zs.length one two three)
    (earlier : ∀ i, one = .child i → i < xs.length + ys.length) :
    Matches (Standing xs.length ys.length zs.length d asked one two three)
      (Trial.slots.preempt (seats (xs ++ ys ++ zs)) d (xs.length + j))
      (innerCell.preempt (seatsFrom xs.length ys) d j)
      fun _ => Standing xs.length ys.length zs.length d asked .idle two .idle := by
  intro m w h
  by_cases ahead : ∃ i, three = .child i ∧ j < i
  · obtain ⟨i, rfl, later⟩ := ahead
    cases place with
    | inside place =>
      obtain ⟨seat, seat'⟩ := seats_inside (σ := σ) xs ys zs place
      rw [Cell.preempt_ahead (m := m) h.flat (by omega), Cell.preempt_ahead (m := m.owning w) h.inner later]
      exact resetChild_inner (secluded _ (by simp)) seat seat' m w h
  · have behind : ∀ i, three = .child i → i ≤ j := fun i same =>
      Nat.not_lt.mp fun later => ahead ⟨i, same, later⟩
    have flat : ∀ i, one = .child i → i ≤ xs.length + j := by
      cases place with
      | idle => exact fun _ no => nomatch no
      | before place => exact fun i same => by cases same; omega
      | inside place => exact fun i same => by cases same; exact Nat.add_le_add_left (behind _ rfl) _
      | after place => exact fun i same => by have := earlier _ rfl; omega
    rw [Cell.preempt_behind (m := m) fun i same => flat i (h.flat.symm.trans same),
      Cell.preempt_behind (m := m.owning w) fun i same => behind i (h.inner.symm.trans same)]
    exact .ok (m := m.onRuns (Trial.slots.reset · d)) h.flat_reset.inner_reset

/-- The tick ends at a child of the inner node, and so it does in the outer node. -/
theorem preempt_inside (here : j < ys.length) (place : Spread xs.length ys.length zs.length one two three)
    (ends : asked = true ∨ s ≠ pass.status) :
    Matches (Standing xs.length ys.length zs.length d asked one two three)
      (do
        Trial.slots.preempt (seats (xs ++ ys ++ zs)) d (xs.length + j)
        Trial.slots.noteChild d (xs.length + j) (!asked && s.isRunning)
        return s)
      (do
        innerCell.preempt (seatsFrom xs.length ys) d j
        innerCell.noteChild d j (!asked && s.isRunning)
        reacted outerCell pass (seatsAround node xs ys zs) d xs.length next s)
      fun _ _ => Fitting xs.length ys.length zs.length := by
  have close : Matches (ρ := ρ) (μ := μ) (Standing xs.length ys.length zs.length d asked .idle .idle
        (mark (!asked && s.isRunning) j))
      (do Trial.slots.noteChild d (xs.length + j) (!asked && s.isRunning); return s)
      (do outerCell.noteChild d xs.length (!asked && s.isRunning); return s)
      fun _ _ => Fitting (σ := σ) xs.length ys.length zs.length :=
    closing s _ (fun wanted => by rw [wanted]; exact .inside here) fun not => by rw [not]; rfl
  by_cases later : ∃ i, one = .child i ∧ xs.length + ys.length ≤ i
  · obtain ⟨_, rfl, later⟩ := later
    cases place with
    | before place => omega
    | inside place => omega
    | @after i place =>
      obtain ⟨seat, seat'⟩ := seats_after xs ys zs node place
      refine right_first (preempt_inner_behind fun _ no => nomatch no) (right_first (note_inner _) ?_)
      refine congr_right (fun m w h => reacted_ends (m := m.owning w) h.asked ends) (.bind (fun m w h => ?_) fun _ =>
        close)
      rw [Cell.preempt_ahead (m := m) h.flat (by omega), Cell.preempt_ahead (m := m.owning w) h.outer (by omega)]
      exact resetChild_outer (secluded _ (by simp)) seat seat' m w h
  · have earlier : ∀ i, one = .child i → i < xs.length + ys.length := fun i same =>
      Nat.not_le.mp fun le => later ⟨i, same, le⟩
    have outer : ∀ i, two = .child i → i ≤ xs.length := by
      cases place with
      | idle => exact fun _ no => nomatch no
      | before place => exact fun i same => by cases same; exact Nat.le_of_lt place
      | inside place => exact fun i same => by cases same; exact Nat.le_refl _
      | after place => exact fun i same => by have := earlier _ rfl; omega
    refine (preempt_inner secluded place earlier).bind fun _ => right_first (note_inner _) ?_
    exact congr_right (fun m w h => reacted_ends (m := m.owning w) h.asked ends)
      (right_first (preempt_outer_behind outer) close)

end

/-! ## Walking through the children -/

section
variable {node : List (Behaviour (Trial (Nested σ) ρ) μ σ) → Behaviour (Trial (Nested σ) ρ) μ σ}
  (resets : ∀ bs d fire, (node bs).reset d fire = innerCell.resetChild bs d fire)
  (secluded : ∀ child ∈ xs ++ ys ++ zs, child.Secluded)
include resets secluded

/-- The same child comes later for the flat node and for the outer one. -/
theorem preempt_ahead {p q i j : Nat} (place : Spread xs.length ys.length zs.length one two three)
    (flat : one = .child i) (outer : two = .child j) (later : p < i) (later' : q < j) :
    Matches (Standing xs.length ys.length zs.length d asked one two three)
      (Trial.slots.preempt (seats (xs ++ ys ++ zs)) d p) (outerCell.preempt (seatsAround node xs ys zs) d q)
      fun _ => Standing xs.length ys.length zs.length d asked .idle .idle .idle := by
  intro m w h
  rw [Cell.preempt_ahead (m := m) (h.flat.trans flat) later,
    Cell.preempt_ahead (m := m.owning w) (h.outer.trans outer) later']
  exact resetChild_around resets secluded place m w h

/-- The tick ends at a child before the inner node. -/
theorem preempt_earlier (here : i < xs.length) (place : Spread xs.length ys.length zs.length one two three) :
    Matches (Standing xs.length ys.length zs.length d asked one two three)
      (Trial.slots.preempt (seats (xs ++ ys ++ zs)) d i) (outerCell.preempt (seatsAround node xs ys zs) d i)
      fun _ => Standing xs.length ys.length zs.length d asked .idle .idle .idle := by
  cases place with
  | idle => exact preempt_behind nofun nofun
  | @before j place =>
    by_cases later : i < j
    · exact preempt_ahead resets secluded (.before place) rfl rfl later later
    · exact preempt_behind (fun _ same => by cases same; omega) fun _ same => by cases same; omega
  | @inside j place => exact preempt_ahead resets secluded (.inside place) rfl rfl (by omega) here
  | @after j place => exact preempt_ahead resets secluded (.after place) rfl rfl (by omega) (by omega)

/-- The tick ends at a child after the inner node. -/
theorem preempt_later : Matches
      (fun c x w => (c.depth = d ∧ Late xs.length ys.length zs.length d x w) ∧ c.returnRequest.isSome = asked)
      (Trial.slots.preempt (seats (xs ++ ys ++ zs)) d (xs.length + ys.length + i))
      (outerCell.preempt (seatsAround node xs ys zs) d (xs.length + 1 + i))
      fun _ => Standing xs.length ys.length zs.length d asked .idle .idle .idle := by
  rintro m w ⟨⟨-, late⟩, known⟩
  have standing : Standing xs.length ys.length zs.length d asked (m.runs.own.get d) (w.outer.get d) .idle m.context
      m.runs.own w := ⟨known, late.elsewhere, rfl, rfl, late.inner⟩
  obtain ⟨j, place, flat, outer⟩ | ⟨flat, outer⟩ := late.later
  · by_cases later : i < j
    · refine preempt_ahead resets secluded ?_ flat outer (by omega) (by omega) m w standing
      rw [flat, outer]
      exact .after place
    · refine preempt_behind (fun e same => ?_) (fun e same => ?_) m w standing
      · cases flat.symm.trans same
        omega
      · cases outer.symm.trans same
        omega
  · exact preempt_behind (fun e same => by have := flat e same; omega) (fun e same => by have := outer e same; omega) m w
      standing

end

section
variable {all : List (Behaviour (Trial (DepthSlots (Slot σ)) ρ) μ σ)} {all' : List (Behaviour (Trial (Nested σ) ρ) μ σ)}
  {state : DepthSlots (Slot σ) → Nested σ → Prop}

/-- Through children that are not in the inner node, and on from there. Wherever the tick may end the flat node and
the outer one abandon the same child. -/
theorem reactive_walk {p q : Nat} (secluded : ∀ b ∈ bs, b.Secluded)
    (places : ∀ i < bs.length, Spread n k l (.child (p + i) : Slot σ) (.child (q + i)) .idle)
    (preempts : ∀ asked, ∀ i < bs.length, Matches
      (fun c x w => (c.depth = d ∧ state x w) ∧ c.returnRequest.isSome = asked) (Trial.slots.preempt all d (p + i))
      (outerCell.preempt all' d (q + i)) fun _ => Standing n k l d asked .idle .idle .idle)
    {more : List (Behaviour (Trial (DepthSlots (Slot σ)) ρ) μ σ)} {more' : List (Behaviour (Trial (Nested σ) ρ) μ σ)}
    (rest : Matches (fun c x w => c.depth = d ∧ state x w)
      (reactiveFrom Trial.slots pass all d (p + bs.length) more)
      (reactiveFrom outerCell pass all' d (q + bs.length) more') fun _ _ => Fitting n k l) :
    Matches (fun c x w => c.depth = d ∧ state x w)
      (reactiveFrom Trial.slots pass all d p (seatsFrom p bs ++ more))
      (reactiveFrom outerCell pass all' d q (seatsFrom p bs ++ more')) fun _ _ => Fitting n k l := by
  induction bs generalizing p q with
  | nil => simpa using rest
  | cons b bs ih =>
    rw [seatsFrom_cons, seatsFrom_cons, List.cons_append, List.cons_append, reactiveFrom_cons, reactiveFrom_cons]
    have after : ∀ p i, p + (i + 1) = p + 1 + i := fun p i => by omega
    have onwards := ih (p := p + 1) (q := q + 1) (fun b hb => secluded b (List.mem_cons_of_mem _ hb))
      (fun i hi => by rw [← after, ← after]; exact places (i + 1) (Nat.succ_lt_succ hi))
      (fun asked i hi => by rw [← after, ← after]; exact preempts asked (i + 1) (Nat.succ_lt_succ hi))
      (by rw [← after, ← after]; exact rest)
    refine (seat_tick (secluded b (List.mem_cons_self ..)) p).bind fun s m w h => ?_
    by_cases ends : m.context.returnRequest.isSome = true ∨ s ≠ pass.status
    · rw [reacted_ends rfl ends, reacted_ends (m := m.owning w) rfl ends]
      exact ((preempts _ 0 (Nat.succ_pos _)).bind fun _ =>
        closing s _ (fun _ => places 0 (Nat.succ_pos _)) fun _ => rfl) m w ⟨h, rfl⟩
    · obtain ⟨calm, passed⟩ := not_or.mp ends
      cases not_not.mp passed
      rw [reacted_pass calm, reacted_pass (m := m.owning w) calm]
      exact onwards m w h

end

section
variable {node : List (Behaviour (Trial (Nested σ) ρ) μ σ) → Behaviour (Trial (Nested σ) ρ) μ σ}
  (secluded : ∀ child ∈ xs ++ ys ++ zs, child.Secluded)
include secluded

/-- Through the children of the inner node, whose answer the outer node takes, and on from there. -/
theorem reactive_inside {j : Nat} (split : ys.drop j = bs) (nonempty : bs ≠ [])
    {more : List (Behaviour (Trial (DepthSlots (Slot σ)) ρ) μ σ)} {next : Run (Trial (Nested σ) ρ) μ σ Status}
    (rest : Matches (fun c x w => c.depth = d ∧ Late xs.length ys.length zs.length d x w)
      (reactiveFrom Trial.slots pass (seats (xs ++ ys ++ zs)) d (xs.length + ys.length) more) next
      fun _ _ => Fitting xs.length ys.length zs.length) :
    Matches (fun c x w => c.depth = d ∧ Fitting xs.length ys.length zs.length x w)
      (reactiveFrom Trial.slots pass (seats (xs ++ ys ++ zs)) d (xs.length + j) (seatsFrom (xs.length + j) bs ++ more))
      (reactiveFrom innerCell pass (seatsFrom xs.length ys) d j (seatsFrom (xs.length + j) bs) >>=
        reacted outerCell pass (seatsAround node xs ys zs) d xs.length next)
      fun _ _ => Fitting xs.length ys.length zs.length := by
  induction bs generalizing j with
  | nil => exact absurd rfl nonempty
  | cons b bs ih =>
    have here : j < ys.length := by
      have count := congrArg List.length split
      simp only [List.length_drop, List.length_cons] at count
      omega
    have among : b ∈ ys := List.mem_of_mem_drop (split ▸ List.mem_cons_self ..)
    simp only [seatsFrom_cons, List.cons_append, reactiveFrom_cons, bind_assoc]
    refine (seat_tick (secluded b (List.mem_append_left _ (List.mem_append_right _ among)))
      (xs.length + j)).bind fun s m w h => ?_
    by_cases ends : m.context.returnRequest.isSome = true ∨ s ≠ pass.status
    · rw [reacted_ends rfl ends, Run.bind_congr (reacted_ends (m := m.owning w) rfl ends)]
      simp only [bind_assoc, pure_bind]
      exact preempt_inside secluded here (h.2 d) ends m w h.2.standing
    · obtain ⟨calm, passed⟩ := not_or.mp ends
      cases not_not.mp passed
      rw [reacted_pass calm, Run.bind_congr (reacted_pass (m := m.owning w) calm)]
      have onwards : ys.drop (j + 1) = bs := by rw [← List.drop_drop, split, List.drop_one, List.tail_cons]
      cases bs with
      | nil =>
        have last : j + 1 = ys.length := by
          have count := congrArg List.length onwards
          simp only [List.length_drop, List.length_nil] at count
          omega
        have inner : reactiveFrom innerCell pass (seatsFrom xs.length ys) d (j + 1) (seatsFrom (xs.length + j + 1) [])
            (m.owning w) = .ok pass.status (m.owning (w.setInner (w.inner.reset d))) := rfl
        rw [Run.bind_ok inner, reacted_pass (m := m.owning (w.setInner _)) calm, Nat.add_assoc, last]
        exact rest m _ ⟨h.1, h.2.late⟩
      | cons b' bs => exact ih onwards (by simp) m w h

end

/-! ## Ticks and resets -/

theorem reactive_tick (secluded : ∀ child ∈ xs ++ ys ++ zs, child.Secluded) (nonempty : ys ≠ []) :
    Matches (fun c x w => c.depth = d ∧ Fitting xs.length ys.length zs.length x w)
      (reactive Trial.slots pass (seats (xs ++ ys ++ zs))).tick
      (reactive outerCell pass (seatsAround (reactive innerCell pass) xs ys zs)).tick
      fun _ _ => Fitting xs.length ys.length zs.length := by
  refine .depth (fun _ _ _ h => h.1) ?_
  have resets : ∀ bs d fire, (reactive (μ := μ) (ρ := Trial (Nested σ) ρ) innerCell pass bs).reset d fire =
      innerCell.resetChild bs d fire := fun _ _ _ => rfl
  have later : Matches (fun c x w => c.depth = d ∧ Late xs.length ys.length zs.length d x w)
      (reactiveFrom Trial.slots pass (seats (xs ++ ys ++ zs)) d (xs.length + ys.length)
        (seatsFrom (xs.length + ys.length) zs))
      (reactiveFrom outerCell pass (seatsAround (reactive innerCell pass) xs ys zs) d (xs.length + 1)
        (seatsFrom (xs.length + ys.length) zs))
      fun _ _ => Fitting xs.length ys.length zs.length := by
    rw [← List.append_nil (seatsFrom _ zs), ← List.append_nil (seatsFrom (κ := Nested σ) _ zs)]
    exact reactive_walk (fun b hb => secluded b (List.mem_append_right _ hb)) (fun i hi => .after hi)
      (fun asked i _ => preempt_later resets secluded)
      ((ending pass.status).weaken (fun _ _ _ h => ⟨h.1, h.2.elsewhere, h.2.inner⟩) fun _ _ _ _ h => h)
  have earlier : Matches (fun c x w => c.depth = d ∧ Fitting xs.length ys.length zs.length x w)
      (reactiveFrom Trial.slots pass (seats (xs ++ ys ++ zs)) d 0
        (seatsFrom 0 xs ++ (seatsFrom xs.length ys ++ seatsFrom (xs.length + ys.length) zs)))
      (reactiveFrom outerCell pass (seatsAround (reactive innerCell pass) xs ys zs) d 0
        (seatsAround (reactive innerCell pass) xs ys zs))
      fun _ _ => Fitting xs.length ys.length zs.length := by
    refine reactive_walk (fun b hb => secluded b (List.mem_append_left _ (List.mem_append_left _ hb)))
      (fun i hi => by simpa using .before hi) (fun asked i hi m w h => ?_) fun m w h => ?_
    · have standing := h.1.2.standing (d := d) (c := m.context)
      rw [h.2] at standing
      rw [Nat.zero_add]
      exact preempt_earlier resets secluded hi (h.1.2 d) m w standing
    · have starts : (reactive innerCell pass (seatsFrom xs.length ys)).tick (m.owning w) =
          reactiveFrom innerCell pass (seatsFrom xs.length ys) d 0 (seatsFrom xs.length ys) (m.owning w) := by
        show reactiveFrom innerCell pass _ m.context.depth 0 _ (m.owning w) = _
        rw [h.1]
      rw [Nat.zero_add, reactiveFrom_cons, Run.bind_congr starts]
      exact reactive_inside (j := 0) secluded List.drop_zero nonempty later m w ⟨h.1, h.2⟩
  rwa [← seats_parts] at earlier

end Matches

end BehaviorTree
