/-
  BehaviorTree.Proofs.Rounds.Reactive: children that are looked at again on each tick, round by round.

  What the node remembers is the child that its last tick left running (`Notes`). A tick goes along
  the children from the first on and then preempts that child, if it was not reached (`Rechecks`).
  So a child that was not ended by its last tick is the one that is remembered, as long as no child
  asks to return while it is running.
-/

import BehaviorTree.Proofs.Flattening.Reactive
import BehaviorTree.Proofs.Rounds.Ordered

namespace BehaviorTree

variable {ρ μ σ : Type}

/-! ## Children that are left running -/

/-- Children ask to return only when they end. -/
def Mannerly (rounds : List Round) : Prop :=
  ∀ round ∈ rounds, ∀ v ∈ visitsOf round.dealings, v.asked = true → v.status.isTerminal = true

instance (rounds : List Round) : Decidable (Mannerly rounds) :=
  inferInstanceAs (Decidable (∀ round ∈ rounds, ∀ v ∈ visitsOf round.dealings,
    v.asked = true → v.status.isTerminal = true))

/-- The children that answered running in the last round. -/
def leftBy (rounds : List Round) : List Nat :=
  match rounds.getLast? with
  | some (.tick dealings _) => ((visitsOf dealings).filter (·.status = .running)).map (·.child)
  | _ => []

/-- The child that a dealing is about. -/
def Dealing.child : Dealing → Nat
  | ticked visit => visit.child
  | reset child _ _ | failed child => child

/-- What the node had to do last with this child. -/
def lastDealing (child : Nat) (dealings : List Dealing) : Option Dealing :=
  (dealings.filter (·.child = child)).getLast?

/-- The run of the child has begun and is not over: it was ticked last, and answered running. -/
def MidRun (child : Nat) (rounds : List Round) : Prop :=
  ∃ asked, lastDealing child (rounds.flatMap (·.dealings)) = some (.ticked ⟨child, .running, asked⟩)

section
variable {rounds : List Round} {round : Round} {child n d : Nat} {visits : List Visit} {resets : List Nat}

theorem Mannerly.before (h : Mannerly (rounds ++ [round])) : Mannerly rounds :=
  fun earlier among => h earlier (List.mem_append_left _ among)

theorem Mannerly.last (h : Mannerly (rounds ++ [round])) :
    ∀ v ∈ visitsOf round.dealings, v.asked = true → v.status.isTerminal = true :=
  h round (by simp)

/-- If the node had to do with the child in the last round, this tells what the child is at. -/
theorem midRun_snoc (h : MidRun child (rounds ++ [round])) :
    (∃ asked, lastDealing child round.dealings = some (.ticked ⟨child, .running, asked⟩)) ∨
      lastDealing child round.dealings = none ∧ MidRun child rounds := by
  obtain ⟨asked, last⟩ := h
  rw [List.flatMap_append, List.flatMap_singleton, lastDealing, List.filter_append, List.getLast?_append] at last
  cases here : lastDealing child round.dealings with
  | some dealing =>
    rw [lastDealing] at here
    rw [here] at last
    exact .inl ⟨asked, last⟩
  | none =>
    rw [lastDealing] at here
    rw [here] at last
    exact .inr ⟨rfl, asked, last⟩

theorem lastDealing_none {dealings : List Dealing} :
    lastDealing child dealings = none ↔ ∀ dealing ∈ dealings, dealing.child ≠ child := by
  simp [lastDealing]

/-- A child that was ticked last is not among those that were reset after all visits. -/
theorem lastDealing_ticked {v : Visit} {fire : Bool}
    (h : lastDealing child (visits.map .ticked ++ resetsOf d fire resets) = some (.ticked v)) :
    v ∈ visits ∧ v.child = child ∧ child ∉ resets := by
  rw [lastDealing, List.filter_append, List.getLast?_append] at h
  cases later : ((resetsOf d fire resets).filter (·.child = child)).getLast? with
  | some dealing =>
    rw [later] at h
    cases h
    have among := List.mem_of_getLast? later
    simp [resetsOf] at among
  | none =>
    rw [later] at h
    have among := List.mem_of_getLast? h
    rw [List.getLast?_eq_none_iff, List.filter_eq_nil_iff] at later
    refine ⟨by simpa using (List.mem_filter.mp among).1, of_decide_eq_true (List.mem_filter.mp among).2, ?_⟩
    intro reset
    exact later (.reset child d fire) (List.mem_map_of_mem reset) (by simp [Dealing.child])

end

/-! ## Preempting -/

/-- The visits of a tick. A child that was left running before is reset after them if it comes later. -/
def preempting (d : Nat) (left : List Nat) (visits : List Visit) : List Dealing :=
  visits.map .ticked ++ resetsOf d true (left.filter fun p => visits.all (·.child < p))

theorem visitsOf_preempting {d : Nat} {left : List Nat} {visits : List Visit} :
    visitsOf (preempting d left visits) = visits := by
  simp [preempting]

namespace Slot

/-- The children that are remembered, one at most. -/
def remembered (slot : Slot σ) : List Nat := slot.child?.toList

end Slot

namespace Behaviour

section
variable {cell : Cell ρ σ} {d : Nat} {slot : Slot σ} {dealings : List Dealing} {m : Machine (Ledger ρ) μ σ}
  {children : List (Behaviour ρ μ σ)} (holds : cell.Holds d) (apart : ∀ child ∈ children, child.Apart cell d)
include holds apart

/-- The child that is remembered is reset if it comes later than the current one. -/
theorem preempt_settles (current : Nat) (place : slot = .idle ∨ ∃ p < children.length, slot = .child p)
    (h : Booked cell d slot dealings m) :
    Settles (fun _ k => Booked cell d .idle (dealings ++ resetsOf d true (slot.remembered.filter (current < ·))) k)
      (cell.booked.preempt (bookedAll children) d current m) := by
  have here : cell.booked.get m.runs d = slot := h.slot
  rcases place with rfl | ⟨p, below, rfl⟩
  · rw [Cell.preempt_behind fun i recorded => nomatch here.symm.trans recorded]
    exact .ok (by simpa [Slot.remembered, Slot.child?, resetsOf] using h.reset holds)
  · by_cases later : current < p
    · rw [Cell.preempt_ahead here later]
      simpa [Slot.remembered, Slot.child?, resetsOf, later] using resetChild_settles holds apart below h
    · have behind : ∀ i, cell.booked.get m.runs d = .child i → i ≤ current := by
        intro i recorded
        cases here.symm.trans recorded
        exact Nat.not_lt.mp later
      rw [Cell.preempt_behind behind]
      exact .ok (by simpa [Slot.remembered, Slot.child?, resetsOf, later] using h.reset holds)

/-- The children in `rest` are still to come. -/
theorem reactiveFrom_settles (pass : Verdict) {visits : List Visit}
    (place : slot = .idle ∨ ∃ p < children.length, slot = .child p) (first : Nat) (rest : List (Behaviour ρ μ σ))
    (apart' : ∀ child ∈ rest, child.Apart cell d) (behind : ∀ v ∈ visits, v.child < first)
    (h : Midway cell d slot visits m) :
    Settles (fun answer k => Passed (Visit.Stops (· ≠ pass.status))
        (fun visits status => answer = status ∧ Booked cell d (resumed visits) (preempting d slot.remembered visits) k)
        (fun visits => answer = pass.status ∧ Booked cell d .idle (visits.map .ticked) k)
        visits (List.range' first rest.length))
      (reactiveFrom cell.booked pass (bookedAll children) d first (bookedFrom first rest) m) := by
  induction rest generalizing first visits m with
  | nil => exact .ok (.done ⟨rfl, h.toBooked.reset holds⟩)
  | cons child rest ih =>
    rw [List.length_cons, List.range'_succ, bookedFrom, reactiveFrom_cons]
    refine (h.ticks (apart' child List.mem_cons_self) first).bind fun status n came => ?_
    obtain ⟨v, rfl, rfl, returns, came⟩ := came
    by_cases stops : v.Stops (· ≠ pass.status)
    · rw [reacted_ends returns (by simpa [Visit.Stops] using stops)]
      refine (preempt_settles holds apart v.child place came.toBooked).bind fun _ k preempted => ?_
      have later : (slot.remembered.filter (v.child < ·)) =
          slot.remembered.filter fun p => (visits ++ [v]).all (·.child < p) := by
        refine List.filter_congr fun p _ => ?_
        rw [Bool.eq_iff_iff, List.all_append]
        simpa using fun ahead w among => Nat.lt_trans (behind w among) ahead
      rw [later] at preempted
      have wanted : (!v.asked && v.status.isRunning) = !(v.asked || v.status.isTerminal) := by
        simp [Status.isTerminal]
      rw [wanted]
      by_cases ends : (v.asked || v.status.isTerminal) = true
      · rw [ends]
        refine .ok (.ended stops ⟨rfl, ?_⟩)
        rw [resumed_snoc, if_pos ends]
        exact preempted
      · rw [Bool.not_eq_true] at ends
        rw [ends]
        refine .ok (.ended stops ⟨rfl, ?_⟩)
        rw [resumed_snoc, ends]
        exact preempted.set holds
    · obtain ⟨calm, passed⟩ := Visit.not_stops.mp stops
      rw [passed, reacted_pass (by simp [returns, calm])]
      refine (ih (v.child + 1) (fun c among => apart' c (List.mem_cons_of_mem _ among)) ?_ came).mono
        fun answer k later => .on stops later
      intro w among
      rcases List.mem_append.mp among with among | same
      · exact Nat.lt_succ_of_lt (behind w among)
      · rw [List.mem_singleton.mp same]
        exact Nat.lt_succ_self _

end

end Behaviour

/-! ## One pass -/

section
variable {pass : Verdict} {n : Nat} {visits : List Visit} {stopped : Option Status}

/-- A child on the way of the pass was visited if one at its place or later was. -/
theorem Pass.reached {ends : Visit → Prop} (h : Pass ends (List.range n) visits stopped) {p : Nat} {v : Visit}
    (among : v ∈ visits) (before : p ≤ v.child) : ∃ w ∈ visits, w.child = p := by
  have order := List.prefix_iff_eq_take.mp h.order
  rw [List.take_range] at order
  have listed : v.child ∈ visits.map (·.child) := List.mem_map_of_mem among
  rw [order, List.mem_range] at listed
  have reached : p ∈ visits.map (·.child) := by
    rw [order, List.mem_range]
    omega
  obtain ⟨w, among, here⟩ := List.mem_map.mp reached
  exact ⟨w, among, here⟩

/-- A child that is running has not asked to return. -/
theorem calm_of_running {v : Visit} (mannerly : v.asked = true → v.status.isTerminal = true)
    (running : v.status = .running) : v.asked = false := by
  simpa [running, Status.isTerminal, Status.isRunning] using mannerly

theorem resumed_remembered (front : List Visit) {v : Visit} (earlier : ∀ w ∈ front, w.status ≠ .running)
    (mannerly : v.asked = true → v.status.isTerminal = true) :
    (resumed (front ++ [v]) : Slot σ).remembered = ((front ++ [v]).filter (·.status = .running)).map (·.child) := by
  have none : front.filter (·.status = .running) = [] := by
    simpa [List.filter_eq_nil_iff] using earlier
  rw [resumed_snoc, List.filter_append, none, List.nil_append]
  by_cases running : v.status = .running
  · have calm := calm_of_running mannerly running
    simp [calm, running, Status.isTerminal, Status.isRunning, Slot.remembered, Slot.child?]
  · simp [running, Status.isTerminal_iff.mpr running, Slot.remembered, Slot.child?]

/-- After a pass, the child that answered running is remembered. -/
theorem Pass.remembered (h : Pass (Visit.Stops (· ≠ pass.status)) (List.range n) visits stopped)
    (mannerly : ∀ v ∈ visits, v.asked = true → v.status.isTerminal = true) :
    (resumed visits : Slot σ).remembered = (visits.filter (·.status = .running)).map (·.child) := by
  obtain rfl | ⟨front, v, rfl⟩ := List.eq_nil_or_concat visits
  · rfl
  · rw [List.concat_eq_append] at h mannerly ⊢
    refine resumed_remembered front (fun w among => ?_) (mannerly v (by simp))
    rw [(Visit.not_stops.mp (h.before.1 w among)).2]
    exact pass.status_ne_running

/-- And it is the last one. -/
theorem Pass.running (h : Pass (Visit.Stops (· ≠ pass.status)) (List.range n) visits stopped)
    (mannerly : ∀ v ∈ visits, v.asked = true → v.status.isTerminal = true) {v : Visit} (among : v ∈ visits)
    (running : v.status = .running) : stopped = some .running ∧ resumed visits = (.child v.child : Slot σ) := by
  have calm := calm_of_running (mannerly v among) running
  obtain rfl | ⟨front, w, rfl⟩ := List.eq_nil_or_concat visits
  · cases among
  · rw [List.concat_eq_append] at h among ⊢
    obtain ⟨earlier, here⟩ := h.before
    have stops : v.Stops (· ≠ pass.status) := .inr (by simpa [running] using pass.status_ne_running.symm)
    rcases List.mem_append.mp among with among | same
    · exact absurd stops (earlier v among)
    · obtain rfl := List.mem_singleton.mp same
      obtain ⟨-, goes⟩ | ⟨rfl, -⟩ := here
      · exact absurd stops goes
      · rw [resumed_snoc, running, calm]
        exact ⟨rfl, rfl⟩

/-- Where all children have passed, none is remembered. -/
theorem Pass.resumed_none (h : Pass (Visit.Stops (· ≠ pass.status)) (List.range n) visits none) :
    resumed visits = (.idle : Slot σ) := by
  obtain rfl | ⟨front, v, rfl⟩ := List.eq_nil_or_concat visits
  · rfl
  · rw [List.concat_eq_append] at h ⊢
    have passed := Visit.not_stops.mp (h.complete.2 v (by simp))
    simp [resumed_snoc, passed.2]

theorem resumed_child {child : Nat} (h : resumed visits = (.child child : Slot σ)) :
    ∃ front, ∃ v : Visit, visits = front ++ [v] ∧ v.child = child ∧ v.status = .running := by
  obtain rfl | ⟨front, v, rfl⟩ := List.eq_nil_or_concat visits
  · cases h
  · rw [List.concat_eq_append, resumed_snoc] at h
    split at h
    · cases h
    · next goes =>
      cases h
      obtain ⟨-, running⟩ : v.asked = false ∧ v.status = .running := by simpa [Status.isTerminal_iff] using goes
      exact ⟨front, v, List.concat_eq_append, rfl, running⟩

theorem resumed_place (within : ∀ v ∈ visits, v.child < n) :
    (resumed visits : Slot σ) = .idle ∨ ∃ p < n, (resumed visits : Slot σ) = .child p := by
  obtain rfl | ⟨front, v, rfl⟩ := List.eq_nil_or_concat visits
  · exact .inl rfl
  · rw [List.concat_eq_append, resumed_snoc]
    split
    · exact .inl rfl
    · exact .inr ⟨v.child, within v (by simp), rfl⟩

end

/-! ## The law of a node that looks at its children again -/

/-- What the node remembers: the child that was left running. -/
structure Notes (n : Nat) (rounds : List Round) (slot : Slot σ) : Prop where
  place : slot = .idle ∨ ∃ p < n, slot = .child p
  left : Mannerly rounds → slot.remembered = leftBy rounds
  midRun : Mannerly rounds → ∀ child, MidRun child rounds → slot = .child child

/-- A tick goes along the children from the first on, up to one that does not pass or asks to return. The child that the
last tick left running is reset then if it comes later. A reset resets that child in any case. -/
def Rechecks (pass : Verdict) (n d : Nat) (rounds : List Round) : Round → Prop
  | .tick dealings answer => ∃ visits stopped,
      Pass (Visit.Stops (· ≠ pass.status)) (List.range n) visits stopped ∧ answer = stopped.getD pass.status ∧
      dealings = preempting d (leftBy rounds) visits
  | .reset fire dealings => dealings = resetsOf d fire (leftBy rounds)

/-- After such a round, one child at most is in a run, and only if the round was a tick that answered running. -/
structure Rechecked (pass : Verdict) (n d : Nat) (rounds : List Round) (round : Round) : Prop where
  rechecks : Rechecks pass n d rounds round
  one : ∀ child other, MidRun child (rounds ++ [round]) → MidRun other (rounds ++ [round]) → child = other
  running : ∀ child, MidRun child (rounds ++ [round]) → ∃ dealings, round = .tick dealings .running

section
variable {pass : Verdict} {n d : Nat} {rounds : List Round} {slot : Slot σ} {visits : List Visit}
  {stopped : Option Status} {answer : Status} {fire : Bool}

theorem Notes.tick (h : Notes n rounds slot)
    (pass' : Pass (Visit.Stops (· ≠ pass.status)) (List.range n) visits stopped) :
    Notes n (rounds ++ [Round.tick (preempting d slot.remembered visits) answer]) (resumed visits : Slot σ) where
  place := resumed_place fun _ among => List.mem_range.mp (pass'.order.subset (List.mem_map_of_mem among))
  left mannerly := by
    have manners := mannerly.last
    rw [Round.dealings, visitsOf_preempting] at manners
    rw [pass'.remembered manners]
    simp [leftBy, visitsOf_preempting]
  midRun mannerly child midRun := by
    have manners := mannerly.last
    rw [Round.dealings, visitsOf_preempting] at manners
    rcases midRun_snoc midRun with ⟨asked, last⟩ | ⟨none, before⟩
    · obtain ⟨among, -, -⟩ := lastDealing_ticked last
      exact (pass'.running manners among rfl).2
    · -- the node had nothing to do with the child that it remembered, which cannot be
      have strange := lastDealing_none.mp none
      have kept : slot = .child child := h.midRun mannerly.before child before
      obtain ⟨below, same⟩ : child < n ∧ slot.remembered = [child] := by
        rcases h.place with idle | ⟨p, below, here⟩
        · cases kept.symm.trans idle
        · cases kept.symm.trans here
          exact ⟨below, by rw [kept]; rfl⟩
      by_cases ahead : visits.all (·.child < child) = true
      · refine absurd rfl (strange (.reset child d true) (List.mem_append_right _ (List.mem_map_of_mem ?_)))
        simp only [same, List.mem_filter, List.mem_singleton, true_and]
        exact ahead
      · obtain ⟨w, among, later⟩ : ∃ w ∈ visits, child ≤ w.child := by simpa using ahead
        obtain ⟨v, among, here⟩ := pass'.reached among later
        exact absurd here (strange (.ticked v) (List.mem_append_left _ (List.mem_map_of_mem among)))

theorem Notes.reset (h : Notes n rounds slot) :
    Notes n (rounds ++ [Round.reset fire (resetsOf d fire slot.remembered)]) (.idle : Slot σ) where
  place := .inl rfl
  left _ := by simp [leftBy, Slot.remembered, Slot.child?]
  midRun mannerly child midRun := by
    rcases midRun_snoc midRun with ⟨asked, last⟩ | ⟨none, before⟩
    · have last : lastDealing child (([] : List Visit).map .ticked ++ resetsOf d fire slot.remembered) =
          some (.ticked ⟨child, .running, asked⟩) := last
      cases (lastDealing_ticked last).1
    · have kept := h.midRun mannerly.before child before
      have strange := lastDealing_none.mp none
      refine absurd rfl (strange (.reset child d fire) (List.mem_map_of_mem ?_))
      simp [kept, Slot.remembered, Slot.child?]

/-- A tick that reaches all children preempts none. -/
theorem Notes.reached_all (h : Notes n rounds slot) (d : Nat)
    (pass' : Pass (Visit.Stops (· ≠ pass.status)) (List.range n) visits none) :
    preempting d slot.remembered visits = visits.map .ticked := by
  have none : slot.remembered.filter (fun p => visits.all (·.child < p)) = [] := by
    rcases h.place with rfl | ⟨p, below, rfl⟩
    · rfl
    · have listed : p ∈ visits.map (·.child) := by
        rw [pass'.complete.1]
        exact List.mem_range.mpr below
      obtain ⟨v, among, rfl⟩ := List.mem_map.mp listed
      rw [List.filter_eq_nil_iff]
      simpa [Slot.remembered, Slot.child?] using ⟨v, among, Nat.le_refl _⟩
  simp [preempting, none, resetsOf]

/-- What is remembered afterwards tells which child is in a run. -/
theorem Notes.one {round : Round} (h : Notes n (rounds ++ [round]) slot) (mannerly : Mannerly (rounds ++ [round])) :
    ∀ child other, MidRun child (rounds ++ [round]) → MidRun other (rounds ++ [round]) → child = other := by
  intro child other here there
  have same := (h.midRun mannerly child here).symm.trans (h.midRun mannerly other there)
  cases same
  rfl

theorem Notes.rechecked (h : Notes n rounds slot)
    (pass' : Pass (Visit.Stops (· ≠ pass.status)) (List.range n) visits stopped)
    (mannerly : Mannerly (rounds ++ [Round.tick (preempting d slot.remembered visits) (stopped.getD pass.status)])) :
    Rechecked pass n d rounds (.tick (preempting d slot.remembered visits) (stopped.getD pass.status)) where
  rechecks := ⟨visits, stopped, pass', rfl, by rw [h.left mannerly.before]⟩
  one := (h.tick pass').one mannerly
  running child midRun := by
    obtain ⟨front, v, rfl, rfl, running⟩ := resumed_child ((h.tick pass').midRun mannerly child midRun)
    have stops : v.Stops (· ≠ pass.status) := .inr (by simpa [running] using pass.status_ne_running.symm)
    obtain ⟨-, goes⟩ | ⟨rfl, -⟩ := pass'.before.2
    · exact absurd stops goes
    · exact ⟨_, congrArg _ running⟩

end

namespace Behaviour

/-- In every sequence of rounds of the node at this depth, its ticks and resets are such. -/
structure RechecksOnTick (cell : Cell ρ σ) (d n : Nat) (pass : Verdict) (node : Behaviour (Ledger ρ) μ σ) : Prop where
  tick : ∀ rounds m, Due cell d node rounds m → Settles (fun answer k =>
    Mannerly (rounds ++ [.tick k.runs.dealings answer]) → Rechecked pass n d rounds (.tick k.runs.dealings answer))
      (node.tick m)
  reset : ∀ rounds fire m, Lived cell d node rounds m → m.runs.dealings = [] → Settles (fun _ k =>
    Mannerly (rounds ++ [.reset fire k.runs.dealings]) → Rechecked pass n d rounds (.reset fire k.runs.dealings))
      (node.reset d fire m)

section
variable {cell : Cell ρ σ} {d : Nat} {children : List (Behaviour ρ μ σ)} (holds : cell.Holds d)
  (apart : ∀ child ∈ children, child.Apart cell d)
include holds apart

theorem reactive_abides (pass : Verdict) : Abides cell d (reactive cell.booked pass (bookedAll children))
    (Notes children.length)
    (fun rounds round => Mannerly (rounds ++ [round]) → Rechecked pass children.length d rounds round) where
  start := ⟨.inl rfl, fun _ => rfl, fun _ _ ⟨_, last⟩ => by cases last⟩
  reset rounds slot fire m notes h := by
    have settles : Settles (fun _ k => Booked cell d .idle (resetsOf d fire slot.remembered) k)
        (cell.booked.resetChild (bookedAll children) d fire m) := by
      rcases notes.place with rfl | ⟨p, below, rfl⟩
      · rw [Cell.resetChild_apply, show cell.booked.get m.runs d = .idle from h.slot]
        exact .ok (h.reset holds)
      · exact resetChild_settles holds apart below h
    refine settles.mono fun _ k came => ?_
    rw [came.slot, came.dealings]
    have notes' : Notes children.length (rounds ++ [Round.reset fire (resetsOf d fire slot.remembered)]) .idle :=
      notes.reset
    refine ⟨fun mannerly => ⟨?_, notes'.one mannerly, fun child midRun => ?_⟩, notes'⟩
    · exact congrArg _ (notes.left mannerly.before)
    · cases notes'.midRun mannerly child midRun
  tick rounds slot m notes depth h := by
    show Settles _ ((Run.depth >>= _) m)
    rw [Run.depth_bind, depth]
    have begun : Midway cell d slot [] m := ⟨h, depth⟩
    have passes := reactiveFrom_settles holds apart pass notes.place 0 children apart (by simp) begun
    rw [← List.range_eq_range'] at passes
    refine passes.mono fun answer k passed => ?_
    rcases passed.outcome with ⟨visits, status, pass', rfl, came⟩ | ⟨visits, pass', rfl, came⟩
    · rw [came.slot, came.dealings]
      exact ⟨notes.rechecked pass', notes.tick pass'⟩
    · rw [came.slot, came.dealings, ← notes.reached_all d pass', ← pass'.resumed_none]
      exact ⟨notes.rechecked pass', notes.tick pass'⟩

theorem reactive_rechecks (pass : Verdict) :
    RechecksOnTick cell d children.length pass (reactive cell.booked pass (bookedAll children)) where
  tick _ _ due := (reactive_abides holds apart pass).next_tick due
  reset _ fire _ lived blank := (reactive_abides holds apart pass).next_reset lived fire blank

/-- Nodes that look at their children again on each tick. As long as children ask to return only when they end, a tick
goes from the first child to the first one that is running, answers otherwise than the node lets pass, or asks to
return, and then resets the child that the tick before left running if it comes later, and no other. So at most one
child is in a run, and none unless the node has just answered running. Success passes for a sequence, failure for a
selector. -/
theorem one_child_in_a_run :
    RechecksOnTick cell d children.length .success (reactiveSequence cell.booked (bookedAll children)) ∧
      RechecksOnTick cell d children.length .failure (reactiveSelector cell.booked (bookedAll children)) :=
  ⟨reactive_rechecks holds apart .success, reactive_rechecks holds apart .failure⟩

end

/-- Two children have passed, and the third is running. -/
def thirdRunning : Round :=
  .tick [.ticked ⟨0, .success, false⟩, .ticked ⟨1, .success, false⟩, .ticked ⟨2, .running, false⟩] .running

/-- The second child starts to run and preempts the third; the first one asks to return and preempts the second. -/
theorem one_of_trio_in_a_run :
    (∃ m k, Due Cell.alone 0 (reactiveSequence Cell.alone.booked (bookedAll trio)) [thirdRunning] m ∧
        (reactiveSequence Cell.alone.booked (bookedAll trio)).tick m = .ok .running k ∧
        Rechecked .success 3 0 [thirdRunning]
          (.tick [.ticked ⟨0, .success, false⟩, .ticked ⟨1, .running, false⟩, .reset 2 0 true] .running)) ∧
      ∃ m k, Due Cell.alone 0 (reactiveSelector Cell.alone.booked (bookedAll trio)) [secondRunning .failure] m ∧
        (reactiveSelector Cell.alone.booked (bookedAll trio)).tick m = .ok .failure k ∧
        Rechecked .failure 3 0 [secondRunning .failure]
          (.tick [.ticked ⟨0, .failure, true⟩, .reset 1 0 true] .failure) := by
  have rechecks := one_child_in_a_run (Cell.alone_holds (d := 0)) trio_apart
  constructor
  · have ran : ((reactiveSequence Cell.alone.booked (bookedAll trio)).inARow 0 2 (.scripted [(.success, false),
        (.success, false), (.running, false), (.success, false), (.running, false)])).map (·.1) =
        some ([thirdRunning] ++ [Round.tick [.ticked ⟨0, .success, false⟩, .ticked ⟨1, .running, false⟩,
          .reset 2 0 true] .running]) := by decide +kernel
    obtain ⟨m, k, due, ok, dealt⟩ := inARow_last .scripted ran
    have rechecked := (rechecks.1.tick _ m due).of_ok ok
    rw [dealt] at rechecked
    exact ⟨m, k, due, ok, rechecked (by decide)⟩
  · have ran : ((reactiveSelector Cell.alone.booked (bookedAll trio)).inARow 0 2 (.scripted [(.failure, false),
        (.running, false), (.failure, true)])).map (·.1) =
        some ([secondRunning .failure] ++ [Round.tick [.ticked ⟨0, .failure, true⟩, .reset 1 0 true] .failure]) := by
      decide +kernel
    obtain ⟨m, k, due, ok, dealt⟩ := inARow_last .scripted ran
    have rechecked := (rechecks.2.tick _ m due).of_ok ok
    rw [dealt] at rechecked
    exact ⟨m, k, due, ok, rechecked (by decide)⟩

end Behaviour

end BehaviorTree
