/-
  BehaviorTree.Proofs.Rounds.Repetition: one child that is run again and again, round by round.

  A tick is one visit of the child. What the node remembers is how many iterations have ended as they
  should in the run in progress, and whether the last one is still running (`iterating`). The count is
  a word, and is compared with the bound after it has been raised.

  - A repetition compares it with a count that is reached before the word is full, so it is the
    true number of iterations (`Repeats`).
  - The retries of a node may be as many as the word can count. Then the first failure too many
    takes the count back to zero, and the node goes on (`retry_starts_over`). In all other cases
    it gives up after as many failures as it should (`RetriesWhile`).
-/

import BehaviorTree.Proofs.Rounds.Reactive

namespace BehaviorTree

variable {ρ μ σ : Type}

/-- How many of the visits ended with this verdict. -/
def endings (verdict : Verdict) (visits : List Visit) : Nat := visits.countP (·.status = verdict.status)

/-- What a node remembers that has visited its child so in the run in progress. -/
def iterating (goOn : Verdict) (visits : List Visit) : Slot σ :=
  match visits.getLast? with
  | none => .idle
  | some v => .iterations (UInt32.ofNat (endings goOn visits)) v.status.isRunning

section
variable {goOn : Verdict} {visits : List Visit} {v : Visit}

theorem endings_snoc : endings goOn (visits ++ [v]) = endings goOn visits + if v.status = goOn.status then 1 else 0 := by
  simp [endings]

theorem endings_passed (passed : v.status = goOn.status) : endings goOn (visits ++ [v]) = endings goOn visits + 1 := by
  rw [endings_snoc, if_pos passed]

theorem endings_other (other : v.status ≠ goOn.status) : endings goOn (visits ++ [v]) = endings goOn visits := by
  rw [endings_snoc, if_neg other, Nat.add_zero]

theorem iterating_snoc : iterating goOn (visits ++ [v]) =
    (.iterations (UInt32.ofNat (endings goOn (visits ++ [v]))) v.status.isRunning : Slot σ) := by
  simp [iterating]

theorem count_iterating : (iterating goOn visits : Slot σ).count = UInt32.ofNat (endings goOn visits) := by
  obtain rfl | ⟨front, v, rfl⟩ := List.eq_nil_or_concat visits
  · rfl
  · rw [List.concat_eq_append, iterating_snoc]
    rfl

theorem iterating_shape : (iterating goOn visits : Slot σ) = .idle ∨
    ∃ count running, (iterating goOn visits : Slot σ) = .iterations count running := by
  obtain rfl | ⟨front, v, rfl⟩ := List.eq_nil_or_concat visits
  · exact .inl rfl
  · rw [List.concat_eq_append, iterating_snoc]
    exact .inr ⟨_, _, rfl⟩

end

namespace Behaviour

/-! ## One iteration -/

/-- What comes of an iteration that answered so. -/
def settleIteration (cell : Cell ρ σ) (goOn : Verdict) (spent : UInt32 → Bool) (depth : Nat) (status : Status) :
    Run ρ μ σ Status := do
  if ← Run.returning then
    cell.forget depth
    return status
  if status.isRunning then
    cell.keep depth (.iterations (← cell.read depth).count true)
    return .running
  if status ≠ goOn.status then
    cell.forget depth
    return status
  let count := (← cell.read depth).count + 1
  if spent count then
    cell.forget depth
    return status
  cell.keep depth (.iterations count false)
  return .running

theorem iterate_tick {cell : Cell ρ σ} {goOn : Verdict} {spent : UInt32 → Bool} {child : Behaviour ρ μ σ} :
    (iterate cell goOn spent child).tick =
      Run.depth >>= fun depth => child.tick >>= settleIteration cell goOn spent depth := rfl

/-- Nodes that repeat their child do with a ledger what they do without one. -/
theorem repetition_booking {child : Behaviour ρ μ σ} (level : child.Level) (cell : Cell ρ σ) :
    (∀ goOn spent, Booking (iterate cell goOn spent child) (iterate cell.booked goOn spent (child.booked 0))) ∧
      ∀ target, Booking (repeatUntil cell target child) (repeatUntil cell.booked target (child.booked 0)) := by
  have cells := cell.booked_cells
  have both : LockedAll Ledger.Fine (fun _ => Ledger.Beside) [child] [child.booked 0] :=
    locked_bookedFrom (by simpa using level) 0
  have locked := (List.forall₂_cons.mp both).1
  exact ⟨fun _ _ => .of_lock (iterate_lock cells locked) (resetIteration_lock cells (fun _ _ _ same => same) locked),
    fun _ => .of_lock (repeatUntil_lock cells locked) (resetStarted_lock cells (fun _ _ _ same => same) locked)⟩

theorem settleIteration_apply {cell : Cell ρ σ} {goOn : Verdict} {spent : UInt32 → Bool} {d : Nat} {status : Status}
    {m : Machine ρ μ σ} : settleIteration cell goOn spent d status m =
      if m.context.returnRequest.isSome then .ok status (m.onRuns (cell.reset · d))
      else if status.isRunning then .ok .running (m.onRuns (cell.set · d (.iterations (cell.get m.runs d).count true)))
      else if status ≠ goOn.status then .ok status (m.onRuns (cell.reset · d))
      else if spent ((cell.get m.runs d).count + 1) then .ok status (m.onRuns (cell.reset · d))
      else .ok .running (m.onRuns (cell.set · d (.iterations ((cell.get m.runs d).count + 1) false))) := by
  unfold settleIteration
  rw [Run.returning_bind]
  split
  · rfl
  split
  · rfl
  split
  · rfl
  rw [Cell.read_bind]
  split <;> rfl

end Behaviour

/-! ## The law of a node that repeats its child -/

/-- The only child, if it is remembered that it was left running. -/
def Slot.engaged : Slot σ → List Nat
  | .started | .iterations _ true => [0]
  | _ => []

/-- What the node remembers of a run in progress. Had enough iterations ended as they should, the run would be over. -/
structure Iterating (goOn : Verdict) (spent : UInt32 → Bool) (rounds : List Round) (slot : Slot σ) : Prop where
  remembers : slot = iterating goOn (current rounds)
  before : ∀ v ∈ current rounds, v.status ≠ goOn.flip.status
  unspent : ∀ k, 0 < k → k ≤ endings goOn (current rounds) → spent (UInt32.ofNat k) = false
  left : slot.engaged = leftBy (inProgress rounds)

/-- The answer of the node to a visit, after the others of the run. -/
def iterated (goOn : Verdict) (spent : UInt32 → Bool) (visits : List Visit) (v : Visit) : Status :=
  if v.asked = false ∧ v.status = goOn.status ∧ spent (UInt32.ofNat (endings goOn (visits ++ [v]))) = false then .running
  else v.status

/-- A tick visits the child once. A reset resets it if the last iteration was left running. -/
def Iterates (goOn : Verdict) (spent : UInt32 → Bool) (d : Nat) (rounds : List Round) : Round → Prop
  | .tick dealings answer => ∃ v, dealings = [.ticked v] ∧ v.child = 0 ∧
      answer = iterated goOn spent (current rounds) v
  | .reset fire dealings => dealings = resetsOf d fire (leftBy (inProgress rounds))

section
variable {goOn : Verdict} {spent : UInt32 → Bool} {rounds : List Round} {slot : Slot σ} {v : Visit}

theorem closes_visit {answer : Status} :
    (Round.tick [.ticked v] answer).closes = (answer.isTerminal || v.asked) := by
  simp [Round.closes, visitsOf]

theorem current_visit {answer : Status} (goes : v.asked = false) (running : answer = .running) :
    current (rounds ++ [Round.tick [.ticked v] answer]) = current rounds ++ [v] := by
  subst running
  have quiet : ∀ w ∈ [v], w.asked = false := by simpa using goes
  exact current_open quiet

theorem Iterating.closed {round : Round} (closes : round.closes = true) :
    Iterating goOn spent (rounds ++ [round]) (.idle : Slot σ) where
  remembers := by rw [current_closed closes]; rfl
  before := by simp [current_closed closes]
  unspent k positive below := by
    rw [current_closed closes] at below
    exact absurd positive (Nat.not_lt.mpr below)
  left := by rw [inProgress_snoc, if_pos closes]; rfl

/-- The iteration goes on, or another one is to come. -/
theorem Iterating.open (h : Iterating goOn spent rounds slot) (first : v.child = 0) (calm : v.asked = false)
    (goes : v.status = .running ∨ v.status = goOn.status ∧
      spent (UInt32.ofNat (endings goOn (current rounds ++ [v]))) = false) :
    Iterating goOn spent (rounds ++ [Round.tick [.ticked v] .running])
      (.iterations (UInt32.ofNat (endings goOn (current rounds ++ [v]))) v.status.isRunning : Slot σ) where
  remembers := by rw [current_visit calm rfl, iterating_snoc]
  before w among := by
    rw [current_visit calm rfl] at among
    rcases List.mem_append.mp among with among | same
    · exact h.before w among
    · rw [List.mem_singleton.mp same]
      rcases goes with running | ⟨passed, -⟩
      · rw [running]
        exact goOn.flip.status_ne_running.symm
      · rw [passed]
        exact goOn.status_ne_flip
  unspent k positive below := by
    rw [current_visit calm rfl] at below
    rcases goes with running | ⟨passed, unspent⟩
    · rw [endings_other (by rw [running]; exact goOn.status_ne_running.symm)] at below
      exact h.unspent k positive below
    · rcases Nat.lt_or_eq_of_le below with earlier | rfl
      · rw [endings_passed passed] at earlier
        exact h.unspent k positive (Nat.le_of_lt_succ earlier)
      · exact unspent
  left := by
    have goes : (Round.tick [.ticked v] .running).closes = false := by rw [closes_visit, calm]; rfl
    rw [inProgress_snoc, goes, if_neg Bool.false_ne_true]
    cases answer : v.status <;> simp [leftBy, visitsOf, Slot.engaged, Status.isRunning, answer, first]

end

namespace Behaviour

section
variable {cell : Cell ρ σ} {d : Nat} {child : Behaviour ρ μ σ} {goOn : Verdict} {spent : UInt32 → Bool}
  {rounds : List Round} {slot : Slot σ} {v : Visit} {m : Machine (Ledger ρ) μ σ} (holds : cell.Holds d)
include holds

/-- The child has been visited. -/
theorem settleIteration_settles (h : Iterating goOn spent rounds slot) (first : v.child = 0)
    (returns : m.context.returnRequest.isSome = v.asked)
    (came : Booked cell d slot [.ticked v] m) :
    Settles (fun answer k => k.runs.dealings = [.ticked v] ∧ answer = iterated goOn spent (current rounds) v ∧
        Iterating goOn spent (rounds ++ [Round.tick [.ticked v] answer]) (cell.get k.runs.below d))
      (settleIteration cell.booked goOn spent d v.status m) := by
  have count : (cell.booked.get m.runs d).count = UInt32.ofNat (endings goOn (current rounds)) := by
    show (cell.get m.runs.below d).count = _
    rw [came.slot, h.remembers, count_iterating]
  rw [settleIteration_apply, count, returns]
  have ended : (v.asked = true ∨ v.status.isTerminal = true) → iterated goOn spent (current rounds) v = v.status →
      Settles (fun answer k => k.runs.dealings = [.ticked v] ∧ answer = iterated goOn spent (current rounds) v ∧
          Iterating goOn spent (rounds ++ [Round.tick [.ticked v] answer]) (cell.get k.runs.below d))
        (.ok v.status (m.onRuns (cell.booked.reset · d))) := by
    intro closed same
    have forgotten := came.reset holds
    refine .ok ⟨forgotten.dealings, same.symm, ?_⟩
    rw [forgotten.slot]
    exact .closed (by simpa [closes_visit, or_comm] using closed)
  by_cases asked : v.asked = true
  · rw [if_pos asked]
    exact ended (.inl asked) (if_neg (by simp [asked]))
  rw [if_neg asked]
  have calm : v.asked = false := by simpa using asked
  by_cases running : v.status = .running
  · have other : v.status ≠ goOn.status := by rw [running]; exact goOn.status_ne_running.symm
    rw [if_pos (by rw [running]; rfl)]
    have kept := came.set (x := .iterations (UInt32.ofNat (endings goOn (current rounds))) true) holds
    refine .ok ⟨kept.dealings, ?_, ?_⟩
    · rw [iterated, if_neg (fun h => other h.2.1), running]
    · rw [kept.slot]
      have goes := h.open first calm (.inl running)
      rwa [endings_other other, running] at goes
  have terminal : v.status.isTerminal = true := Status.isTerminal_iff.mpr running
  rw [if_neg (by simpa [Status.isTerminal] using terminal)]
  by_cases passed : v.status = goOn.status
  · have next : UInt32.ofNat (endings goOn (current rounds)) + 1 =
        UInt32.ofNat (endings goOn (current rounds ++ [v])) := by
      rw [endings_passed passed, UInt32.ofNat_add]
      rfl
    rw [if_neg (not_not_intro passed), next]
    by_cases enough : spent (UInt32.ofNat (endings goOn (current rounds ++ [v]))) = true
    · rw [if_pos enough]
      exact ended (.inr terminal) (if_neg (by simp [enough]))
    · rw [if_neg enough]
      have unspent : spent (UInt32.ofNat (endings goOn (current rounds ++ [v]))) = false := by simpa using enough
      have kept := came.set (x := .iterations (UInt32.ofNat (endings goOn (current rounds ++ [v]))) false) holds
      refine .ok ⟨kept.dealings, ?_, ?_⟩
      · rw [iterated, if_pos ⟨calm, passed, unspent⟩]
      · rw [kept.slot]
        have goes := h.open first calm (.inr ⟨passed, unspent⟩)
        rwa [show v.status.isRunning = false by simpa [Status.isTerminal] using terminal] at goes
  · rw [if_pos passed]
    exact ended (.inr terminal) (if_neg (by simp [passed]))

variable (apart : child.Apart cell d)
include apart

/-- The child is reset if the last iteration was left running, and all is forgotten. -/
theorem resetIteration_settles (shape : slot = .idle ∨ ∃ count running, slot = .iterations count running) (fire : Bool)
    (h : Booked cell d slot [] m) : Settles (fun _ k => Booked cell d .idle (resetsOf d fire slot.engaged) k)
      (cell.booked.resetIteration (child.booked 0) d fire m) := by
  rw [Cell.resetIteration_apply, show cell.booked.get m.runs d = slot from h.slot]
  rcases shape with rfl | ⟨count, running, rfl⟩
  · exact .ok (h.reset holds)
  · cases running with
    | true => exact (h.reset holds).resets apart 0 fire
    | false => exact .ok (h.reset holds)

theorem iterate_abides : Abides cell d (iterate cell.booked goOn spent (child.booked 0)) (Iterating goOn spent)
    (Iterates goOn spent d) where
  start := ⟨rfl, by simp, fun k positive below => absurd positive (Nat.not_lt.mpr below), rfl⟩
  tick rounds slot m h depth blank := by
    rw [iterate_tick, Run.depth_bind, depth]
    have begun : Midway cell d slot [] m := ⟨blank, depth⟩
    refine (begun.ticks apart 0).bind fun status n came => ?_
    obtain ⟨v, first, rfl, returns, came⟩ := came
    refine (settleIteration_settles holds h first returns came.toBooked).mono fun answer k came => ?_
    obtain ⟨dealt, same, after⟩ := came
    rw [dealt]
    exact ⟨⟨v, rfl, first, same⟩, after⟩
  reset rounds slot fire m h blank := by
    refine (resetIteration_settles holds apart (h.remembers ▸ iterating_shape) fire blank).mono fun _ k came => ?_
    rw [came.slot, came.dealings]
    exact ⟨congrArg _ h.left, .closed rfl⟩

end

end Behaviour

/-! ## The law of a node that repeats its child until it ends so -/

/-- A tick visits the child once, and goes on unless it was ended so. A reset resets it if it was left running. -/
def Insists (target : Verdict) (d : Nat) (rounds : List Round) : Round → Prop
  | .tick dealings answer => ∃ v, dealings = [.ticked v] ∧ v.child = 0 ∧
      (v.asked = false → answer = if v.status = target.status then .success else .running)
  | .reset fire dealings => dealings = resetsOf d fire (leftBy rounds)

namespace Behaviour

section
variable {cell : Cell ρ σ} {d : Nat} {child : Behaviour ρ μ σ} (holds : cell.Holds d) (apart : child.Apart cell d)
include holds apart

theorem resetStarted_settles {slot : Slot σ} {m : Machine (Ledger ρ) μ σ} (shape : slot = .idle ∨ slot = .started)
    (fire : Bool) (h : Booked cell d slot [] m) :
    Settles (fun _ k => Booked cell d .idle (resetsOf d fire slot.engaged) k)
      (cell.booked.resetStarted (child.booked 0) d fire m) := by
  rw [Cell.resetStarted_apply, show cell.booked.get m.runs d = slot from h.slot]
  rcases shape with rfl | rfl
  · exact .ok h
  · exact (h.reset holds).resets apart 0 fire

theorem repeatUntil_abides (target : Verdict) : Abides cell d (repeatUntil cell.booked target (child.booked 0))
    (fun rounds slot => (slot = .idle ∨ slot = .started) ∧ slot.engaged = leftBy rounds) (Insists target d) where
  start := ⟨.inl rfl, rfl⟩
  tick rounds slot m h depth blank := by
    have begun : Midway cell d slot [] m := ⟨blank, depth⟩
    refine (begun.ticks apart 0).bind fun status n came => ?_
    obtain ⟨v, first, rfl, returns, came⟩ := came
    rw [Run.depth_bind, came.depth]
    have kept := came.toBooked.set (x := if v.status.isRunning then .started else .idle) holds
    have noted : ∀ answer, ((if v.status.isRunning then .started else .idle : Slot σ) = .idle ∨
          (if v.status.isRunning then .started else .idle : Slot σ) = .started) ∧
        (if v.status.isRunning then .started else .idle : Slot σ).engaged =
          leftBy (rounds ++ [Round.tick [.ticked v] answer]) := by
      intro answer
      cases status : v.status <;> simp [leftBy, visitsOf, Slot.engaged, Status.isRunning, status, first]
    have notes : cell.booked.note d v.status n =
        .ok () (n.onRuns (cell.booked.set · d (if v.status.isRunning then .started else .idle))) := rfl
    rw [Run.bind_ok notes, Run.returning_bind, Machine.onRuns_context, returns]
    cases asked : v.asked with
    | true =>
      refine .ok ?_
      rw [kept.slot, kept.dealings]
      exact ⟨⟨v, rfl, first, fun calm => by simp [asked] at calm⟩, noted _⟩
    | false =>
      refine .ok ?_
      rw [kept.slot, kept.dealings]
      exact ⟨⟨v, rfl, first, fun _ => rfl⟩, noted _⟩
  reset rounds slot fire m h blank := by
    obtain ⟨shape, left⟩ := h
    refine (resetStarted_settles holds apart shape fire blank).mono fun _ k came => ?_
    rw [came.slot, came.dealings]
    exact ⟨congrArg _ left, .inl rfl, by simp [leftBy, Slot.engaged]⟩

end

end Behaviour

/-! ## Counting -/

/-- The answer to a visit of a node that has so many retries, after the others of the run. -/
structure Tried (retries : UInt32) (visits : List Visit) (v : Visit) (answer : Status) : Prop where
  before : ∀ w ∈ visits, w.status ≠ .success
  success : answer = .success ↔ v.status = .success
  failure : answer = .failure ↔ v.status = .failure ∧ endings .failure (visits ++ [v]) = retries.toNat + 1
  /-- The word that counts the failures does not run over. -/
  fits : endings .failure (visits ++ [v]) < UInt32.size

/-- The answer to a visit of a node that is to see so many successes, after the others of the run. -/
structure Repeated (count : UInt32) (visits : List Visit) (v : Visit) (answer : Status) : Prop where
  before : ∀ w ∈ visits, w.status ≠ .failure
  failure : answer = .failure ↔ v.status = .failure
  success : answer = .success ↔ v.status = .success ∧ endings .success (visits ++ [v]) = count.toNat
  /-- The word that counts the successes does not run over. -/
  fits : endings .success (visits ++ [v]) < UInt32.size

section
variable {goOn : Verdict} {spent : UInt32 → Bool} {rounds : List Round} {visits : List Visit} {slot : Slot σ} {v : Visit}

/-- So many iterations would have been enough, so there have been fewer. -/
theorem Iterating.fewer (h : Iterating goOn spent rounds slot) {k : Nat} (positive : 0 < k)
    (enough : spent (UInt32.ofNat k) = true) : endings goOn (current rounds) < k := by
  by_contra reached
  rw [h.unspent k positive (Nat.not_lt.mp reached)] at enough
  exact Bool.false_ne_true enough

theorem endings_le : endings goOn (visits ++ [v]) ≤ endings goOn visits + 1 := by
  rw [endings_snoc]
  split <;> omega

/-- The node ends otherwise exactly when the child does. -/
theorem iterated_flip : iterated goOn spent visits v = goOn.flip.status ↔ v.status = goOn.flip.status := by
  unfold iterated
  split
  · next goes =>
    rw [goes.2.1]
    exact iff_of_false goOn.flip.status_ne_running.symm goOn.status_ne_flip
  · exact Iff.rfl

/-- It ends as the child should when that has been often enough. -/
theorem iterated_enough (calm : v.asked = false) : iterated goOn spent visits v = goOn.status ↔
    v.status = goOn.status ∧ spent (UInt32.ofNat (endings goOn (visits ++ [v]))) = true := by
  unfold iterated
  split
  · next goes => exact iff_of_false goOn.status_ne_running.symm fun ends => by simp [goes.2.2] at ends
  · next stays => exact ⟨fun passed => ⟨passed, by simpa [calm, passed] using stays⟩, And.left⟩

theorem Iterating.tried {retries : UInt32} (h : Iterating .failure (retries < ·) rounds slot) (calm : v.asked = false)
    (small : retries.toNat + 1 < UInt32.size ∨ endings .failure (current rounds) + 1 < UInt32.size) :
    Tried retries (current rounds) v (iterated .failure (retries < ·) (current rounds) v) := by
  have step : endings .failure (current rounds ++ [v]) ≤ endings .failure (current rounds) + 1 := endings_le
  obtain ⟨failures, counted⟩ : ∃ k, endings .failure (current rounds ++ [v]) = k := ⟨_, rfl⟩
  rw [counted] at step
  have bounded : failures ≤ retries.toNat + 1 ∧ failures < UInt32.size := by
    rcases Nat.lt_or_ge (retries.toNat + 1) UInt32.size with small | full
    · have enough : decide (retries < UInt32.ofNat (retries.toNat + 1)) = true := by
        rw [decide_eq_true_eq, UInt32.lt_iff_toNat_lt, UInt32.toNat_ofNat_of_lt' small]
        exact Nat.lt_succ_self _
      have fewer := h.fewer (Nat.succ_pos _) enough
      omega
    · omega
  have enough : retries < UInt32.ofNat failures ↔ failures = retries.toNat + 1 := by
    rw [UInt32.lt_iff_toNat_lt, UInt32.toNat_ofNat_of_lt' bounded.2]
    omega
  refine ⟨h.before, iterated_flip, (iterated_enough calm).trans ?_, counted ▸ bounded.2⟩
  rw [counted, decide_eq_true_eq, enough]
  rfl

theorem Iterating.repeated {count : UInt32} (positive : 0 < count) (h : Iterating .success (count ≤ ·) rounds slot)
    (calm : v.asked = false) : Repeated count (current rounds) v (iterated .success (count ≤ ·) (current rounds) v) := by
  have step : endings .success (current rounds ++ [v]) ≤ endings .success (current rounds) + 1 := endings_le
  obtain ⟨successes, counted⟩ : ∃ k, endings .success (current rounds ++ [v]) = k := ⟨_, rfl⟩
  rw [counted] at step
  have reached : decide (count ≤ UInt32.ofNat count.toNat) = true := by simp
  have fewer := h.fewer (UInt32.lt_iff_toNat_lt.mp positive) reached
  have fits : successes < UInt32.size := by
    have := count.toNat_lt_size
    omega
  have enough : count ≤ UInt32.ofNat successes ↔ successes = count.toNat := by
    rw [UInt32.le_iff_toNat_le, UInt32.toNat_ofNat_of_lt' fits]
    omega
  refine ⟨h.before, iterated_flip, (iterated_enough calm).trans ?_, counted ▸ fits⟩
  rw [counted, decide_eq_true_eq, enough]
  rfl

end

namespace Behaviour

/-- Each tick tries the child once, until it has succeeded, or has failed once more than it may be retried. This is asked
of the ticks after such rounds only. -/
structure RetriesWhile (cell : Cell ρ σ) (d : Nat) (retries : UInt32) (when : List Round → Prop)
    (node : Behaviour (Ledger ρ) μ σ) : Prop where
  tick : ∀ rounds m, Due cell d node rounds m → when rounds → Settles (fun answer k => ∃ v,
    k.runs.dealings = [.ticked v] ∧ v.child = 0 ∧ (v.asked = false → Tried retries (current rounds) v answer))
      (node.tick m)
  counts : ∀ rounds m, Lived cell d node rounds m →
    (cell.get m.runs.below d).count = UInt32.ofNat (endings .failure (current rounds))

/-- Each tick runs the child once, until it has failed, or has succeeded so often. A reset forgets the count, and resets
the child if the last tick of the run left it running. -/
structure Repeats (cell : Cell ρ σ) (d : Nat) (count : UInt32) (node : Behaviour (Ledger ρ) μ σ) : Prop where
  tick : ∀ rounds m, Due cell d node rounds m → Settles (fun answer k => ∃ v,
    k.runs.dealings = [.ticked v] ∧ v.child = 0 ∧ (v.asked = false → Repeated count (current rounds) v answer))
      (node.tick m)
  counts : ∀ rounds m, Lived cell d node rounds m →
    (cell.get m.runs.below d).count = UInt32.ofNat (endings .success (current rounds))
  reset : ∀ rounds fire m, Lived cell d node rounds m → m.runs.dealings = [] → Settles (fun _ k =>
    k.runs.dealings = resetsOf d fire (leftBy (inProgress rounds)) ∧ cell.get k.runs.below d = .idle)
      (node.reset d fire m)

/-- Each tick runs the child once, and succeeds if it ends so. A reset resets the child if the last tick left it
running. -/
structure RepeatsUntil (cell : Cell ρ σ) (d : Nat) (target : Verdict) (node : Behaviour (Ledger ρ) μ σ) : Prop where
  tick : ∀ rounds m, Due cell d node rounds m → Settles (fun answer k => ∃ v, k.runs.dealings = [.ticked v] ∧
    v.child = 0 ∧ (v.asked = false → answer = if v.status = target.status then .success else .running)) (node.tick m)
  reset : ∀ rounds fire m, Lived cell d node rounds m → m.runs.dealings = [] → Settles (fun _ k =>
    k.runs.dealings = resetsOf d fire (leftBy rounds)) (node.reset d fire m)

section
variable {cell : Cell ρ σ} {d : Nat} {child : Behaviour ρ μ σ} (holds : cell.Holds d) (apart : child.Apart cell d)
include holds apart

/-- A node that retries its child. In a run in which no return is requested, each tick tries the child once; the run ends
well with the first success, and fails with the first failure for which there is no retry left. This is so with any
number of retries that leaves the word which counts the failures room for one more, and with the largest one until the
word is full. -/
theorem retry_keeps_to_its_budget (retries : UInt32) : RetriesWhile cell d retries
    (fun rounds => retries.toNat + 1 < UInt32.size ∨ endings .failure (current rounds) + 1 < UInt32.size)
    (retry cell.booked retries (child.booked 0)) := by
  have abides : Abides cell d (retry cell.booked retries (child.booked 0)) _ _ := iterate_abides holds apart
  refine ⟨fun rounds m due small => ?_, fun rounds m lived => ?_⟩
  · have kept := (abides.kept due.lived).2
    refine (abides.next_tick due).mono fun answer k came => ?_
    obtain ⟨v, dealt, first, rfl⟩ := came
    exact ⟨v, dealt, first, fun calm => kept.tried calm small⟩
  · rw [(abides.kept lived).2.remembers, count_iterating]

end

/-- A node that may retry its child once. -/
def onceMore : Behaviour (Ledger (DepthSlots (Slot Unit))) (List (Status × Bool)) Unit :=
  retry Cell.alone.booked 1 (obedient.booked 0)

/-- The child has failed, and then was left running. -/
def triedOnce : List Round := [.tick [.ticked ⟨0, .failure, false⟩] .running, .tick [.ticked ⟨0, .running, false⟩] .running]

/-- With one retry, the second failure is the last. -/
theorem retry_gives_up : ∃ m k, Due Cell.alone 0 onceMore triedOnce m ∧ onceMore.tick m = .ok .failure k ∧
    Tried 1 (current triedOnce) ⟨0, .failure, false⟩ .failure := by
  have retries : RetriesWhile Cell.alone 0 1 _ onceMore := retry_keeps_to_its_budget Cell.alone_holds obedient_apart 1
  have ran : (onceMore.inARow 0 3 (.scripted [(.failure, false), (.running, false), (.failure, false)])).map (·.1) =
      some (triedOnce ++ [Round.tick [.ticked ⟨0, .failure, false⟩] .failure]) := by decide +kernel
  obtain ⟨m, k, due, ok, dealt⟩ := inARow_last .scripted ran
  obtain ⟨v, same, -, tried⟩ := (retries.tick _ m due (.inl (by decide))).of_ok ok
  rw [dealt] at same
  cases same
  exact ⟨m, k, due, ok, tried rfl⟩

/-- A child that fails at once. -/
def failing : Behaviour (DepthSlots (Slot Unit)) Unit Unit := .ofTick (pure .failure)

/-- A node that may retry its child as often as a word can count. -/
def dogged : Behaviour (Ledger (DepthSlots (Slot Unit))) Unit Unit :=
  retry Cell.alone.booked 4294967295 (failing.booked 0)

/-- A failure after which the node goes on. -/
def failedTry : Round := .tick [.ticked ⟨0, .failure, false⟩] .running

/-- No count is above the largest word. -/
theorem dogged_tick (slots : DepthSlots (Slot Unit)) :
    dogged.tick ⟨{}, (), ⟨slots, []⟩, #[], #[]⟩ = .ok .running ⟨{}, (),
      ⟨slots.set 0 (.iterations ((slots.get 0).count + 1) false), [.ticked ⟨0, .failure, false⟩]⟩, #[], #[]⟩ := by
  have ticked : (failing.booked 0).tick ⟨{}, (), ⟨slots, []⟩, #[], #[]⟩ =
      .ok .failure ⟨{}, (), ⟨slots, [.ticked ⟨0, .failure, false⟩]⟩, #[], #[]⟩ := rfl
  have full (count : UInt32) : ¬ 4294967295 < count := by
    rw [UInt32.lt_iff_toNat_lt]
    exact Nat.not_lt.mpr (Nat.le_of_lt_succ count.toNat_lt_size)
  rw [dogged, retry, iterate_tick, Run.depth_bind, Run.bind_ok ticked, settleIteration_apply]
  simp [full]
  rfl

/-- The child may have failed so often. -/
theorem dogged_due (times : Nat) : ∃ slots : DepthSlots (Slot Unit),
    Due Cell.alone 0 dogged (List.replicate times failedTry) ⟨{}, (), ⟨slots, []⟩, #[], #[]⟩ := by
  induction times with
  | zero => exact ⟨{}, .fresh (DepthSlots.get_empty 0), rfl, rfl⟩
  | succ times ih =>
    obtain ⟨slots, due⟩ := ih
    rw [List.replicate_succ']
    exact ⟨_, .aside (due.lived.tick rfl rfl (dogged_tick slots)) rfl, rfl, rfl⟩

theorem current_failedTries (times : Nat) :
    current (List.replicate times failedTry) = List.replicate times ⟨0, .failure, false⟩ := by
  induction times with
  | zero => rfl
  | succ times ih =>
    rw [List.replicate_succ', List.replicate_succ', failedTry, current_visit rfl rfl, ← failedTry, ih]

/-- With the largest number of retries, the failure that should be the last one is not: the word that counts the failures
has run over, and the node goes on. -/
theorem retry_starts_over : ¬ RetriesWhile Cell.alone 0 4294967295 (fun _ => True) dogged := by
  intro retries
  obtain ⟨times, full⟩ : ∃ times, times + 1 = UInt32.size := ⟨UInt32.size - 1, rfl⟩
  obtain ⟨slots, due⟩ := dogged_due times
  obtain ⟨v, same, -, tried⟩ := (retries.tick _ _ due trivial).of_ok (dogged_tick slots)
  cases same
  have spent : endings .failure (current (List.replicate times failedTry) ++ [⟨0, .failure, false⟩]) = UInt32.size := by
    rw [current_failedTries, ← full, endings, List.countP_append, List.countP_replicate]
    simp [Verdict.status]
  have gaveUp := (tried rfl).failure.mpr ⟨rfl, spent.trans rfl⟩
  cases gaveUp

section
variable {cell : Cell ρ σ} {d : Nat} {child : Behaviour ρ μ σ} (holds : cell.Holds d) (apart : child.Apart cell d)
include holds apart

end

/-- A node that is to see two successes of its child. -/
def twice : Behaviour (Ledger (DepthSlots (Slot Unit))) (List (Status × Bool)) Unit :=
  repeatTimes Cell.alone.booked 2 (obedient.booked 0)

/-- A node that waits for its child to fail. -/
def untilFailed : Behaviour (Ledger (DepthSlots (Slot Unit))) (List (Status × Bool)) Unit :=
  repeatUntil Cell.alone.booked .failure (obedient.booked 0)

/-- The child has ended well. -/
def succeededOnce : List Round := [.tick [.ticked ⟨0, .success, false⟩] .running]

end Behaviour

end BehaviorTree
