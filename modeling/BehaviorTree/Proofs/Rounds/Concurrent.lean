/-
  BehaviorTree.Proofs.Rounds.Concurrent: children that run side by side, round by round.

  What the node remembers is the last answer of each child in the run in progress, and nothing
  once the run is over (`Remembers`). A tick passes along the children that have not ended. It
  stops where the policy is decided or a return is requested, and then resets the children whose
  last tick left them running (`SideBySide`).
-/

import BehaviorTree.Behaviour.Concurrent
import BehaviorTree.Proofs.Rounds

namespace BehaviorTree

variable {ρ μ σ : Type}

/-! ## The children in the course of a run -/

/-- What the child answered in these ticks. -/
def answers (child : Nat) (visits : List Visit) : List Status :=
  (visits.filter (·.child = child)).map (·.status)

/-- Of so many children from `first` on, those that have not ended. -/
def goingFrom (visits : List Visit) (first count : Nat) : List Nat :=
  (List.range' first count).filter fun child => (answers child visits).all (·.isRunning)

/-- Of the first `n` children, those that have not ended. -/
def unfinished (n : Nat) (visits : List Visit) : List Nat :=
  (List.range n).filter fun child => (answers child visits).all (·.isRunning)

/-- Of the first `n` children, those that were left running by their last tick. -/
def leftRunning (n : Nat) (visits : List Visit) : List Nat :=
  (List.range n).filter fun child => (answers child visits).getLast? = some .running

/-- What the last tick of the child left. -/
def stateIn (visits : List Visit) (child : Nat) : ChildState :=
  match (answers child visits).getLast? with
  | none => .idle
  | some status => .after status

/-- A child that has ended was not ticked again. -/
def Steady (visits : List Visit) : Prop := ∀ child, ∀ status ∈ (answers child visits).dropLast, status = .running

section
variable {visits : List Visit} {visit : Visit} {child n : Nat} {status : Status}

@[simp] theorem answers_nil : answers child [] = [] := rfl

theorem answers_snoc : answers child (visits ++ [visit]) =
    answers child visits ++ if visit.child = child then [visit.status] else [] := by
  unfold answers
  by_cases same : visit.child = child
  · simp [same]
  · simp [same]

theorem answers_append {more : List Visit} :
    answers child (visits ++ more) = answers child visits ++ answers child more := by
  simp [answers]

theorem mem_answers : status ∈ answers child visits ↔ ∃ asked, ⟨child, status, asked⟩ ∈ visits := by
  simp only [answers, List.mem_map, List.mem_filter, decide_eq_true_eq]
  constructor
  · rintro ⟨⟨_, _, asked⟩, ⟨among, rfl⟩, rfl⟩
    exact ⟨asked, among⟩
  · rintro ⟨asked, among⟩
    exact ⟨_, ⟨among, rfl⟩, rfl⟩

@[simp] theorem stateIn_nil : stateIn [] child = .idle := rfl

theorem stateIn_snoc : stateIn (visits ++ [visit]) child =
    if visit.child = child then .after visit.status else stateIn visits child := by
  unfold stateIn
  rw [answers_snoc]
  by_cases same : visit.child = child
  · simp [same]
  · simp [same]

theorem stateIn_running : stateIn visits child = .running ↔ (answers child visits).getLast? = some .running := by
  unfold stateIn
  cases (answers child visits).getLast? with
  | none => simp
  | some status => cases status <;> simp [ChildState.after, Status.isRunning]

theorem unfinished_eq : unfinished n visits = goingFrom visits 0 n := by
  rw [unfinished, goingFrom, List.range_eq_range']

theorem goingFrom_succ {first count : Nat} : goingFrom visits first (count + 1) =
    if (answers first visits).all (·.isRunning) = true then first :: goingFrom visits (first + 1) count
    else goingFrom visits (first + 1) count := by
  rw [goingFrom, List.range'_succ, List.filter_cons, goingFrom]

/-- A tick of a child before them does not matter. -/
theorem goingFrom_snoc {first count : Nat} (before : visit.child < first) :
    goingFrom (visits ++ [visit]) first count = goingFrom visits first count := by
  refine List.filter_congr fun i among => ?_
  have above := (List.mem_range'_1.mp among).1
  rw [answers_snoc, if_neg (by omega), List.append_nil]

theorem leftRunning_eq : leftRunning n visits =
    (List.range' 0 n).filter fun child => stateIn visits child = .running := by
  simp [leftRunning, List.range_eq_range', stateIn_running]

namespace Steady

theorem nil : Steady [] := fun _ _ among => by simp at among

/-- A child that has not ended may be ticked. -/
theorem snoc (h : Steady visits) (going : (answers visit.child visits).all (·.isRunning) = true) :
    Steady (visits ++ [visit]) := by
  intro child status among
  rw [answers_snoc] at among
  split at among
  · next same =>
    subst same
    rw [List.dropLast_concat] at among
    exact Status.isRunning_iff.mp (List.all_eq_true.mp going status among)
  · rw [List.append_nil] at among
    exact h child status among

/-- Where the last tick visited every child that had not ended, those still unfinished were left running. -/
theorem leftRunning_eq_unfinished {run : List Visit} (h : Steady (run ++ visits))
    (visited : visits.map (·.child) = unfinished n run) :
    leftRunning n (run ++ visits) = unfinished n (run ++ visits) := by
  refine List.filter_congr fun child among => ?_
  have steady := h child
  obtain none | ⟨front, last, split⟩ := List.eq_nil_or_concat (answers child (run ++ visits))
  · obtain ⟨before, now⟩ := List.append_eq_nil_iff.mp (answers_append.symm.trans none)
    have going : child ∈ unfinished n run := List.mem_filter.mpr ⟨among, by rw [before]; rfl⟩
    obtain ⟨v, seen, rfl⟩ := List.mem_map.mp (visited ▸ going)
    have answered : v.status ∈ answers v.child visits := mem_answers.mpr ⟨v.asked, seen⟩
    rw [now] at answered
    cases answered
  · rw [split, List.concat_eq_append] at steady ⊢
    rw [List.dropLast_concat] at steady
    rw [List.getLast?_concat, List.all_append, List.all_eq_true.mpr fun s among =>
      Status.isRunning_iff.mpr (steady s among)]
    simp [← Status.isRunning_iff]

variable (h : Steady visits)
include h

/-- What the last tick left is the end of the child if one of its ticks ended it. -/
theorem stateIn_finished : stateIn visits child = .finished status ↔
    status.isTerminal = true ∧ status ∈ answers child visits := by
  have steady := h child
  unfold stateIn
  obtain none | ⟨front, last, split⟩ := List.eq_nil_or_concat (answers child visits)
  · simp [none]
  · rw [split, List.concat_eq_append] at steady ⊢
    simp only [List.dropLast_concat] at steady
    simp only [List.getLast?_concat, List.mem_append, List.mem_singleton]
    constructor
    · intro ended
      cases last <;> cases ended <;> simp [Status.isTerminal, Status.isRunning]
    · rintro ⟨terminal, among | rfl⟩
      · exact absurd (steady status among) (Status.isTerminal_iff.mp terminal)
      · cases status <;> simp_all [ChildState.after, Status.isRunning, Status.isTerminal]

theorem going_iff :
    (answers child visits).all (·.isRunning) = true ↔ ∀ status, stateIn visits child ≠ .finished status := by
  simp only [List.all_eq_true, h.stateIn_finished, not_and, ne_eq]
  constructor
  · intro going status terminal among
    exact Status.isTerminal_iff.mp terminal (Status.isRunning_iff.mp (going status among))
  · intro none status among
    refine Status.isRunning_iff.mpr (Classical.byContradiction fun ended => ?_)
    exact none status (Status.isTerminal_iff.mpr ended) among

end Steady

end

/-! ## Children and what is remembered of them -/

namespace Behaviour

/-- The children, numbered from `first` on, with their states. -/
def trackedFrom (state : Nat → ChildState) : (first : Nat) → List (Behaviour ρ μ σ) → List (Tracked (Ledger ρ) μ σ)
  | _, [] => []
  | first, child :: rest => (child.booked first, state first) :: trackedFrom state (first + 1) rest

section
variable {state state' : Nat → ChildState} {first : Nat} {children : List (Behaviour ρ μ σ)}

theorem trackedFrom_cons (child : Behaviour ρ μ σ) (rest : List (Behaviour ρ μ σ)) :
    trackedFrom state first (child :: rest) = (child.booked first, state first) :: trackedFrom state (first + 1) rest :=
  rfl

theorem zip_bookedFrom : (bookedFrom first children).zip ((List.range' first children.length).map state) =
    trackedFrom state first children := by
  induction children generalizing first with
  | nil => rfl
  | cons child rest ih =>
    simp only [bookedFrom, List.length_cons, List.range'_succ, List.map_cons, List.zip_cons_cons, trackedFrom_cons]
    rw [ih]

theorem trackedFrom_append (xs ys : List (Behaviour ρ μ σ)) :
    trackedFrom state first (xs ++ ys) = trackedFrom state first xs ++ trackedFrom state (first + xs.length) ys := by
  induction xs generalizing first with
  | nil => rfl
  | cons child rest ih =>
    simp only [List.cons_append, trackedFrom_cons, List.length_cons]
    rw [ih, Nat.add_right_comm, Nat.add_assoc]

theorem trackedFrom_split {xs ys : List (Behaviour ρ μ σ)} :
    trackedFrom state 0 (xs ++ ys) = trackedFrom state 0 xs ++ trackedFrom state xs.length ys := by
  rw [trackedFrom_append, Nat.zero_add]

theorem trackedFrom_congr (same : ∀ i, first ≤ i → i < first + children.length → state i = state' i) :
    trackedFrom state first children = trackedFrom state' first children := by
  induction children generalizing first with
  | nil => rfl
  | cons child rest ih =>
    simp only [List.length_cons] at same
    simp only [trackedFrom_cons]
    rw [same first (by omega) (by omega), ih fun i above below => same i (by omega) (by omega)]

theorem trackedFrom_states :
    (trackedFrom state first children).map (·.2) = (List.range' first children.length).map state := by
  induction children generalizing first with
  | nil => rfl
  | cons child rest ih =>
    simp only [trackedFrom_cons, List.map_cons, List.length_cons, List.range'_succ]
    rw [ih]

/-- One child has another state now, and joins those seen before. -/
theorem trackedFrom_seen (front rest : List (Behaviour ρ μ σ)) (child : Behaviour ρ μ σ) {now : ChildState}
    (here : state' front.length = now) (same : ∀ i, i ≠ front.length → state i = state' i) :
    trackedFrom state 0 front ++ [(child.booked front.length, now)] = trackedFrom state' 0 (front ++ [child]) ∧
      trackedFrom state (front.length + 1) rest = trackedFrom state' (front ++ [child]).length rest := by
  have before : trackedFrom state 0 front = trackedFrom state' 0 front :=
    trackedFrom_congr fun i _ below => same i (by omega)
  have after : trackedFrom state (front.length + 1) rest = trackedFrom state' (front.length + 1) rest :=
    trackedFrom_congr fun i above _ => same i (by omega)
  constructor
  · rw [trackedFrom_split, before, ← here]
    rfl
  · rw [after, List.length_append]
    rfl

/-- A child has been ticked. -/
theorem trackedFrom_visited {run visits : List Visit} {v : Visit} (front rest : List (Behaviour ρ μ σ))
    (child : Behaviour ρ μ σ) (here : v.child = front.length) :
    trackedFrom (stateIn (run ++ visits)) 0 front ++ [(child.booked front.length, ChildState.after v.status)] =
        trackedFrom (stateIn (run ++ (visits ++ [v]))) 0 (front ++ [child]) ∧
      trackedFrom (stateIn (run ++ visits)) (front.length + 1) rest =
        trackedFrom (stateIn (run ++ (visits ++ [v]))) (front ++ [child]).length rest := by
  rw [← List.append_assoc]
  refine trackedFrom_seen front rest child ?_ fun i other => ?_
  · rw [stateIn_snoc, if_pos here]
  · rw [stateIn_snoc, if_neg (by omega)]

end

section
variable {cell : Cell ρ σ} {d first : Nat} {slot : Slot σ} {state : Nat → ChildState} {dealings : List Dealing}
  {m : Machine (Ledger ρ) μ σ} {fire : Bool} {children : List (Behaviour ρ μ σ)}

/-- The children that are running are reset in their order. -/
theorem abort_settles (apart : ∀ child ∈ children, child.Apart cell d) (h : Booked cell d slot dealings m) :
    Settles (fun _ n => Booked cell d slot (dealings ++ resetsOf d fire
        ((List.range' first children.length).filter fun child => state child = .running)) n)
      (abort d fire (trackedFrom state first children) m) := by
  induction children generalizing first dealings m with
  | nil => exact .ok (by simpa [resetsOf] using h)
  | cons child rest ih =>
    have apart' : ∀ child ∈ rest, child.Apart cell d := fun c among => apart c (List.mem_cons_of_mem _ among)
    simp only [trackedFrom_cons, List.length_cons, List.range'_succ, List.filter_cons]
    by_cases running : state first = .running
    · rw [running]
      refine (h.resets (apart child List.mem_cons_self) first fire).bind fun _ n came => ?_
      refine (ih apart' came).mono fun _ _ rest => ?_
      simpa [resetsOf] using rest
    · have passed : abort d fire ((child.booked first, state first) :: trackedFrom state (first + 1) rest)
          = abort d fire (trackedFrom state (first + 1) rest) := by
        cases here : state first with
        | running => exact absurd here running
        | _ => simp only [abort]
      rw [passed]
      simpa [running] using ih apart' h

end

/-! ## One pass along the children -/

section
variable {cell : Cell ρ σ} {d : Nat} {slot : Slot σ} {run visits : List Visit} {m : Machine (Ledger ρ) μ σ}

/-- A tick has ended the pass, and the children that are running have been reset. -/
structure CutShort (cell : Cell ρ σ) (d n : Nat) (slot : Slot σ) (run visits : List Visit)
    (m : Machine (Ledger ρ) μ σ) : Prop where
  steady : Steady (run ++ visits)
  booked : Booked cell d slot (visits.map .ticked ++ resetsOf d true (leftRunning n (run ++ visits))) m

/-- No child has ended the pass. -/
structure GoneThrough (cell : Cell ρ σ) (d : Nat) (slot : Slot σ) (run visits : List Visit)
    (m : Machine (Ledger ρ) μ σ) : Prop where
  steady : Steady (run ++ visits)
  booked : Booked cell d slot (visits.map .ticked) m

/-- The children in `front` have been seen. The pass goes along those of the others that have not ended. -/
theorem visit_settles (stop : Status → Bool) (front rest : List (Behaviour ρ μ σ))
    (apart : ∀ child ∈ front ++ rest, child.Apart cell d) (steady : Steady (run ++ visits))
    (h : Midway cell d slot visits m) :
    Settles (fun result k => Passed (Visit.Stops stop)
        (fun visits status => result = .inl status ∧ CutShort cell d (front ++ rest).length slot run visits k)
        (fun visits => result = .inr ((List.range (front ++ rest).length).map (stateIn (run ++ visits))) ∧
          GoneThrough cell d slot run visits k)
        visits (goingFrom (run ++ visits) front.length rest.length))
      (visit stop d (trackedFrom (stateIn (run ++ visits)) 0 front)
        (trackedFrom (stateIn (run ++ visits)) front.length rest) m) := by
  induction rest generalizing front visits m with
  | nil =>
    refine .ok (.done ⟨?_, steady, h.toBooked⟩)
    rw [trackedFrom_states, List.append_nil, List.range_eq_range']
  | cons child rest ih =>
    have regroup : front ++ child :: rest = (front ++ [child]) ++ rest := by simp
    have number : (front ++ [child]).length = front.length + 1 := by simp
    rw [regroup] at apart ⊢
    rw [List.length_cons, trackedFrom_cons, goingFrom_succ]
    by_cases going : (answers front.length (run ++ visits)).all (·.isRunning) = true
    · -- the child is ticked
      rw [if_pos going, visit_unfinished (steady.going_iff.mp going)]
      refine (h.ticks (apart child (by simp)) front.length).bind fun status n came => ?_
      obtain ⟨v, here, rfl, returns, came⟩ := came
      rw [Run.returning_bind, returns]
      have steady' : Steady (run ++ (visits ++ [v])) := by
        rw [← List.append_assoc]
        exact steady.snoc (by rwa [here])
      obtain ⟨seen, ahead⟩ := trackedFrom_visited front rest child here
      rw [seen, ahead, ← here]
      by_cases ends : v.Stops stop
      · rw [if_pos (by simpa [Visit.Stops] using ends)]
        rw [← trackedFrom_split]
        refine (abort_settles apart came.toBooked).bind fun _ k aborted => .ok (.ended ends ⟨rfl, steady', ?_⟩)
        rw [leftRunning_eq]
        exact aborted
      · rw [if_neg (by simpa [Visit.Stops] using ends)]
        refine (ih (front ++ [child]) apart steady' came).mono fun result k later => .on ends ?_
        rwa [← List.append_assoc, goingFrom_snoc (by omega), number, ← here] at later
    · -- the child has ended and is passed by
      obtain ⟨status, ended⟩ := Classical.not_forall_not.mp (mt steady.going_iff.mpr going)
      obtain ⟨seen, ahead⟩ := trackedFrom_seen front rest child ended fun i _ => rfl
      rw [if_neg going, ended, visit_finished, seen, ahead, ← number]
      exact ih (front ++ [child]) apart steady h

end

end Behaviour

/-! ## The law of a node that passes by ended children -/

/-- What the node remembers after the rounds: what the run in progress has left of its children. -/
structure Remembers (n : Nat) (rounds : List Round) (slot : Slot σ) : Prop where
  steady : Steady (current rounds)
  slot : slot = .idle ∧ current rounds = [] ∨ slot = .children ((List.range n).map (stateIn (current rounds)))

/-- A tick goes along the children that have not ended. When one stops it, it answers with that one's status and
resets what it leaves running. Otherwise it runs on while a child does. A reset resets what was left running. -/
def SideBySide (stop : Status → Bool) (otherwise : List ChildState → Status) (n d : Nat) (rounds : List Round) :
    Round → Prop
  | .tick dealings answer => ∃ visits stopped,
      Pass (Visit.Stops stop) (unfinished n (current rounds)) visits stopped ∧
      Steady (current rounds ++ visits) ∧
      dealings = visits.map .ticked ++
        resetsOf d true (if stopped.isSome then leftRunning n (current rounds ++ visits) else []) ∧
      answer = stopped.getD (if leftRunning n (current rounds ++ visits) = []
        then otherwise ((List.range n).map (stateIn (current rounds ++ visits))) else .running)
  | .reset fire dealings => dealings = resetsOf d fire (leftRunning n (current rounds))

section
variable {n d : Nat} {rounds : List Round} {slot : Slot σ} {answer : Status} {visits : List Visit}
  {resets : List Nat} {dealings : List Dealing} {fire : Bool}

theorem Remembers.start : Remembers n [] (.idle : Slot σ) := ⟨.nil, .inl ⟨rfl, rfl⟩⟩

theorem Remembers.states (h : Remembers n rounds slot) :
    slot.childStates n = (List.range n).map (stateIn (current rounds)) := by
  rcases h.slot with ⟨rfl, none⟩ | rfl
  · rw [none]
    exact List.ext_getElem (by simp [Slot.childStates]) (by simp [Slot.childStates])
  · simp [Slot.childStates]

/-- The run is over. -/
theorem Remembers.closed {round : Round} (closes : round.closes = true) :
    Remembers n (rounds ++ [round]) (.idle : Slot σ) := by
  refine ⟨?_, .inl ⟨rfl, current_closed closes⟩⟩
  rw [current_closed closes]
  exact .nil

/-- Of no children nothing is remembered anyhow. -/
theorem Remembers.closed_empty {round : Round} (h : Remembers 0 rounds slot) (closes : round.closes = true) :
    Remembers 0 (rounds ++ [round]) slot := by
  refine ⟨?_, h.slot.imp (fun idle => ⟨idle.1, current_closed closes⟩) id⟩
  rw [current_closed closes]
  exact .nil

/-- The run goes on. -/
theorem Remembers.open (steady : Steady (current rounds ++ visits)) (quiet : ∀ v ∈ visits, v.asked = false) :
    Remembers n (rounds ++ [Round.tick (visits.map .ticked) .running])
      (.children ((List.range n).map (stateIn (current rounds ++ visits))) : Slot σ) := by
  refine ⟨?_, .inr ?_⟩ <;> rw [current_open quiet]
  exact steady

theorem JoinPolicy.result_isTerminal {policy : JoinPolicy} {states : List ChildState} :
    (policy.result states).isTerminal = true := by
  unfold result Status.ofBool
  split <;> rfl

theorem running_mem_states : .running ∈ (List.range n).map (stateIn visits) ↔ leftRunning n visits ≠ [] := by
  simp only [leftRunning, ne_eq, List.filter_eq_nil_iff, List.mem_map, List.mem_range, decide_eq_true_eq,
    stateIn_running]
  simp only [not_forall, not_not, exists_prop]

end

namespace Behaviour

section
variable {cell : Cell ρ σ} {d : Nat} {children : List (Behaviour ρ μ σ)} (holds : cell.Holds d)
  (apart : ∀ child ∈ children, child.Apart cell d)
include holds apart

omit apart in
/-- The states are remembered if a child is running. -/
theorem keepRunning_settles {states : List ChildState} {otherwise : Status} {dealings : List Dealing}
    {m : Machine (Ledger ρ) μ σ} (h : Booked cell d .idle dealings m) :
    Settles (fun status k => .running ∈ states ∧ status = .running ∧ Booked cell d (.children states) dealings k ∨
        .running ∉ states ∧ status = otherwise ∧ Booked cell d .idle dealings k)
      (keepRunning cell.booked d states otherwise m) := by
  unfold keepRunning
  split
  · next running => exact .ok (.inl ⟨running, rfl, h.set holds⟩)
  · next none => exact .ok (.inr ⟨none, rfl, h⟩)

/-- A reset of such a node. -/
theorem resetTracked_settles {rounds : List Round} {slot : Slot σ} {fire : Bool} {m : Machine (Ledger ρ) μ σ}
    (remembers : Remembers children.length rounds slot) (h : Booked cell d slot [] m) :
    Settles (fun _ k => k.runs.dealings = resetsOf d fire (leftRunning children.length (current rounds)) ∧
        cell.get k.runs.below d = .idle) (resetTracked cell.booked (bookedAll children) d fire m) := by
  have reset := h.reset holds
  rw [resetTracked_apply, show cell.booked.get m.runs d = slot from h.slot]
  rcases remembers.slot with ⟨rfl, none⟩ | rfl
  · refine .ok ⟨?_, reset.slot⟩
    rw [reset.dealings, none]
    simp [leftRunning, resetsOf]
  · dsimp only
    rw [List.range_eq_range', zip_bookedFrom]
    refine (abort_settles apart reset).mono fun _ k came => ⟨?_, came.slot⟩
    rw [came.dealings, leftRunning_eq, List.nil_append]

/-- What it takes for the node to keep to its law: what stops it, and what it answers when no child is running, is
terminal. -/
theorem visitAll_abides {stop : Status → Bool} {otherwise : List ChildState → Status}
    (stops : ∀ status, stop status = true → status.isTerminal = true)
    (ends : ∀ states, (otherwise states).isTerminal = true) :
    Abides cell d ⟨visitAll cell.booked stop otherwise (bookedAll children),
        resetTracked cell.booked (bookedAll children)⟩
      (Remembers children.length) (SideBySide stop otherwise children.length d) where
  start := .start
  reset rounds slot fire m remembers h := by
    refine (resetTracked_settles holds apart remembers h).mono fun _ k came => ⟨came.1, ?_⟩
    rw [came.2]
    exact .closed rfl
  tick rounds slot m remembers depth h := by
    show Settles _ ((Run.depth >>= _) m)
    rw [Run.depth_bind, Cell.take_bind, depth, show cell.booked.get m.runs d = slot from h.slot]
    have length : (bookedAll children).length = children.length := length_bookedFrom
    rw [length, remembers.states, List.range_eq_range', zip_bookedFrom]
    have begun : Midway cell d .idle [] (m.onRuns (cell.booked.reset · d)) := ⟨h.reset holds, depth⟩
    have steady : Steady (current rounds ++ []) := by simpa using remembers.steady
    have passes := visit_settles stop [] children apart steady begun
    rw [List.append_nil, List.length_nil, ← unfinished_eq] at passes
    refine passes.bind fun result k passed => ?_
    rcases passed.outcome with ⟨visits, status, pass, rfl, came⟩ | ⟨visits, pass, rfl, came⟩
    · refine .ok ⟨⟨visits, some status, pass, came.steady, came.booked.dealings, rfl⟩, ?_⟩
      rw [came.booked.slot, came.booked.dealings]
      exact .closed (pass.closes stops)
    · refine (keepRunning_settles holds came.booked).mono fun status k kept => ?_
      rcases kept with ⟨running, rfl, kept⟩ | ⟨idle, rfl, kept⟩
      · have going := running_mem_states.mp running
        refine ⟨⟨visits, none, pass, came.steady, by simp [kept.dealings, resetsOf], (if_neg going).symm⟩, ?_⟩
        rw [kept.slot, kept.dealings]
        exact .open came.steady pass.quiet
      · have finished := not_not.mp (mt running_mem_states.mpr idle)
        refine ⟨⟨visits, none, pass, came.steady, by simp [kept.dealings, resetsOf], (if_pos finished).symm⟩, ?_⟩
        rw [kept.slot]
        exact .closed (by simp [Round.closes, ends])

theorem parallel_abides (policy : ParallelPolicy) :
    Abides cell d (parallel cell.booked policy (bookedAll children)) (Remembers children.length)
      (SideBySide (· = policy.decisive.status) (fun _ => policy.decisive.flip.status) children.length d) :=
  visitAll_abides holds apart (by simp) (by simp)

theorem join_abides (policy : JoinPolicy) :
    Abides cell d (join cell.booked policy (bookedAll children)) (Remembers children.length)
      (SideBySide (fun _ => false) policy.result children.length d) :=
  visitAll_abides holds apart (by simp) fun _ => policy.result_isTerminal

end

end Behaviour

/-! ## The law of a race -/

/-- Of the first `n` children, those that were left running, but for the child that was ticked last. -/
def rivals (n : Nat) (visits : List Visit) : List Nat :=
  (leftRunning n visits).filter fun child => visits.getLast?.map (·.child) ≠ some child

section
variable {visits : List Visit} {v : Visit} {n : Nat}

theorem rivals_snoc : rivals n (visits ++ [v]) = (List.range' 0 n).filter fun i =>
    (if i = v.child then .finished v.status else stateIn visits i) = .running := by
  rw [rivals, leftRunning_eq, List.filter_filter, List.getLast?_concat]
  refine List.filter_congr fun i _ => ?_
  rw [stateIn_snoc]
  by_cases here : i = v.child
  · simp [here]
  · simp [here, Ne.symm here]

/-- If it has ended, it does not count anyhow. -/
theorem rivals_of_terminal (terminal : v.status.isTerminal = true) :
    rivals n (visits ++ [v]) = leftRunning n (visits ++ [v]) := by
  refine List.filter_eq_self.mpr fun child among => ?_
  rw [List.getLast?_concat]
  by_cases here : v.child = child
  · have running := of_decide_eq_true (List.mem_filter.mp among).2
    rw [answers_snoc, if_pos here, List.getLast?_concat, Option.some.injEq] at running
    exact absurd running (Status.isTerminal_iff.mp terminal)
  · simpa using here

end

/-- What a race remembers. In a run in progress no child has ended. -/
structure Contends (n : Nat) (rounds : List Round) (slot : Slot σ) : Prop extends Remembers n rounds slot where
  running : ∀ v ∈ current rounds, v.status = .running

/-- A tick goes along all children up to the first that ends. A race without children fails at once. -/
def FirstToEnd (n d : Nat) (rounds : List Round) : Round → Prop
  | .tick dealings answer => ∃ visits stopped,
      Pass (Visit.Stops Status.isTerminal) (List.range n) visits stopped ∧
      dealings = visits.map .ticked ++
        resetsOf d true (if stopped.isSome then rivals n (current rounds ++ visits) else []) ∧
      answer = stopped.getD (if n = 0 then .failure else .running)
  | .reset fire dealings => dealings = resetsOf d fire (leftRunning n (current rounds))

section
variable {n : Nat} {rounds : List Round} {slot : Slot σ} {round : Round} (closes : round.closes = true)
include closes

theorem Contends.closed : Contends n (rounds ++ [round]) (.idle : Slot σ) :=
  ⟨.closed closes, by simp [current_closed closes]⟩

theorem Contends.closed_empty (h : Remembers 0 rounds slot) : Contends 0 (rounds ++ [round]) slot :=
  ⟨h.closed_empty closes, by simp [current_closed closes]⟩

end

theorem Steady.of_running {visits : List Visit} (running : ∀ v ∈ visits, v.status = .running) : Steady visits := by
  intro child status among
  obtain ⟨asked, among⟩ := mem_answers.mp (List.dropLast_subset _ among)
  exact running _ among

namespace Behaviour

section
variable {cell : Cell ρ σ} {d : Nat} {run visits : List Visit} {m : Machine (Ledger ρ) μ σ}

/-- The children in `front` have been ticked and are all running. -/
theorem raceFrom_settles (holds : cell.Holds d) (front rest : List (Behaviour ρ μ σ))
    (apart : ∀ child ∈ front ++ rest, child.Apart cell d) (running : ∀ v ∈ run ++ visits, v.status = .running)
    (h : Midway cell d .idle visits m) :
    Settles (fun answer k => Passed (Visit.Stops Status.isTerminal)
        (fun visits status => answer = status ∧ Booked cell d .idle
          (visits.map .ticked ++ resetsOf d true (rivals (front ++ rest).length (run ++ visits))) k)
        (fun visits => answer = .running ∧ (∀ v ∈ run ++ visits, v.status = .running) ∧ Booked cell d
          (.children ((List.range (front ++ rest).length).map (stateIn (run ++ visits)))) (visits.map .ticked) k)
        visits (List.range' front.length rest.length))
      (raceFrom cell.booked d (trackedFrom (stateIn (run ++ visits)) 0 front)
        (trackedFrom (stateIn (run ++ visits)) front.length rest) m) := by
  induction rest generalizing front visits m with
  | nil =>
    refine .ok (.done ⟨rfl, running, ?_⟩)
    rw [List.append_nil, List.range_eq_range', ← trackedFrom_states]
    exact h.toBooked.set holds
  | cons child rest ih =>
    have regroup : front ++ child :: rest = (front ++ [child]) ++ rest := by simp
    have number : (front ++ [child]).length = front.length + 1 := by simp
    rw [regroup] at apart ⊢
    rw [List.length_cons, trackedFrom_cons, List.range'_succ]
    refine (h.ticks (apart child (by simp)) front.length).bind fun status n came => ?_
    obtain ⟨v, here, rfl, returns, came⟩ := came
    rw [Run.returning_bind, returns]
    by_cases ends : v.Stops Status.isTerminal
    · rw [if_pos (by simpa [Visit.Stops, or_comm] using ends),
        List.append_cons (trackedFrom (stateIn (run ++ visits)) 0 front)]
      let ended i := if i = v.child then ChildState.finished v.status else stateIn (run ++ visits) i
      have now : ended front.length = .finished v.status := if_pos here.symm
      have others : ∀ i, i ≠ front.length → stateIn (run ++ visits) i = ended i :=
        fun i other => (if_neg (by omega)).symm
      obtain ⟨seen, ahead⟩ := trackedFrom_seen front rest child now others
      rw [seen, ahead, ← trackedFrom_split, ← here]
      refine (abort_settles apart came.toBooked).bind fun _ k aborted => .ok (.ended ends ⟨rfl, ?_⟩)
      rw [← List.append_assoc, rivals_snoc]
      exact aborted
    · have goes : v.status = .running := by simpa [Status.isTerminal_iff] using mt .inr ends
      have running' : ∀ w ∈ run ++ (visits ++ [v]), w.status = .running := by
        intro w among
        rw [← List.append_assoc, List.mem_append, List.mem_singleton] at among
        rcases among with among | rfl
        · exact running w among
        · exact goes
      obtain ⟨seen, ahead⟩ := trackedFrom_visited front rest child here
      rw [goes] at seen
      rw [if_neg (by simpa [Visit.Stops, or_comm] using ends)]
      show Settles _ (raceFrom cell.booked d (_ ++ [(_, ChildState.after .running)]) _ n)
      rw [seen, ahead, ← here]
      refine (ih (front ++ [child]) apart running' came).mono fun answer k later => .on ends ?_
      rwa [number, ← here] at later

end

section
variable {cell : Cell ρ σ} {d : Nat} {children : List (Behaviour ρ μ σ)} (holds : cell.Holds d)
  (apart : ∀ child ∈ children, child.Apart cell d)
include holds apart

theorem race_abides : Abides cell d (race cell.booked (bookedAll children)) (Contends children.length)
    (FirstToEnd children.length d) where
  start := ⟨.start, nofun⟩
  reset rounds slot fire m remembers h := by
    refine (resetTracked_settles holds apart remembers.toRemembers h).mono fun _ k came => ⟨came.1, ?_⟩
    rw [came.2]
    exact .closed rfl
  tick rounds slot m remembers depth h := by
    by_cases empty : children = []
    · subst empty
      refine .ok ⟨⟨[], none, .done, h.dealings, rfl⟩, ?_⟩
      rw [h.slot]
      exact .closed_empty rfl remembers.toRemembers
    · have booked : (bookedAll children).isEmpty = false := by
        cases children with
        | nil => exact absurd rfl empty
        | cons => rfl
      have length : (bookedAll children).length = children.length := length_bookedFrom
      have positive : children.length ≠ 0 := by simpa using empty
      show Settles _ ((if (bookedAll children).isEmpty = true then _ else (Run.depth >>= _)) m)
      rw [booked, if_neg Bool.false_ne_true, Run.depth_bind, Cell.take_bind, depth,
        show cell.booked.get m.runs d = slot from h.slot, length, remembers.states, List.range_eq_range',
        zip_bookedFrom]
      have begun : Midway cell d .idle [] (m.onRuns (cell.booked.reset · d)) := ⟨h.reset holds, depth⟩
      have running : ∀ v : Visit, v ∈ current rounds ++ [] → v.status = .running := by simpa using remembers.running
      have passes := raceFrom_settles holds [] children apart running begun
      rw [List.append_nil, List.length_nil, ← List.range_eq_range'] at passes
      refine passes.mono fun answer k passed => ?_
      rcases passed.outcome with ⟨visits, status, pass, rfl, came⟩ | ⟨visits, pass, rfl, running, came⟩
      · refine ⟨⟨visits, some answer, pass, came.dealings, rfl⟩, ?_⟩
        rw [came.slot, came.dealings]
        exact .closed (pass.closes fun _ => id)
      · refine ⟨⟨visits, none, pass, by simp [came.dealings, resetsOf], by simp [positive]⟩, ?_⟩
        rw [came.slot, came.dealings]
        refine ⟨.open (.of_running running) pass.quiet, ?_⟩
        rwa [current_open pass.quiet]

end

end Behaviour

/-! ## What one tick does -/

/-- A tick of `parallel` in which no return is requested, with this run behind it. -/
def ParallelTick (policy : ParallelPolicy) (n d : Nat) (run : List Visit) (dealings : List Dealing) (answer : Status) :
    Prop :=
  ∃ visits stopped, Pass (fun v => v.status = policy.decisive.status) (unfinished n run) visits stopped ∧
    answer = stopped.getD (if unfinished n (run ++ visits) = [] then policy.decisive.flip.status else .running) ∧
    dealings = visits.map .ticked ++
      resetsOf d true (if answer.isTerminal then leftRunning n (run ++ visits) else [])

/-- A tick of `race` in which no return is requested. -/
def RaceTick (n d : Nat) (run : List Visit) (dealings : List Dealing) (answer : Status) : Prop :=
  ∃ visits stopped, Pass (·.status.isTerminal = true) (List.range n) visits stopped ∧
    answer = stopped.getD (if n = 0 then .failure else .running) ∧
    dealings = visits.map .ticked ++
      resetsOf d true (if answer.isTerminal then leftRunning n (run ++ visits) else [])

section
variable {n d : Nat} {rounds : List Round} {dealings : List Dealing} {answer : Status}

theorem SideBySide.parallelTick {policy : ParallelPolicy} (quiet : Quiet dealings)
    (h : SideBySide (· = policy.decisive.status) (fun _ => policy.decisive.flip.status) n d rounds
      (.tick dealings answer)) : ParallelTick policy n d (current rounds) dealings answer := by
  obtain ⟨visits, stopped, pass, steady, rfl, rfl⟩ := h
  have silent := quiet_iff.mp quiet
  have pass' : Pass (fun v => v.status = policy.decisive.status) (unfinished n (current rounds)) visits stopped :=
    pass.congr fun v among => by simp [Visit.Stops, silent v among]
  refine ⟨visits, stopped, pass', ?_⟩
  cases stopped with
  | some status =>
    obtain ⟨_, v, _, rfl, decisive, _⟩ := pass'.last
    simp [decisive]
  | none =>
    rw [← steady.leftRunning_eq_unfinished pass'.complete.1]
    by_cases finished : leftRunning n (current rounds ++ visits) = []
    · simp [finished]
    · simp [finished, Status.isTerminal, Status.isRunning]

theorem FirstToEnd.raceTick (quiet : Quiet dealings) (h : FirstToEnd n d rounds (.tick dealings answer)) :
    RaceTick n d (current rounds) dealings answer := by
  obtain ⟨visits, stopped, pass, rfl, rfl⟩ := h
  have silent := quiet_iff.mp quiet
  have pass' : Pass (·.status.isTerminal = true) (List.range n) visits stopped :=
    pass.congr fun v among => by simp [Visit.Stops, silent v among]
  refine ⟨visits, stopped, pass', rfl, ?_⟩
  cases stopped with
  | some status =>
    obtain ⟨earlier, v, rfl, rfl, terminal, _⟩ := pass'.last
    rw [← List.append_assoc, rivals_of_terminal terminal]
    simp [terminal]
  | none =>
    by_cases empty : n = 0
    · simp [empty, leftRunning]
    · simp [empty, Status.isTerminal, Status.isRunning]

end

/-- Once all children have ended, this decides the answer of a join. -/
def JoinPolicy.Satisfied (n : Nat) (visits : List Visit) : JoinPolicy → Prop
  | .all => ∀ child < n, .success ∈ answers child visits
  | .any => ∃ child < n, .success ∈ answers child visits

/-- A tick of `join` in which no return is requested, with this run behind it. -/
def JoinTick (policy : JoinPolicy) (n : Nat) (run : List Visit) (dealings : List Dealing) (answer : Status) : Prop :=
  ∃ visits, dealings = visits.map .ticked ∧ visits.map (·.child) = unfinished n run ∧ Steady (run ++ visits) ∧
    (answer.isTerminal = true ↔ unfinished n (run ++ visits) = []) ∧
    (answer.isTerminal = true → (answer = .success ↔ policy.Satisfied n (run ++ visits)))

/-- A tick of `join` in which a child asks to return. -/
def JoinLeaves (n d : Nat) (run : List Visit) (dealings : List Dealing) (answer : Status) : Prop :=
  ∃ earlier last, last.asked = true ∧ last.status = answer ∧ (∀ v ∈ earlier, v.asked = false) ∧
    (earlier ++ [last]).map (·.child) <+: unfinished n run ∧
    dealings = (earlier ++ [last]).map .ticked ++ resetsOf d true (leftRunning n (run ++ (earlier ++ [last])))

section
variable {n d : Nat} {rounds : List Round} {visits : List Visit} {dealings : List Dealing} {answer : Status}

theorem JoinPolicy.result_success {policy : JoinPolicy} (steady : Steady visits) :
    policy.result ((List.range n).map (stateIn visits)) = .success ↔ policy.Satisfied n visits := by
  have succeeded (child : Nat) : stateIn visits child = .finished .success ↔ .success ∈ answers child visits := by
    simp [steady.stateIn_finished, Status.isTerminal, Status.isRunning]
  have decided (b : Bool) : Status.ofBool b = .success ↔ b = true := by cases b <;> simp [Status.ofBool]
  rw [result, decided]
  cases policy with
  | all =>
    rw [met, decide_eq_true_iff, List.count_eq_length, List.forall_mem_map]
    simp [Satisfied, ← succeeded, eq_comm]
  | any =>
    rw [met, decide_eq_true_iff, List.count_pos_iff]
    simp [Satisfied, ← succeeded]

theorem SideBySide.joinTick {policy : JoinPolicy} (quiet : Quiet dealings)
    (h : SideBySide (fun _ => false) policy.result n d rounds (.tick dealings answer)) :
    JoinTick policy n (current rounds) dealings answer := by
  obtain ⟨visits, stopped, pass, steady, rfl, rfl⟩ := h
  have silent := quiet_iff.mp quiet
  cases stopped with
  | some status =>
    obtain ⟨earlier, v, rfl, -, asked | never, -⟩ := pass.last
    · simp [silent v (by simp)] at asked
    · cases never
  | none =>
    have visited := pass.complete.1
    refine ⟨visits, by simp [resetsOf], visited, steady, ?_⟩
    rw [← steady.leftRunning_eq_unfinished visited]
    by_cases finished : leftRunning n (current rounds ++ visits) = []
    · simp [finished, policy.result_isTerminal, policy.result_success steady]
    · simp [finished, Status.isTerminal, Status.isRunning]

theorem SideBySide.joinLeaves {policy : JoinPolicy} (loud : ¬ Quiet dealings)
    (h : SideBySide (fun _ => false) policy.result n d rounds (.tick dealings answer)) :
    JoinLeaves n d (current rounds) dealings answer := by
  obtain ⟨visits, stopped, pass, -, rfl, rfl⟩ := h
  cases stopped with
  | some status =>
    obtain ⟨earlier, last, rfl, rfl, asked | never, before⟩ := pass.last
    · refine ⟨earlier, last, asked, rfl, fun v among => ?_, pass.order, by simp⟩
      simpa using fun asked => before v among (.inl asked)
    · cases never
  | none => exact absurd (quiet_iff.mpr pass.quiet) loud

end

namespace Behaviour

section
variable {cell : Cell ρ σ} {d : Nat} {children : List (Behaviour ρ μ σ)}

/-- Nodes that run their children side by side until they are decided. In a run without requests to return, a tick of
`parallel` goes in order along the children that have not ended, up to one with the decisive answer, and a tick of
`race` along all of them up to one that ends. What ends the node cancels the children that were left running, each once
and in order, and no other. -/
theorem decided_cancels (holds : cell.Holds d) (apart : ∀ child ∈ children, child.Apart cell d) :
    (∀ policy rounds m, Due cell d (parallel cell.booked policy (bookedAll children)) rounds m →
      Settles (fun answer k => Quiet k.runs.dealings →
          ParallelTick policy children.length d (current rounds) k.runs.dealings answer)
        ((parallel cell.booked policy (bookedAll children)).tick m)) ∧
      ∀ rounds m, Due cell d (race cell.booked (bookedAll children)) rounds m →
        Settles (fun answer k => Quiet k.runs.dealings →
            RaceTick children.length d (current rounds) k.runs.dealings answer)
          ((race cell.booked (bookedAll children)).tick m) := by
  constructor
  · intro policy rounds m due
    exact ((parallel_abides holds apart policy).next_tick due).mono fun _ _ lawful quiet => lawful.parallelTick quiet
  · intro rounds m due
    exact ((race_abides holds apart).next_tick due).mono fun _ _ lawful quiet => lawful.raceTick quiet

/-- All three children are ticked, and all but the second are running afterwards. -/
def firstRound (second : Status) : Round :=
  .tick [.ticked ⟨0, .running, false⟩, .ticked ⟨1, second, false⟩, .ticked ⟨2, .running, false⟩] .running

/-- The third child fails, so the first is cancelled, but not the second, which has ended before. In a race, the second
child ends while the others are running. -/
theorem decided_cancels_trio :
    (∃ m k, Due Cell.alone 0 (parallel Cell.alone.booked .all (bookedAll trio)) [firstRound .success] m ∧
        (parallel Cell.alone.booked .all (bookedAll trio)).tick m = .ok .failure k ∧
        k.runs.dealings = [.ticked ⟨0, .running, false⟩, .ticked ⟨2, .failure, false⟩, .reset 0 0 true] ∧
        ParallelTick .all 3 0 (current [firstRound .success]) k.runs.dealings .failure) ∧
      ∃ m k, Due Cell.alone 0 (race Cell.alone.booked (bookedAll trio)) [firstRound .running] m ∧
        (race Cell.alone.booked (bookedAll trio)).tick m = .ok .success k ∧
        k.runs.dealings = [.ticked ⟨0, .running, false⟩, .ticked ⟨1, .success, false⟩, .reset 0 0 true,
          .reset 2 0 true] ∧
        RaceTick 3 0 (current [firstRound .running]) k.runs.dealings .success := by
  have cancels := decided_cancels (Cell.alone_holds (d := 0)) trio_apart
  constructor
  · have ran : ((parallel Cell.alone.booked .all (bookedAll trio)).inARow 0 2 (.scripted [(.running, false),
        (.success, false), (.running, false), (.running, false), (.failure, false)])).map (·.1) =
        some ([firstRound .success] ++ [Round.tick [.ticked ⟨0, .running, false⟩, .ticked ⟨2, .failure, false⟩,
          .reset 0 0 true] .failure]) := by decide +kernel
    obtain ⟨m, k, due, ok, dealt⟩ := inARow_last .scripted ran
    exact ⟨m, k, due, ok, dealt, (cancels.1 .all _ m due).of_ok ok (by rw [dealt]; decide)⟩
  · have ran : ((race Cell.alone.booked (bookedAll trio)).inARow 0 2 (.scripted [(.running, false),
        (.running, false), (.running, false), (.running, false), (.success, false)])).map (·.1) =
        some ([firstRound .running] ++ [Round.tick [.ticked ⟨0, .running, false⟩, .ticked ⟨1, .success, false⟩,
          .reset 0 0 true, .reset 2 0 true] .success]) := by decide +kernel
    obtain ⟨m, k, due, ok, dealt⟩ := inARow_last .scripted ran
    exact ⟨m, k, due, ok, dealt, (cancels.2 _ m due).of_ok ok (by rw [dealt]; decide)⟩

/-- A join ticks all its children in order until each has ended, and none again after that. It ends with the last of
them, as its policy says. Nothing is reset, unless a child asks to return: this one is ticked last, and what was left
running is cancelled. -/
theorem join_waits_for_all (holds : cell.Holds d) (apart : ∀ child ∈ children, child.Apart cell d)
    (policy : JoinPolicy) (rounds : List Round) (m : Machine (Ledger ρ) μ σ)
    (due : Due cell d (join cell.booked policy (bookedAll children)) rounds m) :
    Settles (fun answer k =>
        (Quiet k.runs.dealings → JoinTick policy children.length (current rounds) k.runs.dealings answer) ∧
        (¬ Quiet k.runs.dealings → JoinLeaves children.length d (current rounds) k.runs.dealings answer))
      ((join cell.booked policy (bookedAll children)).tick m) :=
  ((join_abides holds apart policy).next_tick due).mono fun _ _ lawful =>
    ⟨fun quiet => lawful.joinTick quiet, fun loud => lawful.joinLeaves loud⟩

/-- The second child has ended; the others end in the next tick, and one of them failed. If the third child asks to
return instead, it is ticked last, and those that are running are cancelled, itself included. -/
theorem join_waits_for_trio :
    (∃ m k, Due Cell.alone 0 (join Cell.alone.booked .any (bookedAll trio)) [firstRound .success] m ∧
        (join Cell.alone.booked .any (bookedAll trio)).tick m = .ok .success k ∧
        k.runs.dealings = [.ticked ⟨0, .failure, false⟩, .ticked ⟨2, .failure, false⟩] ∧
        JoinTick .any 3 (current [firstRound .success]) k.runs.dealings .success) ∧
      ∃ m k, Due Cell.alone 0 (join Cell.alone.booked .any (bookedAll trio)) [firstRound .success] m ∧
        (join Cell.alone.booked .any (bookedAll trio)).tick m = .ok .running k ∧
        k.runs.dealings = [.ticked ⟨0, .running, false⟩, .ticked ⟨2, .running, true⟩, .reset 0 0 true,
          .reset 2 0 true] ∧
        JoinLeaves 3 0 (current [firstRound .success]) k.runs.dealings .running := by
  have waits := join_waits_for_all (Cell.alone_holds (d := 0)) trio_apart .any [firstRound .success]
  constructor
  · have ran : ((join Cell.alone.booked .any (bookedAll trio)).inARow 0 2 (.scripted [(.running, false),
        (.success, false), (.running, false), (.failure, false), (.failure, false)])).map (·.1) =
        some ([firstRound .success] ++ [Round.tick [.ticked ⟨0, .failure, false⟩, .ticked ⟨2, .failure, false⟩]
          .success]) := by decide +kernel
    obtain ⟨m, k, due, ok, dealt⟩ := inARow_last .scripted ran
    exact ⟨m, k, due, ok, dealt, ((waits m due).of_ok ok).1 (by rw [dealt]; decide)⟩
  · have ran : ((join Cell.alone.booked .any (bookedAll trio)).inARow 0 2 (.scripted [(.running, false),
        (.success, false), (.running, false), (.running, false), (.running, true)])).map (·.1) =
        some ([firstRound .success] ++ [Round.tick [.ticked ⟨0, .running, false⟩, .ticked ⟨2, .running, true⟩,
          .reset 0 0 true, .reset 2 0 true] .running]) := by decide +kernel
    obtain ⟨m, k, due, ok, dealt⟩ := inARow_last .scripted ran
    exact ⟨m, k, due, ok, dealt, ((waits m due).of_ok ok).2 (by rw [dealt]; decide)⟩

end

end Behaviour

end BehaviorTree
