/-
  BehaviorTree.Proofs.Rounds.Ordered: children that run one after the other, round by round.

  In a run the node stays at a child while this one answers running, and goes on to the next one
  when it passes (`Walk`). What the node remembers is the child at which the walk stands. A tick
  walks on from there (`OneByOne`), and the walk gives the blocks of ticks of each child
  (`Walk.blocks`).
-/

import BehaviorTree.Proofs.Flattening.Ordered
import BehaviorTree.Proofs.Rounds

namespace BehaviorTree

variable {ρ μ σ : Type}

theorem Verdict.status_ne_running (v : Verdict) : v.status ≠ .running :=
  Status.isTerminal_iff.mp (Status.isTerminal_status v)

theorem Verdict.status_ne_flip (v : Verdict) : v.status ≠ v.flip.status := by cases v <;> nofun

theorem Status.eq_flip {s : Status} {v : Verdict} (ended : s ≠ .running) (other : s ≠ v.status) :
    s = v.flip.status := by
  cases s <;> cases v <;> first | rfl | contradiction

/-! ## Walks along the children -/

/-- The node goes from child `i` to child `j` and is to tick that one next. -/
inductive Walk (pass : Verdict) : (i : Nat) → List Visit → (j : Nat) → Prop
  | here {i : Nat} : Walk pass i [] i
  | waits {v : Visit} {visits : List Visit} {j : Nat} : v.status = .running → Walk pass v.child visits j →
      Walk pass v.child (v :: visits) j
  | passes {v : Visit} {visits : List Visit} {j : Nat} : v.status = pass.status →
      Walk pass (v.child + 1) visits j → Walk pass v.child (v :: visits) j

namespace Walk

variable {pass : Verdict} {i j k : Nat} {xs ys visits : List Visit} {v : Visit}

theorem append (h : Walk pass i xs j) (rest : Walk pass j ys k) : Walk pass i (xs ++ ys) k := by
  induction h with
  | here => exact rest
  | waits running _ ih => exact .waits running (ih rest)
  | passes passed _ ih => exact .passes passed (ih rest)

theorem running (running : v.status = .running) : Walk pass v.child [v] v.child := .waits running .here

theorem le (h : Walk pass i visits j) : i ≤ j := by
  induction h with
  | here => exact Nat.le_refl _
  | waits _ _ ih => exact ih
  | passes _ _ ih => omega

/-- The children that are visited lie on the way. One that has ended is behind the node. -/
theorem between (h : Walk pass i visits j) : ∀ v ∈ visits, i ≤ v.child ∧ v.child ≤ j ∧
    (v.status.isTerminal = true → v.child < j) := by
  induction h with
  | here => simp
  | @waits w _ _ running rest ih =>
    intro v among
    rcases List.mem_cons.mp among with rfl | among
    · exact ⟨Nat.le_refl _, rest.le, by simp [running, Status.isTerminal, Status.isRunning]⟩
    · exact ih v among
  | @passes w _ _ _ rest ih =>
    intro v among
    rcases List.mem_cons.mp among with rfl | among
    · exact ⟨Nat.le_refl _, Nat.le_of_succ_le rest.le, fun _ => rest.le⟩
    · obtain ⟨above, below, ended⟩ := ih v among
      exact ⟨Nat.le_of_succ_le above, below, ended⟩

/-- Every child on the way has passed. -/
theorem passed (h : Walk pass i visits j) {child : Nat} (above : i ≤ child) (below : child < j) :
    ∃ v ∈ visits, v.child = child ∧ v.status = pass.status := by
  induction h with
  | here => omega
  | waits _ _ ih =>
    obtain ⟨v, among, found⟩ := ih above below
    exact ⟨v, List.mem_cons_of_mem _ among, found⟩
  | @passes w _ _ passed _ ih =>
    by_cases here : w.child = child
    · exact ⟨w, List.mem_cons_self, here, passed⟩
    · obtain ⟨v, among, found⟩ := ih (by omega) below
      exact ⟨v, List.mem_cons_of_mem _ among, found⟩

/-- No child is visited again after it has ended. -/
theorem once (h : Walk pass i visits j) :
    visits.Pairwise fun v w => v.status.isTerminal = true → w.child ≠ v.child := by
  induction h with
  | here => exact .nil
  | waits running _ ih => exact .cons (fun _ _ ended => absurd running (Status.isTerminal_iff.mp ended)) ih
  | passes _ rest ih =>
    refine .cons (fun w among _ => ?_) ih
    have ahead := (rest.between w among).1
    omega

end Walk

/-- Each child is ticked while it is running, so often as `waits` says, and then passes. The one after them is ticked so
often while it is running, and may then have ended the run with another verdict. -/
def inBlocks (pass : Verdict) (first : Nat) (waits : List Nat) (last : Nat) (ended : Bool) : List (Nat × Status) :=
  ((waits.zipIdx first).flatMap fun (count, child) => .replicate count (child, .running) ++ [(child, pass.status)]) ++
    .replicate last (first + waits.length, .running) ++
    if ended then [(first + waits.length, pass.flip.status)] else []

/-- Which child was ticked, and what it answered. -/
def Visit.told (v : Visit) : Nat × Status := (v.child, v.status)

theorem Walk.blocks {pass : Verdict} {i j : Nat} {visits : List Visit} (h : Walk pass i visits j) :
    ∃ waits last, i + waits.length = j ∧ visits.map Visit.told = inBlocks pass i waits last false := by
  induction h with
  | here => exact ⟨[], 0, rfl, rfl⟩
  | @waits v _ _ running _ ih =>
    obtain ⟨waits, last, ends, told⟩ := ih
    cases waits with
    | nil =>
      refine ⟨[], last + 1, ends, ?_⟩
      simp [told, inBlocks, List.replicate_succ, Visit.told, running]
    | cons count waits =>
      refine ⟨(count + 1) :: waits, last, ends, ?_⟩
      simp [told, inBlocks, List.replicate_succ, Visit.told, running]
  | @passes v _ _ passed _ ih =>
    obtain ⟨waits, last, ends, told⟩ := ih
    refine ⟨0 :: waits, last, by simp only [List.length_cons]; omega, ?_⟩
    simp [told, inBlocks, Visit.told, passed, Nat.add_assoc, Nat.add_comm 1]

/-- The ticks of a run: a walk, which the last child may have ended. -/
def Walked (pass : Verdict) (visits : List Visit) : Prop :=
  (∃ j, Walk pass 0 visits j) ∨
    ∃ front v, visits = front ++ [v] ∧ Walk pass 0 front v.child ∧ v.status = pass.flip.status

namespace Walked

variable {pass : Verdict} {visits : List Visit} (h : Walked pass visits)
include h

theorem blocks : ∃ waits last ended, visits.map Visit.told = inBlocks pass 0 waits last ended := by
  rcases h with ⟨j, walk⟩ | ⟨front, v, rfl, walk, ended⟩
  · obtain ⟨waits, last, -, told⟩ := walk.blocks
    exact ⟨waits, last, false, told⟩
  · obtain ⟨waits, last, here, told⟩ := walk.blocks
    refine ⟨waits, last, true, ?_⟩
    rw [List.map_append, told]
    simp [inBlocks, Visit.told, ended, here]

theorem once : visits.Pairwise fun v w => v.status.isTerminal = true → w.child ≠ v.child := by
  rcases h with ⟨j, walk⟩ | ⟨front, v, rfl, walk, -⟩
  · exact walk.once
  · refine List.pairwise_append.mpr ⟨walk.once, List.pairwise_singleton _ _, fun w among last same ended => ?_⟩
    rw [List.mem_singleton.mp same]
    exact Nat.ne_of_gt ((walk.between w among).2.2 ended)

end Walked

/-! ## One tick -/

/-- What the node remembers after these visits: the child that is running, unless it asked to return. -/
def resumed (visits : List Visit) : Slot σ :=
  match visits.getLast? with
  | some v => if v.asked || v.status.isTerminal then .idle else .child v.child
  | none => .idle

theorem resumed_snoc {visits : List Visit} {v : Visit} :
    resumed (visits ++ [v]) = if v.asked || v.status.isTerminal then .idle else (.child v.child : Slot σ) := by
  simp [resumed]

namespace Behaviour

theorem drop_bookedFrom {children : List (Behaviour ρ μ σ)} {first i : Nat} :
    (bookedFrom first children).drop i = bookedFrom (first + i) (children.drop i) := by
  induction children generalizing first i with
  | nil => simp [bookedFrom]
  | cons child rest ih =>
    cases i with
    | zero => rfl
    | succ i =>
      simp only [bookedFrom, List.drop_succ_cons]
      rw [ih, Nat.add_right_comm, Nat.add_assoc]

section
variable {cell : Cell ρ σ} {d : Nat} {slot : Slot σ} {visits : List Visit} {m : Machine (Ledger ρ) μ σ}

/-- The children in `rest` are still to come. -/
theorem inOrderFrom_settles (holds : cell.Holds d) (pass : Verdict) (first : Nat) (rest : List (Behaviour ρ μ σ))
    (apart : ∀ child ∈ rest, child.Apart cell d) (h : Midway cell d slot visits m) :
    Settles (fun answer k => Passed (Visit.Stops (· ≠ pass.status))
        (fun visits status => answer = status ∧ Booked cell d (resumed visits) (visits.map .ticked) k)
        (fun visits => answer = pass.status ∧ Booked cell d .idle (visits.map .ticked) k)
        visits (List.range' first rest.length))
      (inOrderFrom cell.booked pass d first (bookedFrom first rest) m) := by
  induction rest generalizing first slot visits m with
  | nil => exact .ok (.done ⟨rfl, h.toBooked.reset holds⟩)
  | cons child rest ih =>
    rw [List.length_cons, List.range'_succ, bookedFrom, inOrderFrom_cons]
    refine (h.ticks (apart child List.mem_cons_self) first).bind fun status n came => ?_
    obtain ⟨v, rfl, rfl, returns, came⟩ := came
    by_cases asked : v.asked = true
    · rw [settled_returning (returns.trans asked)]
      refine .ok (.ended (.inl asked) ⟨rfl, ?_⟩)
      rw [resumed_snoc, asked]
      exact came.toBooked.reset holds
    · have calm : ¬ n.context.returnRequest.isSome = true := by rwa [returns]
      by_cases passed : v.status = pass.status
      · rw [passed, settled_pass calm]
        have goes := Visit.not_stops.mpr ⟨by simpa using asked, passed⟩
        exact (ih (v.child + 1) (fun c among => apart c (List.mem_cons_of_mem _ among)) came).mono
          fun answer k later => .on goes later
      · have stops : v.Stops (· ≠ pass.status) := by simp [Visit.Stops, passed]
        by_cases running : v.status = .running
        · rw [running, settled_running calm]
          refine .ok (.ended stops ⟨running.symm, ?_⟩)
          rw [resumed_snoc, running]
          simpa [asked, Status.isTerminal, Status.isRunning] using came.toBooked.set holds
        · rw [settled_end calm running passed]
          refine .ok (.ended stops ⟨rfl, ?_⟩)
          rw [resumed_snoc, Status.isTerminal_iff.mpr running, Bool.or_true, if_pos rfl]
          exact came.toBooked.reset holds

end

end Behaviour

/-- A pass walks along the children, up to one that stops it or past them all. -/
theorem Pass.walks {pass : Verdict} {p k : Nat} {visits : List Visit} {stopped : Option Status}
    (h : Pass (Visit.Stops (· ≠ pass.status)) (List.range' p k) visits stopped) :
    stopped = none ∧ Walk pass p visits (p + k) ∨
      ∃ front, ∃ v : Visit, visits = front ++ [v] ∧ stopped = some v.status ∧ v.Stops (· ≠ pass.status) ∧
        (∀ w ∈ front, w.asked = false ∧ w.status = pass.status) ∧ v.child < p + k ∧ Walk pass p front v.child := by
  generalize order : List.range' p k = todo at h
  induction h generalizing p k with
  | done =>
    obtain rfl : k = 0 := by simpa using order
    exact .inl ⟨rfl, .here⟩
  | @ended v todo stops =>
    cases k with
    | zero => cases order
    | succ k =>
      obtain ⟨rfl, -⟩ := List.cons.inj (List.range'_succ.symm.trans order)
      exact .inr ⟨[], v, rfl, rfl, stops, nofun, by omega, .here⟩
  | @on v todo visits stopped goes _ ih =>
    cases k with
    | zero => cases order
    | succ k =>
      obtain ⟨rfl, rest⟩ := List.cons.inj (List.range'_succ.symm.trans order)
      have passed := Visit.not_stops.mp goes
      rcases ih rest with ⟨rfl, walk⟩ | ⟨front, w, rfl, rfl, stops, earlier, below, walk⟩
      · refine .inl ⟨rfl, .passes passed.2 ?_⟩
        rwa [Nat.add_right_comm, Nat.add_assoc] at walk
      · refine .inr ⟨v :: front, w, rfl, rfl, stops, ?_, by omega, .passes passed.2 walk⟩
        exact List.forall_mem_cons.mpr ⟨passed, earlier⟩

/-- Only the last child can have answered anything but that it passes, and the node answers the same. -/
theorem Pass.answer_iff {pass : Verdict} {p k : Nat} {visits : List Visit} {stopped : Option Status} {status : Status}
    (h : Pass (Visit.Stops (· ≠ pass.status)) (List.range' p k) visits stopped) (other : status ≠ pass.status) :
    stopped.getD pass.status = status ↔ ∃ v ∈ visits, v.status = status := by
  rcases h.walks with ⟨rfl, -⟩ | ⟨front, v, rfl, rfl, -, earlier, -⟩
  · constructor
    · exact fun same => absurd same.symm other
    · rintro ⟨v, among, rfl⟩
      exact absurd (Visit.not_stops.mp (h.complete.2 v among)).2 other
  · constructor
    · exact fun same => ⟨v, by simp, same⟩
    · rintro ⟨w, among, rfl⟩
      rcases List.mem_append.mp among with among | last
      · exact absurd (earlier w among).2 other
      · rw [List.mem_singleton.mp last]
        rfl

/-! ## The law of a node that runs its children in order -/

/-- What the node remembers: where the walk of the run in progress stands. -/
def Resumes (pass : Verdict) (n : Nat) (rounds : List Round) (slot : Slot σ) : Prop :=
  slot = .idle ∧ current rounds = [] ∨ ∃ p < n, slot = .child p ∧ Walk pass 0 (current rounds) p

/-- A tick walks on from where the run in progress stands, up to a child that does not pass or asks to return. It
answers as this one does, and passes itself when all have passed. A reset resets the child that is running. -/
def OneByOne (pass : Verdict) (n d : Nat) (rounds : List Round) : Round → Prop
  | .tick dealings answer => ∃ p visits stopped, p ≤ n ∧ (∀ v ∈ current rounds, v.child < n) ∧
      Walk pass 0 (current rounds) p ∧
      Pass (Visit.Stops (· ≠ pass.status)) (List.range' p (n - p)) visits stopped ∧
      dealings = visits.map .ticked ∧ answer = stopped.getD pass.status
  | .reset fire dealings => current rounds = [] ∧ dealings = [] ∨
      ∃ p < n, Walk pass 0 (current rounds) p ∧ dealings = [.reset p d fire]

section
variable {pass : Verdict} {n : Nat} {rounds : List Round} {slot : Slot σ}

theorem Resumes.place (h : Resumes pass n rounds slot) : slot.child?.getD 0 ≤ n ∧
    (∀ v ∈ current rounds, v.child < n) ∧ Walk pass 0 (current rounds) (slot.child?.getD 0) := by
  rcases h with ⟨rfl, none⟩ | ⟨p, below, rfl, walk⟩
  · rw [none]
    exact ⟨Nat.zero_le _, nofun, .here⟩
  · exact ⟨Nat.le_of_lt below, fun v among => Nat.lt_of_le_of_lt (walk.between v among).2.1 below, walk⟩

theorem Resumes.closed {round : Round} (closes : round.closes = true) :
    Resumes pass n (rounds ++ [round]) (.idle : Slot σ) :=
  .inl ⟨rfl, current_closed closes⟩

end

namespace Behaviour

section
variable {cell : Cell ρ σ} {d : Nat} {children : List (Behaviour ρ μ σ)}

theorem getElem?_bookedFrom {first i : Nat} :
    (bookedFrom first children)[i]? = children[i]?.map (booked (first + i)) := by
  induction children generalizing first i with
  | nil => simp [bookedFrom]
  | cons child rest ih =>
    cases i with
    | zero => rfl
    | succ i =>
      simp only [bookedFrom, List.getElem?_cons_succ]
      rw [ih, Nat.add_right_comm, Nat.add_assoc]

variable (holds : cell.Holds d) (apart : ∀ child ∈ children, child.Apart cell d)
include holds apart

/-- The child that is remembered is reset. -/
theorem resetChild_settles {p : Nat} {fire : Bool} {dealings : List Dealing} {m : Machine (Ledger ρ) μ σ}
    (below : p < children.length) (h : Booked cell d (.child p) dealings m) :
    Settles (fun _ k => Booked cell d .idle (dealings ++ [Dealing.reset p d fire]) k)
      (cell.booked.resetChild (bookedAll children) d fire m) := by
  rw [Cell.resetChild_apply, show cell.booked.get m.runs d = .child p from h.slot]
  dsimp only
  rw [getElem?_bookedFrom, List.getElem?_eq_getElem below, Nat.zero_add]
  exact (h.reset holds).resets (apart _ (List.getElem_mem below)) p fire

theorem inOrder_abides (pass : Verdict) : Abides cell d (inOrder cell.booked pass (bookedAll children))
    (Resumes pass children.length) (OneByOne pass children.length d) where
  start := .inl ⟨rfl, rfl⟩
  reset rounds slot fire m resumes h := by
    rcases resumes with ⟨rfl, none⟩ | ⟨p, below, rfl, walk⟩
    · show Settles _ (cell.booked.resetChild (bookedAll children) d fire m)
      rw [Cell.resetChild_apply, show cell.booked.get m.runs d = .idle from h.slot]
      have reset := h.reset holds
      refine .ok ⟨.inl ⟨none, reset.dealings⟩, ?_⟩
      rw [reset.slot]
      exact .closed rfl
    · refine (resetChild_settles holds apart below h).mono fun _ k came => ⟨.inr ⟨p, below, walk, came.dealings⟩, ?_⟩
      rw [came.slot]
      exact .closed rfl
  tick rounds slot m resumes depth h := by
    obtain ⟨within, seen, walk⟩ := resumes.place
    show Settles _ ((Run.depth >>= _) m)
    rw [Run.depth_bind, Cell.read_bind, depth, show cell.booked.get m.runs d = slot from h.slot]
    generalize slot.child?.getD 0 = p at within walk
    rw [drop_bookedFrom, Nat.zero_add]
    have begun : Midway cell d slot [] m := ⟨h, depth⟩
    have passes := inOrderFrom_settles holds pass p (children.drop p)
      (fun child among => apart child (List.mem_of_mem_drop among)) begun
    rw [List.length_drop] at passes
    refine passes.mono fun answer k passed => ?_
    rcases passed.outcome with ⟨visits, status, pass', rfl, came⟩ | ⟨visits, pass', rfl, came⟩
    · refine ⟨⟨p, visits, some answer, within, seen, walk, pass', came.dealings, rfl⟩, ?_⟩
      rw [came.slot, came.dealings]
      rcases pass'.walks with ⟨none, -⟩ | ⟨front, v, rfl, same, -, earlier, below, onward⟩
      · cases none
      · cases same
        rw [resumed_snoc]
        by_cases ends : (v.asked || v.status.isTerminal) = true
        · rw [if_pos ends]
          refine .closed (Round.closes_visits.trans ?_)
          rcases Bool.or_eq_true_iff.mp ends with asked | terminal
          · simp [asked]
          · simp [terminal]
        · rw [if_neg ends]
          obtain ⟨calm, running⟩ : v.asked = false ∧ v.status = .running := by
            simpa [Status.isTerminal_iff] using ends
          have silent : ∀ w ∈ front ++ [v], w.asked = false := by
            rw [List.forall_mem_append, List.forall_mem_singleton]
            exact ⟨fun w among => (earlier w among).1, calm⟩
          refine .inr ⟨v.child, by omega, rfl, ?_⟩
          rw [running, current_open silent]
          exact walk.append (onward.append (.running running))
    · refine ⟨⟨p, visits, none, within, seen, walk, pass', came.dealings, rfl⟩, ?_⟩
      rw [came.slot]
      exact .closed (by simp [Round.closes])

end

end Behaviour

/-! ## Runs without requests to return -/

/-- A tick in which the children ran in their order. -/
structure TickInOrder (pass : Verdict) (n : Nat) (dealings : List Dealing) (answer : Status) : Prop where
  /-- No child is reset. -/
  ticked : dealings = (visitsOf dealings).map .ticked
  running : answer = .running ↔ ∃ v ∈ visitsOf dealings, v.status = .running
  ended : answer = pass.flip.status ↔ ∃ v ∈ visitsOf dealings, v.status = pass.flip.status
  /-- The next child starts in the very tick in which a child passes. -/
  prompt : ∀ v ∈ visitsOf dealings, v.status = pass.status → v.child + 1 < n →
    ∃ w ∈ visitsOf dealings, w.child = v.child + 1

/-- A run in which the children ran in their order. -/
structure RunInOrder (pass : Verdict) (n : Nat) (run : List Round) : Prop where
  blocks : ∃ waits last ended, (visitsIn run).map Visit.told = inBlocks pass 0 waits last ended
  within : ∀ v ∈ visitsIn run, v.child < n
  once : (visitsIn run).Pairwise fun v w => v.status.isTerminal = true → w.child ≠ v.child
  ticks : ∀ dealings answer, .tick dealings answer ∈ run → TickInOrder pass n dealings answer
  passed : ∀ dealings, .tick dealings pass.status ∈ run →
    ∀ child < n, ∃ v ∈ visitsIn run, v.child = child ∧ v.status = pass.status

namespace OneByOne

variable {pass : Verdict} {n d : Nat} {rounds : List Round} {dealings : List Dealing} {answer : Status} {fire : Bool}

theorem tickInOrder (quiet : Quiet dealings) (h : OneByOne pass n d rounds (.tick dealings answer)) :
    TickInOrder pass n dealings answer := by
  obtain ⟨p, visits, stopped, within, -, -, pass', rfl, rfl⟩ := h
  rw [Quiet, visitsOf_ticked] at quiet
  constructor <;> rw [visitsOf_ticked]
  · exact pass'.answer_iff pass.status_ne_running.symm
  · exact pass'.answer_iff pass.status_ne_flip.symm
  · intro v among passed below
    rcases pass'.walks with ⟨-, walk⟩ | ⟨front, last, rfl, -, stops, -, -, walk⟩
    · obtain ⟨above, -⟩ := walk.between v among
      obtain ⟨w, among, next, -⟩ := walk.passed (show p ≤ v.child + 1 by omega) (by omega)
      exact ⟨w, among, next⟩
    · have terminal : v.status.isTerminal = true := by simp [passed]
      rcases List.mem_append.mp among with among | same
      · obtain ⟨above, -, ended⟩ := walk.between v among
        by_cases next : v.child + 1 = last.child
        · exact ⟨last, by simp, next.symm⟩
        · have behind := ended terminal
          obtain ⟨w, among, next, -⟩ := walk.passed (show p ≤ v.child + 1 by omega) (by omega)
          exact ⟨w, List.mem_append_left _ among, next⟩
      · rw [← List.mem_singleton.mp same] at stops
        simp [Visit.Stops, passed, quiet v among] at stops

/-- The run in progress, with this tick, is a walk. -/
theorem walked (quiet : Quiet dealings) (h : OneByOne pass n d rounds (.tick dealings answer)) :
    Walked pass (current rounds ++ visitsOf dealings) ∧
      (answer = pass.status → Walk pass 0 (current rounds ++ visitsOf dealings) n) := by
  obtain ⟨p, visits, stopped, within, -, begun, pass', rfl, rfl⟩ := h
  rw [Quiet, visitsOf_ticked] at quiet
  rw [visitsOf_ticked]
  rcases pass'.walks with ⟨rfl, walk⟩ | ⟨front, v, rfl, rfl, stops, -, -, walk⟩
  · rw [Nat.add_sub_cancel' within] at walk
    exact ⟨.inl ⟨n, begun.append walk⟩, fun _ => begun.append walk⟩
  · have other : v.status ≠ pass.status := by
      simpa [Visit.Stops, quiet v (by simp)] using stops
    refine ⟨?_, fun same => absurd same other⟩
    by_cases running : v.status = .running
    · exact .inl ⟨v.child, begun.append (walk.append (.running running))⟩
    · exact .inr ⟨current rounds ++ front, v, by simp, begun.append walk, Status.eq_flip running other⟩

theorem within (h : OneByOne pass n d rounds (.tick dealings answer)) :
    ∀ v ∈ current rounds ++ visitsOf dealings, v.child < n := by
  obtain ⟨p, visits, stopped, within, seen, -, pass', rfl, -⟩ := h
  rw [visitsOf_ticked]
  intro v among
  rcases List.mem_append.mp among with among | among
  · exact seen v among
  · have listed := pass'.order.subset (List.mem_map_of_mem among)
    have := (List.mem_range'_1.mp listed).2
    omega

variable (lawful : Lawful (OneByOne pass n d) rounds)
include lawful

/-- A tick earlier in the run. -/
theorem earlier (among : .tick dealings answer ∈ inProgress rounds) :
    TickInOrder pass n dealings answer ∧ answer = .running := by
  obtain ⟨inside, goes⟩ := mem_inProgress among
  obtain ⟨running, quiet⟩ := Round.open_tick goes
  obtain ⟨before, allowed⟩ := lawful.of_mem inside
  exact ⟨allowed.tickInOrder quiet, running⟩

theorem run_tick (quiet : Quiet dealings) (h : OneByOne pass n d rounds (.tick dealings answer)) :
    RunInOrder pass n (inProgress rounds ++ [Round.tick dealings answer]) := by
  have visits : visitsIn (inProgress rounds ++ [Round.tick dealings answer]) = current rounds ++ visitsOf dealings :=
    visitsIn_snoc
  obtain ⟨walked, through⟩ := h.walked quiet
  constructor <;> try rw [visits]
  · exact walked.blocks
  · exact h.within
  · exact walked.once
  · intro dealings' answer' among
    rcases List.mem_append.mp among with among | same
    · exact (earlier lawful among).1
    · cases List.mem_singleton.mp same
      exact h.tickInOrder quiet
  · intro dealings' among child below
    rcases List.mem_append.mp among with among | same
    · have running := (earlier lawful among).2
      exact absurd running pass.status_ne_running
    · cases List.mem_singleton.mp same
      exact (through rfl).passed (Nat.zero_le _) below

theorem run_reset (h : OneByOne pass n d rounds (.reset fire dealings)) :
    RunInOrder pass n (inProgress rounds ++ [Round.reset fire dealings]) := by
  have visits : visitsIn (inProgress rounds ++ [Round.reset fire dealings]) = current rounds := by
    rw [visitsIn_snoc]
    rcases h with ⟨-, rfl⟩ | ⟨p, -, -, rfl⟩ <;> exact List.append_nil _
  obtain ⟨p, walk, within⟩ : ∃ p, Walk pass 0 (current rounds) p ∧ ∀ v ∈ current rounds, v.child < n := by
    rcases h with ⟨none, -⟩ | ⟨p, below, walk, -⟩
    · rw [none]
      exact ⟨0, .here, nofun⟩
    · exact ⟨p, walk, fun v among => Nat.lt_of_le_of_lt (walk.between v among).2.1 below⟩
  have walked : Walked pass (current rounds) := .inl ⟨p, walk⟩
  have ticks : ∀ dealings' answer, .tick dealings' answer ∈ inProgress rounds ++ [Round.reset fire dealings] →
      TickInOrder pass n dealings' answer ∧ answer = .running := by
    intro dealings' answer among
    rcases List.mem_append.mp among with among | same
    · exact earlier lawful among
    · cases List.mem_singleton.mp same
  constructor <;> try rw [visits]
  · exact walked.blocks
  · exact within
  · exact walked.once
  · exact fun dealings' answer among => (ticks dealings' answer among).1
  · intro dealings' among
    have running := (ticks dealings' _ among).2
    exact absurd running pass.status_ne_running

end OneByOne

namespace Behaviour

/-- In every run of the node at this depth in which no return is requested, the children run in their order. -/
structure RunsInOrder (cell : Cell ρ σ) (d n : Nat) (pass : Verdict) (node : Behaviour (Ledger ρ) μ σ) : Prop where
  tick : ∀ rounds m, Due cell d node rounds m → Settles (fun answer k => Quiet k.runs.dealings →
    RunInOrder pass n (inProgress rounds ++ [.tick k.runs.dealings answer])) (node.tick m)
  reset : ∀ rounds fire m, Lived cell d node rounds m → m.runs.dealings = [] → Settles (fun _ k =>
    RunInOrder pass n (inProgress rounds ++ [.reset fire k.runs.dealings])) (node.reset d fire m)

section
variable {cell : Cell ρ σ} {d : Nat} {children : List (Behaviour ρ μ σ)} (holds : cell.Holds d)
  (apart : ∀ child ∈ children, child.Apart cell d)
include holds apart

theorem inOrder_runs (pass : Verdict) :
    RunsInOrder cell d children.length pass (inOrder cell.booked pass (bookedAll children)) where
  tick rounds m due := by
    have law := inOrder_abides holds apart pass
    have lawful := (law.kept due.lived).1
    exact (law.next_tick due).mono fun answer k allowed quiet => OneByOne.run_tick lawful quiet allowed
  reset rounds fire m lived blank := by
    have law := inOrder_abides holds apart pass
    have lawful := (law.kept lived).1
    exact (law.next_reset lived fire blank).mono fun _ k allowed => OneByOne.run_reset lawful allowed

/-- Nodes that run their children one after the other. In a run without requests to return, each child in turn is
ticked while it is running and then ends. When it passes, the next one starts in the same tick, and none is ticked
again after its end. A tick answers that the node is running, or has ended otherwise than by passing, when a child
has answered so, and that it passes only after all children have. What passes is success for a sequence and failure
for a selector. -/
theorem children_run_in_order :
    RunsInOrder cell d children.length .success (sequence cell.booked (bookedAll children)) ∧
      RunsInOrder cell d children.length .failure (selector cell.booked (bookedAll children)) :=
  ⟨inOrder_runs holds apart .success, inOrder_runs holds apart .failure⟩

end

/-- The first child has ended so, and the second is running. -/
def secondRunning (first : Status) : Round := .tick [.ticked ⟨0, first, false⟩, .ticked ⟨1, .running, false⟩] .running

/-- The first child passes, the second one in the tick after it waited, and the third ends the run otherwise. -/
theorem trio_runs_in_order :
    (∃ m k, Due Cell.alone 0 (sequence Cell.alone.booked (bookedAll trio)) [secondRunning .success] m ∧
        (sequence Cell.alone.booked (bookedAll trio)).tick m = .ok .failure k ∧
        RunInOrder .success 3
          [secondRunning .success, .tick [.ticked ⟨1, .success, false⟩, .ticked ⟨2, .failure, false⟩] .failure]) ∧
      ∃ m k, Due Cell.alone 0 (selector Cell.alone.booked (bookedAll trio)) [secondRunning .failure] m ∧
        (selector Cell.alone.booked (bookedAll trio)).tick m = .ok .success k ∧
        RunInOrder .failure 3
          [secondRunning .failure, .tick [.ticked ⟨1, .failure, false⟩, .ticked ⟨2, .success, false⟩] .success] := by
  have runs := children_run_in_order (Cell.alone_holds (d := 0)) trio_apart
  constructor
  · have ran : ((sequence Cell.alone.booked (bookedAll trio)).inARow 0 2 (.scripted [(.success, false),
        (.running, false), (.success, false), (.failure, false)])).map (·.1) =
        some ([secondRunning .success] ++
          [Round.tick [.ticked ⟨1, .success, false⟩, .ticked ⟨2, .failure, false⟩] .failure]) := by decide +kernel
    obtain ⟨m, k, due, ok, dealt⟩ := inARow_last .scripted ran
    have run := (runs.1.tick _ m due).of_ok ok (by rw [dealt]; decide)
    rw [dealt] at run
    exact ⟨m, k, due, ok, run⟩
  · have ran : ((selector Cell.alone.booked (bookedAll trio)).inARow 0 2 (.scripted [(.failure, false),
        (.running, false), (.failure, false), (.success, false)])).map (·.1) =
        some ([secondRunning .failure] ++
          [Round.tick [.ticked ⟨1, .failure, false⟩, .ticked ⟨2, .success, false⟩] .success]) := by decide +kernel
    obtain ⟨m, k, due, ok, dealt⟩ := inARow_last .scripted ran
    have run := (runs.2.tick _ m due).of_ok ok (by rw [dealt]; decide)
    rw [dealt] at run
    exact ⟨m, k, due, ok, run⟩

end Behaviour

end BehaviorTree
