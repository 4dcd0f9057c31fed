/-
  BehaviorTree.Proofs.Duality.Concurrent: nodes that run their children side by side.

  Both nodes visit the same children. What the one remembers of a child that has ended is what
  the other remembers with the result swapped; a child that both take to be running has been
  noted by its inverter (`Noted`), so aborts reach it. At the end of a visit no child is idle,
  which is what makes "some child succeeded" the opposite of "all children failed".
-/

import Mathlib.Data.List.Nodup
import BehaviorTree.Proofs.Duality.Ordered
import BehaviorTree.Proofs.Ticks.Concurrent

namespace BehaviorTree

variable {ρ μ σ : Type} {d e : Nat} {children : List (Behaviour ρ μ σ)}

open Behaviour

/-- A child with its number, and what is remembered of it. -/
abbrev Seated (ρ μ σ : Type) := (Behaviour ρ μ σ × Nat) × ChildState

namespace Seated

/-- The children as the node sees them from the front. -/
def faces (ts : List (Seated ρ μ σ)) : List (Tracked (Trial (DepthSlots (Slot σ)) ρ) μ σ) :=
  ts.map fun t => (t.1.1.seat t.1.2, t.2.invert)

/-- The children in their inverters. -/
def wrapped (ts : List (Seated ρ μ σ)) : List (Tracked (Trial (Wrapped σ) ρ) μ σ) :=
  ts.map fun t => (invertedSeat t.1.2 t.1.1, t.2)

/-- The inverters know which children are running. -/
def Noted (d : Nat) (ts : List (Seated ρ μ σ)) (w : Wrapped σ) : Prop :=
  ∀ t ∈ ts, t.2 = .running → (w.child t.1.2).get d = .started

/-- Different children with different numbers. -/
structure Proper (ts : List (Seated ρ μ σ)) : Prop where
  level : ∀ t ∈ ts, t.1.1.Level
  distinct : (ts.map (·.1.2)).Nodup

theorem Proper.congr {ts us : List (Seated ρ μ σ)} (h : Proper ts) (same : us.map (·.1) = ts.map (·.1)) :
    Proper us where
  level t ht := by
    have among : t.1 ∈ ts.map (·.1) := same ▸ List.mem_map_of_mem ht
    obtain ⟨t', ht', eq⟩ := List.mem_map.mp among
    exact eq ▸ h.level t' ht'
  distinct := by
    have numbers := congrArg (List.map (·.2)) same
    rw [List.map_map, List.map_map] at numbers
    exact numbers ▸ h.distinct

variable {t : Seated ρ μ σ} {ts us : List (Seated ρ μ σ)} {w : Wrapped σ}

theorem faces_append (ts us : List (Seated ρ μ σ)) : faces (ts ++ us) = faces ts ++ faces us := List.map_append

theorem wrapped_append (ts us : List (Seated ρ μ σ)) : wrapped (ts ++ us) = wrapped ts ++ wrapped us := List.map_append

theorem faces_states (ts : List (Seated ρ μ σ)) : (faces ts).map (·.2) = (ts.map (·.2)).map ChildState.invert := by
  simp [faces, Function.comp_def]

theorem wrapped_states (ts : List (Seated ρ μ σ)) : (wrapped ts).map (·.2) = ts.map (·.2) := by
  simp [wrapped, Function.comp_def]

theorem Noted.release (h : Noted d ts w) {i : Nat} (other : ∀ t ∈ ts, t.1.2 ≠ i) : Noted d ts (w.release i d) := by
  intro t ht running
  rw [Wrapped.child_release, if_neg (Ne.symm (other t ht))]
  exact h t ht running

theorem Noted.note {b : Behaviour ρ μ σ} {i : Nat} {state : ChildState} (h : Noted d (ts ++ ((b, i), state) :: us) w)
    (distinct : ((ts ++ ((b, i), state) :: us).map (·.1.2)).Nodup) (s : Status) :
    Noted d (ts ++ ((b, i), ChildState.after s) :: us) (w.note i d s) := by
  intro t ht running
  rw [Wrapped.child_note]
  have among : t ∈ ts ++ us ∨ t = ((b, i), ChildState.after s) := by
    simp only [List.mem_append, List.mem_cons] at ht ⊢
    tauto
  rcases among with other | rfl
  · have apart : i ≠ t.1.2 := by
      rw [List.map_append, List.map_cons, List.nodup_middle, List.nodup_cons, ← List.map_append] at distinct
      exact fun same => distinct.1 (List.mem_map.mpr ⟨t, other, same.symm⟩)
    rw [if_neg apart]
    refine h t ?_ running
    simp only [List.mem_append, List.mem_cons] at other ⊢
    tauto
  · rw [if_pos rfl]
    cases s <;> first | rfl | cases running

end Seated

open Seated

namespace Duals

theorem abort (fire : Bool) (ts : List (Seated ρ μ σ)) (proper : Proper ts) :
    Shows d (fun w => w.Cleared e ∧ Noted e ts w) id (abort e fire (faces ts)) (abort e fire (wrapped ts))
      fun _ => Wrapped.Cleared e := by
  induction ts with
  | nil => exact .pure fun _ own => own.1
  | cons t ts ih =>
    obtain ⟨⟨b, i⟩, state⟩ := t
    obtain ⟨fresh, distinct⟩ := List.nodup_cons.mp proper.distinct
    have rest := ih ⟨fun t ht => proper.level t (List.mem_cons_of_mem _ ht), distinct⟩
    have others : ∀ t ∈ ts, t.1.2 ≠ i := fun t ht same =>
      fresh (List.mem_map.mpr ⟨t, ht, same⟩)
    have kept : ∀ w, Noted e (((b, i), state) :: ts) w → Noted e ts w :=
      fun w own t ht => own t (List.mem_cons_of_mem _ ht)
    cases state
    case running =>
      refine (Shows.inverted_reset (proper.level _ (List.mem_cons_self ..)) i
        (q := fun _ w => w.Cleared e ∧ Noted e ts w) (fun w own => own.2 _ (List.mem_cons_self ..) rfl)
        fun w own => ⟨own.1.release i, (kept w own.2).release others⟩).bind fun _ => rest
    all_goals exact rest.weaken (fun w own => ⟨own.1, kept w own.2⟩) fun _ _ h => h

/-! ## One tick -/

/-- What a visit comes to, with the results swapped. -/
def swapped : Status ⊕ List ChildState → Status ⊕ List ChildState :=
  Sum.map Status.invert (List.map ChildState.invert)

/-- How a visit of these children ends. -/
def Visited (d : Nat) (ts : List (Seated ρ μ σ)) (outcome : Status ⊕ List ChildState) (w : Wrapped σ) : Prop :=
  w.Cleared d ∧ ∀ states, outcome = .inr states → .idle ∉ states ∧ .finished .running ∉ states ∧
    ∃ us, us.map (·.1) = ts.map (·.1) ∧ us.map (·.2) = states ∧ Noted d us w

theorem Visited.congr {ts us : List (Seated ρ μ σ)} {outcome : Status ⊕ List ChildState} {w : Wrapped σ}
    (h : Visited d us outcome w) (same : us.map (·.1) = ts.map (·.1)) : Visited d ts outcome w :=
  ⟨h.1, fun states reached => by rw [← same]; exact h.2 states reached⟩

theorem visit {stop stop' : Status → Bool} (same : ∀ s, stop s.invert = stop' s) (seen rest : List (Seated ρ μ σ))
    (proper : Proper (seen ++ rest)) (visited : .idle ∉ seen.map (·.2))
    (ended : .finished .running ∉ (seen ++ rest).map (·.2)) :
    Shows d (fun w => w.Cleared d ∧ Noted d (seen ++ rest) w) swapped (visit stop d (faces seen) (faces rest))
      (visit stop' d (wrapped seen) (wrapped rest)) (Visited d (seen ++ rest)) := by
  induction rest generalizing seen with
  | nil =>
    rw [List.append_nil] at *
    show Shows d (fun w => w.Cleared d ∧ Noted d seen w) swapped (pure (.inr ((faces seen).map (·.2))))
      (pure (.inr ((wrapped seen).map (·.2)))) (Visited d seen)
    rw [faces_states, wrapped_states]
    have ends : ∀ w : Wrapped σ, w.Cleared d ∧ Noted d seen w → Visited d seen (.inr (seen.map (·.2))) w := by
      refine fun w own => ⟨own.1, fun states h => ?_⟩
      obtain rfl := Sum.inr.inj h
      exact ⟨visited, ended, seen, rfl, rfl, own.2⟩
    exact Shows.pure (φ := swapped) ends
  | cons t rest ih =>
    obtain ⟨⟨b, i⟩, state⟩ := t
    have shift : ∀ state', seen ++ ((b, i), state') :: rest = (seen ++ [((b, i), state')]) ++ rest := by simp
    have again : ∀ state', Proper (seen ++ ((b, i), state') :: rest) := fun state' =>
      proper.congr (by simp)
    have ticks : Shows d (fun w => w.Cleared d ∧ Noted d (seen ++ ((b, i), state) :: rest) w) swapped
        (do
          let status ← (b.seat i).tick
          let seen := faces seen ++ [(b.seat i, ChildState.after status)]
          if (← Run.returning) || stop status then
            Behaviour.abort d true (seen ++ faces rest)
            return .inl status
          else Behaviour.visit stop d seen (faces rest))
        (do
          let status ← (invertedSeat i b).tick
          let seen := wrapped seen ++ [(invertedSeat i b, ChildState.after status)]
          if (← Run.returning) || stop' status then
            Behaviour.abort d true (seen ++ wrapped rest)
            return .inl status
          else Behaviour.visit stop' d seen (wrapped rest)) (Visited d (seen ++ ((b, i), state) :: rest)) := by
      refine (Shows.inverted_tick (proper.level ((b, i), state) (by simp)) i
        (q := fun s w => w.Cleared d ∧ Noted d (seen ++ ((b, i), ChildState.after s) :: rest) w)
        fun w s own => ⟨own.1.note i s, own.2.note (again state).distinct s⟩).bind fun s => ?_
      have seenFaces : faces seen ++ [(b.seat i, ChildState.after s.invert)]
          = faces (seen ++ [((b, i), ChildState.after s)]) := by
        rw [faces_append, ChildState.after_invert]
        rfl
      have seenWrapped : wrapped seen ++ [(invertedSeat i b, ChildState.after s)]
          = wrapped (seen ++ [((b, i), ChildState.after s)]) := by
        rw [wrapped_append]
        rfl
      dsimp only
      rw [seenFaces, seenWrapped, shift]
      refine Shows.returning.bind fun returns => .ite (by rw [same]; rfl) (fun _ => ?_) fun _ => ?_
      · rw [← faces_append, ← wrapped_append]
        exact (abort true _ (shift _ ▸ again _)).bind fun _ => .pure (y := Sum.inl s) fun w own => ⟨own, nofun⟩
      · refine (ih _ (shift _ ▸ again _) ?_ ?_).weaken (fun w own => own) fun _ w own => own.congr (by simp)
        · simpa [ChildState.after_ne_idle] using visited
        · simp only [List.map_append, List.map_cons, List.mem_append, List.mem_cons, not_or] at ended ⊢
          exact ⟨⟨ended.1, ChildState.finished_running_ne_after s, nofun⟩, ended.2.2⟩
    cases state
    case finished s =>
      have skipped := ih (seen ++ [((b, i), ChildState.finished s)]) (shift _ ▸ again _) (by simpa using visited)
        (by rw [← shift]; exact ended)
      rw [← shift, faces_append, wrapped_append] at skipped
      exact skipped
    all_goals exact ticks

section
variable {states : List ChildState} (length : states.length = children.length)
include length

theorem seated_children : (children.zipIdx.zip states).map (·.1) = children.zipIdx :=
  List.map_fst_zip (by simp [length])

theorem seated_states : (children.zipIdx.zip states).map (·.2) = states :=
  List.map_snd_zip (by simp [length])

end

/-- The children with their numbers and states are seated properly. -/
theorem proper_zip (level : ∀ b ∈ children, b.Level) (states : List ChildState) :
    Proper (children.zipIdx.zip states) where
  level t ht := level _ (List.fst_mem_of_mem_zipIdx (List.of_mem_zip ht).1)
  distinct := by
    have first : (children.zipIdx.zip states).map (·.1) <+: children.zipIdx := by
      rw [List.zip_eq_zip_take_min, List.map_fst_zip (by simp)]
      exact List.take_prefix ..
    have numbers := first.map (·.2)
    rw [List.map_map, List.zipIdx_map_snd] at numbers
    exact numbers.sublist.nodup List.nodup_range'

theorem number_eq {us : List (Seated ρ μ σ)} {i : Nat} {t : Seated ρ μ σ} (same : us.map (·.1) = children.zipIdx)
    (here : us[i]? = some t) : t.1.2 = i := by
  have first : children.zipIdx[i]? = some t.1 := by rw [← same, List.getElem?_map, here]; rfl
  rw [List.getElem?_zipIdx, Option.map_eq_some_iff] at first
  obtain ⟨b, -, eq⟩ := first
  rw [← eq, Nat.zero_add]

theorem noted_zip {w : Wrapped σ} {states : List ChildState} (known : w.Knows d states) :
    Noted d (children.zipIdx.zip states) w := by
  intro t ht running
  obtain ⟨i, here⟩ := List.mem_iff_getElem?.mp ht
  obtain ⟨seat, state⟩ := List.getElem?_zip_eq_some.mp here
  rw [List.getElem?_zipIdx, Option.map_eq_some_iff] at seat
  obtain ⟨b, -, eq⟩ := seat
  have number : t.1.2 = i := by rw [← eq, Nat.zero_add]
  exact number ▸ known.2 i (running ▸ state)

theorem faces_zip (states : List ChildState) :
    (seats (κ := DepthSlots (Slot σ)) children).zip (states.map ChildState.invert)
      = faces (children.zipIdx.zip states) := List.zip_map

theorem wrapped_zip (states : List ChildState) :
    (invertedSeats children).zip states = wrapped (children.zipIdx.zip states) := List.zip_map_left

variable {stop stop' : Status → Bool} {otherwise otherwise' : List ChildState → Status}

theorem keepRunning {ts : List (Seated ρ μ σ)} (numbered : ts.map (·.1) = children.zipIdx) (states : List ChildState)
    (opposite : .idle ∉ states → .running ∉ states → .finished .running ∉ states →
      otherwise (states.map ChildState.invert) = (otherwise' states).invert) :
    Shows d (Visited d ts (.inr states)) Status.invert
      (keepRunning (ρ := Trial _ ρ) (μ := μ) Trial.slots d (states.map ChildState.invert)
        (otherwise (states.map ChildState.invert)))
      (keepRunning Wrapped.nodeCell d states (otherwise' states)) (Wrapped.Ticked d) := by
  refine .ite ChildState.running_mem_invert (fun _ => ?_) fun none => ?_
  · refine (Shows.keep (x := .children states) (q := fun _ => Wrapped.Ticked d .running) fun w own => ?_).bind
      fun _ => .pure (y := Status.running) fun _ h => h
    obtain ⟨cleared, visited⟩ := own
    obtain ⟨-, ended, us, seated, rfl, noted⟩ := visited states rfl
    refine .of_children cleared.1 ⟨ended, fun i running => ?_⟩
    rw [List.getElem?_map, Option.map_eq_some_iff] at running
    obtain ⟨t, here, state⟩ := running
    exact number_eq (seated.trans numbered) here ▸ noted t (List.mem_of_getElem? here) state
  · refine .given fun w own => ?_
    obtain ⟨cleared, visited⟩ := own
    obtain ⟨begun, ended, -⟩ := visited states rfl
    rw [opposite begun none ended]
    exact .pure fun _ same => same ▸ cleared.ticked _

theorem visitAll (level : ∀ b ∈ children, b.Level) (same : ∀ s, stop s.invert = stop' s)
    (opposite : ∀ states, .idle ∉ states → .running ∉ states → .finished .running ∉ states →
      otherwise (states.map ChildState.invert) = (otherwise' states).invert) :
    Shows d (fun w => ∀ e, w.Standing e) Status.invert (visitAll Trial.slots stop otherwise (seats children))
      (visitAll Wrapped.nodeCell stop' otherwise' (invertedSeats children)) (Wrapped.Ticked d) := by
  refine .depth ((Shows.take (q := fun slot w => w.Cleared d ∧ w.Knows d (slot.childStates children.length))
    fun w own => ⟨.of_take fun e _ => own e, (own d).ready.knows _⟩).bind fun slot => ?_)
  have length : (slot.childStates children.length).length = children.length := slot.length_childStates _
  have seated : (seats (κ := DepthSlots (Slot σ)) children).length = children.length ∧
    (invertedSeats children).length = children.length := by simp [seats, invertedSeats]
  dsimp only
  rw [seated.1, seated.2, Slot.invert_childStates, faces_zip, wrapped_zip]
  refine .given fun w own => ?_
  refine ((visit same [] _ (proper_zip level _) List.not_mem_nil ?_).weaken (fun _ eq => eq ▸ ⟨own.1, noted_zip own.2⟩)
    fun _ _ h => h).bind fun outcome => ?_
  · exact fun among => own.2.1 (seated_states length ▸ among)
  cases outcome with
  | inl s => exact .pure fun _ own => own.1.ticked s
  | inr states => exact keepRunning (seated_children length) states (opposite states)

theorem resetTracked (level : ∀ b ∈ children, b.Level) (fire : Bool) :
    Shows d (fun w => w.Elsewhere e ∧ w.Ready e) id (resetTracked Trial.slots (seats children) e fire)
      (resetTracked Wrapped.nodeCell (invertedSeats children) e fire) fun _ => Wrapped.Cleared e := by
  refine (Shows.take (q := fun slot w => w.Cleared e ∧ ∀ states, slot = .children states → w.Knows e states)
    fun w own => ⟨.of_take own.1, fun states => own.2.of_children⟩).bind fun slot => ?_
  cases slot
  case children states =>
    show Shows d _ id (Behaviour.abort e fire ((seats children).zip (states.map ChildState.invert)))
      (Behaviour.abort e fire ((invertedSeats children).zip states)) _
    rw [faces_zip, wrapped_zip]
    exact (abort fire _ (proper_zip level _)).weaken (fun w own => ⟨own.1, noted_zip (own.2 states rfl)⟩) fun _ _ h => h
  all_goals exact .pure fun _ own => own.1

end Duals

theorem resetTracked_spared {bs : List (Behaviour (Trial (DepthSlots (Slot σ)) ρ) μ σ)} {fire : Bool}
    {m : Machine (Trial (DepthSlots (Slot σ)) ρ) μ σ} (idle : m.runs.own.get e = .idle) :
    resetTracked Trial.slots bs e fire m = .ok () m := by
  rw [resetTracked_apply, show Trial.slots.get m.runs e = .idle from idle]
  exact congrArg _ (Machine.forget_idle idle)

/-- Some child succeeded, unless every child failed. -/
theorem JoinPolicy.result_invert {states : List ChildState} (begun : .idle ∉ states) (done : .running ∉ states)
    (ended : .finished .running ∉ states) :
    JoinPolicy.any.result (states.map ChildState.invert) = (JoinPolicy.all.result states).invert := by
  have succeeded : states.count (.finished .success) = states.length ↔
      .finished .success ∉ states.map ChildState.invert := by
    rw [List.count_eq_length, List.mem_map]
    constructor
    · rintro all ⟨state, among, swapped⟩
      rw [← all state among] at swapped
      cases swapped
    · intro none state among
      rcases state with _ | _ | s
      · exact absurd among begun
      · exact absurd among done
      · cases s
        · exact absurd among ended
        · rfl
        · exact absurd ⟨_, among, rfl⟩ none
  simp only [JoinPolicy.result, JoinPolicy.met, Status.ofBool, List.count_pos_iff, decide_eq_true_eq, succeeded]
  by_cases some : ChildState.finished .success ∈ states.map ChildState.invert <;> simp [some, Status.invert]

variable (level : ∀ b ∈ children, b.Level)
include level

theorem parallel_duals :
    Duals (parallel Trial.slots .one (seats children)) (parallel Wrapped.nodeCell .all (invertedSeats children)) where
  tick _ := Duals.visitAll level (fun s => by cases s <;> rfl) fun _ _ _ _ => rfl
  reset _ _ fire := Duals.resetTracked level fire
  spared _ _ _ idle := resetTracked_spared idle

theorem join_duals :
    Duals (join Trial.slots .any (seats children)) (join Wrapped.nodeCell .all (invertedSeats children)) where
  tick _ := Duals.visitAll level (fun _ => rfl) fun _ => JoinPolicy.result_invert
  reset _ _ fire := Duals.resetTracked level fire
  spared _ _ _ idle := resetTracked_spared idle

end BehaviorTree
