/-
  BehaviorTree.Proofs.Upkeep.Behaviours: nodes keep up what their children do.

  A node keeps a property up if its slot is its own, it may put out its events, and what it asks
  from elsewhere keeps the property up. The slots that it writes are about its own children, and
  so are those that it reads; only a choice made elsewhere may name a child that is not there.
-/

import BehaviorTree.Proofs.Upkeep

namespace BehaviorTree

variable {ρ μ σ α : Type} {stage : Stage ρ μ σ} {U : Upkeep stage} {cell : Cell ρ σ} {b : Behaviour ρ μ σ}
  {bs : List (Behaviour ρ μ σ)} {ticking : Prop}

namespace Upkeep

open Behaviour

/-! ## Leaves -/

theorem Tends.ofTick {tick : Run ρ μ σ Status} (ticks : ticking → U.Keeps tick) : U.Tends ticking (ofTick tick) :=
  ⟨ticks, fun _ _ => .pure _⟩

theorem Tends.custom {host : Host ρ μ σ} {body : Callback μ σ Status}
    {onReset : (depth : Nat) → (fire : Bool) → μ → μ} (ticks : ticking → U.Keeps (body.run host)) :
    U.Tends ticking (custom host body onReset) := ⟨ticks, fun _ _ => Keeps.remember⟩

theorem Tends.earlyReturn {v : Verdict} (tells : U.Tells [Tag.earlyReturn]) : U.Tends ticking (earlyReturn v) := by
  refine .ofTick fun _ => (Keeps.requestReturn.bind fun _ => Keeps.reading.bind fun _ => ?_)
  exact (tells _ (by simp) _ _).bind fun _ => .pure _

section
variable {count : Nat} (own : U.Owns cell count)
include own

theorem Owns.leaf {tick : (depth : Nat) → Run ρ μ σ Status} (ticks : ∀ d, U.Keeps (tick d)) :
    U.Tends ticking (cell.leaf tick) := ⟨fun _ => Keeps.reading.bind ticks, fun _ _ => own.forget⟩

theorem Owns.keptAnswer {every : Duration} {d : Nat} : U.Keeps (keptAnswer cell every d (μ := μ)) := by
  refine own.read.keeps.bind fun slot => ?_
  cases slot
  case answered answer since =>
    exact Keeps.reading.bind fun _ => Keeps.ite (.pure _) (Keeps.bind (own.keep trivial) fun _ => .pure _)
  all_goals exact .pure _

theorem Owns.condition {holds : Predicate μ σ} {every : Duration} : U.Tends ticking (condition cell holds every) := by
  refine own.leaf fun d => Keeps.ite (own.keptAnswer.bind fun answer => ?_) (Keeps.test.bind fun _ => .pure _)
  cases answer with
  | some answer => exact .pure _
  | none => exact Keeps.test.bind fun _ => Keeps.bind (own.keep trivial) fun _ => .pure _

theorem Owns.waitUntil {holds : Predicate μ σ} {every : Duration} : U.Tends ticking (waitUntil cell holds every) := by
  refine own.leaf fun d => own.keptAnswer.bind fun _ => Keeps.ite (.pure _) (Keeps.test.bind fun _ => ?_)
  exact Keeps.ite (own.forget.bind fun _ => .pure _) (Keeps.bind (own.keep trivial) fun _ => .pure _)

theorem Owns.wait {duration : Duration} : U.Tends ticking (wait cell duration (μ := μ)) := by
  refine own.leaf fun d => own.read.keeps.bind fun _ => Keeps.reading.bind fun _ => ?_
  exact Keeps.ite (own.forget.bind fun _ => .pure _) (Keeps.bind (own.keep trivial) fun _ => .pure _)

theorem Owns.pause : U.Tends ticking (pause cell (μ := μ)) := by
  refine own.leaf fun d => own.read.keeps.bind fun slot => ?_
  cases slot
  case started => exact own.forget.bind fun _ => .pure _
  all_goals exact Keeps.bind (own.keep trivial) fun _ => .pure _

/-! ## One child -/

variable (child : U.Tends ticking b)
include child

theorem Owns.resetStarted {d : Nat} {fire : Bool} : U.Keeps (cell.resetStarted b d fire) := by
  refine own.read.keeps.bind fun slot => ?_
  cases slot
  case started => exact own.forget.bind fun _ => child.reset d fire
  all_goals exact .pure _

theorem Owns.invert : U.Tends ticking (invert cell b) where
  tick t := (child.tick t).bind fun _ => Keeps.reading.bind fun _ => own.note.bind fun _ => .pure _
  reset _ _ := own.resetStarted child

theorem Owns.force {v : Verdict} : U.Tends ticking (force cell v b) where
  tick t := (child.tick t).bind fun _ => Keeps.reading.bind fun _ => own.note.bind fun _ => .pure _
  reset _ _ := own.resetStarted child

theorem Owns.repeatUntil {v : Verdict} : U.Tends ticking (repeatUntil cell v b) where
  tick t := by
    refine (child.tick t).bind fun _ => Keeps.reading.bind fun _ => own.note.bind fun _ => Keeps.reading.bind fun _ => ?_
    exact Keeps.ite (.pure _) (.pure _)
  reset _ _ := own.resetStarted child

theorem Owns.guard {holds : Predicate μ σ} : U.Tends ticking (guard cell holds b) where
  tick t := by
    have admits : ∀ d, U.Keeps (admits cell holds d) := fun d => own.read.keeps.bind fun slot => by
      cases slot
      case started => exact .pure _
      all_goals exact Keeps.test
    refine Keeps.reading.bind fun d => (admits d).bind fun _ => Keeps.ite ?_ (.pure _)
    exact (child.tick t).bind fun _ => own.note.bind fun _ => .pure _
  reset _ _ := own.resetStarted child

theorem Owns.iterate {goOn : Verdict} {spent : UInt32 → Bool} : U.Tends ticking (iterate cell goOn spent b) where
  tick t := by
    refine Keeps.reading.bind fun d => (child.tick t).bind fun _ => Keeps.reading.bind fun _ => ?_
    refine Keeps.ite (own.forget.bind fun _ => .pure _) (Keeps.ite ?_ (Keeps.ite (own.forget.bind fun _ => .pure _) ?_))
    · exact own.read.keeps.bind fun _ => Keeps.bind (own.keep trivial) fun _ => .pure _
    · refine own.read.keeps.bind fun _ => ?_
      exact Keeps.ite (own.forget.bind fun _ => .pure _) (Keeps.bind (own.keep trivial) fun _ => .pure _)
  reset d fire := by
    refine own.take.keeps.bind fun slot => ?_
    cases slot
    case iterations n childRunning =>
      cases childRunning
      · exact .pure _
      · exact child.reset d fire
    all_goals exact .pure _

theorem Owns.timeout {duration : Duration} : U.Tends ticking (timeout cell duration b) where
  tick t := by
    refine Keeps.reading.bind fun d => own.read.keeps.bind fun _ => Keeps.reading.bind fun _ => ?_
    refine (child.tick t).bind fun _ => ?_
    refine Keeps.ite (own.forget.bind fun _ => .pure _) (Keeps.ite ?_ (Keeps.bind (own.keep trivial) fun _ => .pure _))
    exact own.forget.bind fun _ => (child.reset d true).bind fun _ => .pure _
  reset d fire := by
    refine own.take.keeps.bind fun slot => ?_
    cases slot
    case elapsed => exact child.reset d fire
    all_goals exact .pure _

theorem Owns.delay {duration : Duration} : U.Tends ticking (delay cell duration b) where
  tick t := by
    have release : ∀ d, U.Keeps (release cell duration d (μ := μ)) := fun d => own.read.keeps.bind fun slot => by
      cases slot
      case released => exact .pure _
      all_goals
        refine Keeps.reading.bind fun _ => Keeps.bind (own.keep ?_) fun _ => .pure _
        split <;> trivial
    refine Keeps.reading.bind fun d => (release d).bind fun _ => Keeps.ite ((child.tick t).bind fun _ => ?_) (.pure _)
    exact Keeps.ite (own.forget.bind fun _ => .pure _) (.pure _)
  reset d fire := by
    refine own.take.keeps.bind fun slot => ?_
    cases slot
    case released => exact child.reset d fire
    all_goals exact .pure _

theorem Owns.scope {host : Host ρ μ σ} {hooks : Hooks μ σ} (tells : U.Tells [Tag.scopeEnter, Tag.scopeExit])
    (enters : ticking → U.Keeps (hooks.onEnter.run host)) : U.Tends ticking (scope cell host hooks b) where
  tick t := by
    have opens : ∀ d, U.Keeps (openScope cell host hooks d) := fun d => own.read.keeps.bind fun slot => by
      cases slot
      case started => exact .pure _
      all_goals exact Keeps.bind (own.keep trivial) fun _ => (tells _ (by simp) _ _).bind fun _ => enters t
    have settles : ∀ d st, U.Keeps (settleReturn b d st) := fun d st => Keeps.takeReturn.bind fun request => by
      cases request with
      | none => exact .pure _
      | some requested =>
        exact Keeps.report.bind fun _ => Keeps.ite ((child.reset d true).bind fun _ => .pure _) (.pure _)
    have closes : ∀ d st, U.Keeps (closeScope cell hooks d st) := fun d st =>
      .ite (own.forget.bind fun _ => (tells _ (by simp) _ _).bind fun _ => Keeps.remember) (.pure _)
    refine Keeps.reading.bind fun d => (opens d).bind fun _ => (child.tick t).bind fun _ => ?_
    exact (settles d _).bind fun st => (closes d st).bind fun _ => .pure _
  reset d fire := by
    refine own.read.keeps.bind fun slot => ?_
    cases slot
    case started =>
      exact own.forget.bind fun _ => (child.reset d fire).bind fun _ => Keeps.ite Keeps.remember (.pure _)
    all_goals exact .pure _

/-- Beside its slot, the node changes the layers only. -/
theorem Owns.localScope (layered : U.Layered) : U.Tends ticking (localScope cell b) where
  tick t := by
    refine Keeps.reading.bind fun d => own.take.keeps.bind fun slot => layered.onContext.bind fun _ => ?_
    refine (child.tick t).bind fun _ => Keeps.reading.bind fun _ => layered.onContext.bind fun _ => ?_
    exact Keeps.ite (Keeps.bind (own.keep trivial) fun _ => .pure _) (.pure _)
  reset d fire := by
    refine own.take.keeps.bind fun slot => ?_
    cases slot
    case overlay => exact child.reset d fire
    all_goals exact .pure _

end

/-! ## Several children -/

/-- A child that is not there was named elsewhere. -/
theorem Permits.missing {i : Nat} (named : U.Permits bs.length i) (missing : bs[i]? = none) :
    U.Allows (.noSuchChild bs.length i) :=
  named.resolve_left (Nat.not_lt.mpr (List.getElem?_eq_none_iff.mp missing))

section
variable (own : U.Owns cell bs.length)
include own

theorem Owns.resetChild (children : ∀ b ∈ bs, U.Tends ticking b) {d : Nat} {fire : Bool} :
    U.Keeps (cell.resetChild bs d fire) := by
  refine own.take.bind fun slot named => ?_
  cases slot
  case child i =>
    dsimp only
    cases here : bs[i]? with
    | none => exact Keeps.throw ((named i rfl).missing here)
    | some b => exact (children b (List.mem_of_getElem? here)).reset d fire
  all_goals exact Keeps.pure _

theorem Owns.inOrderFrom (t : ticking) {pass : Verdict} {d : Nat} {rest : List (Behaviour ρ μ σ)}
    (children : ∀ b ∈ rest, U.Tends ticking b) (first : Nat) (fits : first + rest.length ≤ bs.length ∨ rest = []) :
    U.Keeps (inOrderFrom cell pass d first rest) := by
  induction rest generalizing first with
  | nil => exact own.forget.bind fun _ => .pure _
  | cons b rest ih =>
    obtain ⟨child, others⟩ := List.forall_mem_cons.mp children
    have room : first + (rest.length + 1) ≤ bs.length := fits.resolve_right (List.cons_ne_nil b rest)
    refine (child.tick t).bind fun _ => Keeps.reading.bind fun _ => Keeps.ite (own.forget.bind fun _ => .pure _) ?_
    refine Keeps.ite (.bind (own.keep (Nat.lt_of_lt_of_le (by omega) room)) fun _ => .pure _) ?_
    exact Keeps.ite (ih others _ (.inl (by omega))) (own.forget.bind fun _ => .pure _)

theorem Owns.inOrder {pass : Verdict} (children : ∀ b ∈ bs, U.Tends ticking b) : U.Tends ticking (inOrder cell pass bs) where
  tick t := by
    refine Keeps.reading.bind fun _ => own.read.keeps.bind fun slot => ?_
    refine own.inOrderFrom t (fun b hb => children b (List.mem_of_mem_drop hb)) _ ?_
    rw [List.length_drop, List.drop_eq_nil_iff]
    omega
  reset _ _ := own.resetChild children

theorem Owns.preempt {d current : Nat} (children : ∀ b ∈ bs, U.Tends ticking b) : U.Keeps (cell.preempt bs d current) := by
  refine own.take.bind fun slot named => ?_
  cases slot
  case child i =>
    refine Keeps.ite ?_ (.pure _)
    cases here : bs[i]? with
    | none => exact Keeps.throw ((named i rfl).missing here)
    | some b => exact (children b (List.mem_of_getElem? here)).reset d true
  all_goals exact Keeps.pure _

theorem Owns.reactiveFrom (t : ticking) {pass : Verdict} {d : Nat} {rest : List (Behaviour ρ μ σ)}
    (children : ∀ b ∈ bs, U.Tends ticking b) (later : ∀ b ∈ rest, U.Tends ticking b) (first : Nat)
    (fits : first + rest.length = bs.length) : U.Keeps (reactiveFrom cell pass bs d first rest) := by
  induction rest generalizing first with
  | nil => exact own.forget.bind fun _ => .pure _
  | cons b rest ih =>
    obtain ⟨child, others⟩ := List.forall_mem_cons.mp later
    rw [List.length_cons] at fits
    refine (child.tick t).bind fun _ => Keeps.reading.bind fun _ => ?_
    refine Keeps.ite ((own.preempt children).bind fun _ => .pure _) (Keeps.ite (ih others _ (by omega)) ?_)
    refine (own.preempt children).bind fun _ => Keeps.ite (.bind (own.keep ?_) fun _ => .pure _) (.pure _)
    show first < bs.length
    omega

theorem Owns.reactive {pass : Verdict} (children : ∀ b ∈ bs, U.Tends ticking b) : U.Tends ticking (reactive cell pass bs) where
  tick t := Keeps.reading.bind fun _ => own.reactiveFrom t children children 0 (Nat.zero_add _)
  reset _ _ := own.resetChild children

/-! ## Side by side -/

omit own in
theorem Keeps.abort {d : Nat} {fire : Bool} {ts : List (Tracked ρ μ σ)} (children : ∀ t ∈ ts, U.Tends ticking t.1) :
    U.Keeps (abort d fire ts) := by
  induction ts with
  | nil => exact .pure _
  | cons c ts ih =>
    obtain ⟨child, others⟩ := List.forall_mem_cons.mp children
    obtain ⟨b, state⟩ := c
    cases state with
    | running => exact (child.reset d fire).bind fun _ => ih others
    | idle | finished => exact ih others

omit own in
/-- What is known of the children at the end is known of all of them. -/
theorem Yields.visit (t : ticking) {stop : Status → Bool} {d : Nat} {seen rest : List (Tracked ρ μ σ)}
    (before : ∀ t ∈ seen, U.Tends ticking t.1) (after : ∀ t ∈ rest, U.Tends ticking t.1) :
    U.Yields (fun r => ∀ states, r = .inr states → states.length = seen.length + rest.length)
      (visit stop d seen rest) := by
  induction rest generalizing seen with
  | nil => exact .pure fun states h => by cases h; simp
  | cons c rest ih =>
    obtain ⟨child, others⟩ := List.forall_mem_cons.mp after
    obtain ⟨b, state⟩ := c
    have visited : ∀ state, ∀ t ∈ seen ++ [(b, state)], U.Tends ticking t.1 :=
      fun state => List.forall_mem_append.mpr ⟨before, List.forall_mem_singleton.mpr child⟩
    have further : ∀ state, (seen ++ [(b, state)]).length + rest.length = seen.length + (rest.length + 1) :=
      fun state => by simp only [List.length_append, List.length_singleton]; omega
    have on := fun state => ih (visited state) others
    simp only [further] at on
    cases state with
    | finished s => exact on _
    | running | idle =>
      refine Yields.bind (child.tick t) fun s _ => Yields.bind Keeps.reading fun _ _ => .ite (fun _ => ?_) fun _ => on _
      refine Yields.bind (Keeps.abort (List.forall_mem_append.mpr ⟨visited _, others⟩)) fun _ _ => .pure ?_
      exact fun states h => by cases h

theorem Owns.raceFrom (t : ticking) {d : Nat} {seen rest : List (Tracked ρ μ σ)} (before : ∀ t ∈ seen, U.Tends ticking t.1)
    (after : ∀ t ∈ rest, U.Tends ticking t.1) (all : seen.length + rest.length = bs.length) :
    U.Keeps (raceFrom cell d seen rest) := by
  induction rest generalizing seen with
  | nil =>
    refine Keeps.bind (own.keep ?_) fun _ => .pure _
    simpa [Slot.Within] using all
  | cons c rest ih =>
    obtain ⟨child, others⟩ := List.forall_mem_cons.mp after
    obtain ⟨b, state⟩ := c
    refine (child.tick t).bind fun s => Keeps.reading.bind fun _ => Keeps.ite ?_ ?_
    · have ended : ∀ t ∈ seen ++ (b, .finished s) :: rest, U.Tends ticking t.1 :=
        List.forall_mem_append.mpr ⟨before, List.forall_mem_cons.mpr ⟨child, others⟩⟩
      exact (Keeps.abort ended).bind fun _ => .pure _
    · refine ih (List.forall_mem_append.mpr ⟨before, List.forall_mem_singleton.mpr child⟩) others ?_
      rw [List.length_append, List.length_singleton]
      rw [List.length_cons] at all
      omega

theorem Owns.resetTracked {d : Nat} {fire : Bool} (children : ∀ b ∈ bs, U.Tends ticking b) :
    U.Keeps (resetTracked cell bs d fire) := by
  refine own.take.keeps.bind fun slot => ?_
  cases slot
  case children states => exact Keeps.abort fun t ht => children t.1 (List.of_mem_zip ht).1
  all_goals exact Keeps.pure _

theorem Owns.visitAll (t : ticking) {stop : Status → Bool} {otherwise : List ChildState → Status}
    (children : ∀ b ∈ bs, U.Tends ticking b) : U.Keeps (visitAll cell stop otherwise bs) := by
  refine Keeps.reading.bind fun d => own.take.keeps.bind fun slot => ?_
  have paired : (bs.zip (slot.childStates bs.length)).length = bs.length := by
    rw [List.length_zip, slot.length_childStates, Nat.min_self]
  have visits : U.Yields _ (visit stop d [] (bs.zip (slot.childStates bs.length))) :=
    .visit t (fun t ht => by cases ht) fun t ht => children t.1 (List.of_mem_zip ht).1
  refine visits.bind fun r known => ?_
  cases r with
  | inl s => exact Keeps.pure _
  | inr states =>
    refine Keeps.ite (.bind (own.keep ?_) fun _ => .pure _) (.pure _)
    have length := known states rfl
    rwa [paired, List.length_nil, Nat.zero_add] at length

theorem Owns.parallel {policy : ParallelPolicy} (children : ∀ b ∈ bs, U.Tends ticking b) :
    U.Tends ticking (parallel cell policy bs) := ⟨fun t => own.visitAll t children, fun _ _ => own.resetTracked children⟩

theorem Owns.join {policy : JoinPolicy} (children : ∀ b ∈ bs, U.Tends ticking b) : U.Tends ticking (join cell policy bs) :=
  ⟨fun t => own.visitAll t children, fun _ _ => own.resetTracked children⟩

theorem Owns.race (children : ∀ b ∈ bs, U.Tends ticking b) : U.Tends ticking (race cell bs) where
  tick t := by
    refine Keeps.ite (.pure _) (Keeps.reading.bind fun d => own.take.keeps.bind fun slot => ?_)
    refine own.raceFrom t (fun t ht => by cases ht) (fun t ht => children t.1 (List.of_mem_zip ht).1) ?_
    rw [List.length_zip, slot.length_childStates, Nat.min_self, List.length_nil, Nat.zero_add]
  reset _ _ := own.resetTracked children

/-! ## One of them -/

theorem Owns.selectOne {chooser : Chooser ρ μ σ}
    (picks : U.Yields (fun found => ∀ i, found = some i → U.Permits bs.length i) (chooser.pick bs.length))
    (completes : ∀ i, U.Keeps (chooser.complete i)) (children : ∀ b ∈ bs, U.Tends ticking b) :
    U.Tends ticking (selectOne cell chooser bs) where
  tick t := by
    have chooses : ∀ d, U.Yields (fun found => ∀ i, found = some i → U.Permits bs.length i)
        (choose cell chooser bs.length d) := fun d => own.read.bind fun slot named => by
      cases slot
      case child i => exact Yields.pure fun _ h => by cases h; exact named i rfl
      all_goals exact picks
    refine Keeps.reading.bind fun d => (chooses d).bind fun o named => ?_
    cases o with
    | none => exact Keeps.pure _
    | some i =>
      show U.Keeps (tickChosen cell chooser bs d i)
      unfold tickChosen
      cases here : bs[i]? with
      | none => exact Keeps.throw ((named i rfl).missing here)
      | some b =>
        have room : i < bs.length := (List.getElem?_eq_some_iff.mp here).1
        refine ((children b (List.mem_of_getElem? here)).tick t).bind fun _ => ?_
        refine Keeps.ite (.bind (own.keep room) fun _ => .pure _) ?_
        exact own.forget.bind fun _ => (completes i).bind fun _ => .pure _
  reset _ _ := own.resetChild children

end

/-! ## Calls -/

section
variable {count : Nat} (own : U.Owns cell count)
include own

theorem Owns.callTarget {resolve : Run ρ μ σ (Option TreeId)} {makeState : Option (StateMaker μ σ)} {d : Nat}
    (resolves : U.Keeps resolve) : U.Keeps (callTarget cell resolve makeState d) := by
  refine own.read.keeps.bind fun slot => ?_
  cases slot
  case call tree state => exact Keeps.pure _
  all_goals
    refine resolves.bind fun found => ?_
    cases found with
    | none => exact Keeps.report.bind fun _ => .pure _
    | some tree =>
      refine Keeps.bind ?_ fun state => .bind (own.keep trivial) fun _ => .pure _
      cases makeState with
      | none => exact Keeps.pure _
      | some make => exact Keeps.reading.bind fun _ => Keeps.consult.bind fun _ => .pure _

/-- A call changes much of the context meanwhile. -/
theorem Owns.call {resolve : Run ρ μ σ (Option TreeId)} {makeState : Option (StateMaker μ σ)}
    {callee : TreeId → Callee ρ μ σ} (unbound : U.Unbound)
    (tells : U.Tells [Tag.subtreeEnter, Tag.subtreeExit, Tag.subtreeOverflow]) (resolves : ticking → U.Keeps resolve)
    (roots : ∀ tree, U.Tends ticking (callee tree).root) : U.Tends ticking (call cell resolve makeState callee) where
  tick t := by
    refine Keeps.reading.bind fun d => (own.callTarget (resolves t)).bind fun target => ?_
    cases target with
    | none => exact Keeps.pure _
    | some target =>
      obtain ⟨tree, state, fresh⟩ := target
      refine unbound.enter.bind fun refused => ?_
      cases refused with
      | some o =>
        have refuses : U.Keeps (Run.refuse (ρ := ρ) (μ := μ) (σ := σ) o) :=
          Keeps.report.bind fun _ => (tells _ (by simp) _ _).bind fun _ => unbound.onContext
        exact refuses.bind fun _ => own.forget.bind fun _ => .pure _
      | none =>
        have announces : U.Keeps (announceCall (callee tree).name fresh d (ρ := ρ) (μ := μ) (σ := σ)) :=
          Keeps.ite (Keeps.report.bind fun _ => tells _ (by simp) _ _) (.pure _)
        have finishes : ∀ st, U.Keeps (finishCall cell (callee tree).name d st (ρ := ρ) (μ := μ) (σ := σ)) :=
          fun st => Keeps.ite (Keeps.report.bind fun _ => (tells _ (by simp) _ _).bind fun _ => own.forget) (.pure _)
        have ticks := (roots tree).tick t
        have leaves : ∀ st, U.Keeps (do
            Run.onContext (·.leave)
            finishCall cell (callee tree).name d st
            return st) := fun st => unbound.onContext.bind fun _ => (finishes st).bind fun _ => .pure st
        exact announces.bind fun _ => Keeps.ite ((unbound.withState ticks).bind leaves) (ticks.bind leaves)
  reset d fire := by
    refine own.take.keeps.bind fun slot => ?_
    cases slot
    case call tree state => exact (roots tree).reset _ fire
    all_goals exact Keeps.pure _

end

end Upkeep

end BehaviorTree
