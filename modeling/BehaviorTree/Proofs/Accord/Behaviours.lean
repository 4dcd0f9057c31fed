/-
  BehaviorTree.Proofs.Accord.Behaviours: behaviours in accord.

  One lemma for each behaviour: over children that go in accord, and with callbacks and
  predicates that do, it goes in accord as well. The slots are the same in both machines.
-/

import Mathlib.Data.List.Forall2
import BehaviorTree.Proofs.Accord

namespace BehaviorTree

variable {ρ μ μ' σ : Type} {A : Accord ρ μ μ' σ} {i : A.Index} {cell : Cell ρ σ} {b : Behaviour ρ μ σ}
  {b' : Behaviour ρ μ' σ} {bs : List (Behaviour ρ μ σ)} {bs' : List (Behaviour ρ μ' σ)}

open List (Forall₂)

namespace Accord

theorem Goes.lookup (h : Forall₂ (A.Goes i) bs bs') (n : Nat) :
    (bs[n]? = none ∧ bs'[n]? = none) ∨ ∃ b b', bs[n]? = some b ∧ bs'[n]? = some b' ∧ A.Goes i b b' := by
  induction h generalizing n with
  | nil => exact .inl ⟨rfl, rfl⟩
  | cons first _ ih =>
    cases n with
    | zero => exact .inr ⟨_, _, rfl, rfl, first⟩
    | succ n => exact ih n

/-- Behaviours that go in accord, of which the same is remembered. -/
abbrev TracksAll (A : Accord ρ μ μ' σ) (i : A.Index) :
    List (Behaviour.Tracked ρ μ σ) → List (Behaviour.Tracked ρ μ' σ) → Prop :=
  Forall₂ fun t t' => A.Goes i t.1 t'.1 ∧ t.2 = t'.2

section
variable {ts us : List (Behaviour.Tracked ρ μ σ)} {ts' us' : List (Behaviour.Tracked ρ μ' σ)}

theorem TracksAll.zip (h : Forall₂ (A.Goes i) bs bs') (states : List ChildState) :
    A.TracksAll i (bs.zip states) (bs'.zip states) := by
  induction h generalizing states with
  | nil => exact .nil
  | cons first _ ih =>
    cases states with
    | nil => exact .nil
    | cons state states => exact .cons ⟨first, rfl⟩ (ih states)

theorem TracksAll.states (h : A.TracksAll i ts ts') : ts.map (·.2) = ts'.map (·.2) := by
  induction h with
  | nil => rfl
  | cons first _ ih => rw [List.map_cons, List.map_cons, first.2, ih]

end

end Accord

namespace Behaviour

open Accord (Paired)

section
variable (c : A.Cells cell)

/-! ## Leaves -/

theorem ofTick_goes {tick : Run ρ μ σ Status} {tick' : Run ρ μ' σ Status} (h : A.Paired i i tick tick') :
    A.Goes i (ofTick tick) (ofTick tick') := ⟨h, fun _ _ _ => .pure _⟩

theorem earlyReturn_goes {v : Verdict} : A.Goes i (earlyReturn v) (earlyReturn v) :=
  ofTick_goes <| (Paired.requestReturn _).bind fun _ => Paired.depth.bind fun _ =>
    (Paired.trace ..).bind fun _ => .pure _

include c

theorem leaf_goes {tick : Nat → Run ρ μ σ Status} {tick' : Nat → Run ρ μ' σ Status}
    (h : ∀ d, A.Paired i i (tick d) (tick' d)) : A.Goes i (cell.leaf tick) (cell.leaf tick') :=
  ⟨Paired.depth.bind h, fun _ d _ => .forget c d⟩

theorem keptAnswer_paired {every : Duration} (d : Nat) :
    A.Paired i i (keptAnswer cell every d) (keptAnswer cell every d) := by
  refine (Paired.read c d).bind fun slot => ?_
  cases slot
  case answered => exact Paired.delta.bind fun _ => .ite (.pure _) ((Paired.keep c d _).bind fun _ => .pure _)
  all_goals exact .pure _

theorem condition_goes {holds : Predicate μ σ} {holds' : Predicate μ' σ} {every : Duration}
    (tests : A.Paired i i (Run.test holds) (Run.test holds')) :
    A.Goes i (condition cell holds every) (condition cell holds' every) := by
  refine leaf_goes c fun d => .ite ((keptAnswer_paired c d).bind fun kept => ?_) (tests.bind fun _ => .pure _)
  cases kept with
  | some answer => exact .pure _
  | none => exact tests.bind fun _ => (Paired.keep c d _).bind fun _ => .pure _

theorem waitUntil_goes {holds : Predicate μ σ} {holds' : Predicate μ' σ} {every : Duration}
    (tests : A.Paired i i (Run.test holds) (Run.test holds')) :
    A.Goes i (waitUntil cell holds every) (waitUntil cell holds' every) := by
  refine leaf_goes c fun d => (keptAnswer_paired c d).bind fun _ => .ite (.pure _) ?_
  refine tests.bind fun _ => .ite ((Paired.forget c d).bind fun _ => .pure _) ?_
  exact (Paired.keep c d _).bind fun _ => .pure _

theorem wait_goes {duration : Duration} : A.Goes i (wait cell duration) (wait cell duration) := by
  refine leaf_goes c fun d => (Paired.read c d).bind fun _ => Paired.delta.bind fun _ => ?_
  exact .ite ((Paired.forget c d).bind fun _ => .pure _) ((Paired.keep c d _).bind fun _ => .pure _)

theorem pause_goes : A.Goes i (pause cell) (pause cell) := by
  refine leaf_goes c fun d => (Paired.read c d).bind fun slot => ?_
  cases slot
  case started => exact (Paired.forget c d).bind fun _ => .pure _
  all_goals exact (Paired.keep c d _).bind fun _ => .pure _

/-! ## Nodes with one child -/

theorem resetStarted_paired (child : A.Goes i b b') (d : Nat) (fire : Bool) (k : A.Index) :
    A.Paired k k (cell.resetStarted b d fire) (cell.resetStarted b' d fire) := by
  refine (Paired.read c d).bind fun slot => ?_
  cases slot
  case started => exact (Paired.forget c d).bind fun _ => child.reset k d fire
  all_goals exact .pure _

theorem invert_goes (child : A.Goes i b b') : A.Goes i (invert cell b) (invert cell b') where
  tick := child.tick.bind fun _ => Paired.depth.bind fun d => (Paired.keep c d _).bind fun _ => .pure _
  reset k d fire := resetStarted_paired c child d fire k

theorem force_goes {v : Verdict} (child : A.Goes i b b') : A.Goes i (force cell v b) (force cell v b') where
  tick := child.tick.bind fun _ => Paired.depth.bind fun d => (Paired.keep c d _).bind fun _ => .pure _
  reset k d fire := resetStarted_paired c child d fire k

theorem guard_goes {holds : Predicate μ σ} {holds' : Predicate μ' σ}
    (tests : A.Paired i i (Run.test holds) (Run.test holds')) (child : A.Goes i b b') :
    A.Goes i (guard cell holds b) (guard cell holds' b') where
  tick := by
    have admits : ∀ d, A.Paired i i (admits cell holds d) (admits cell holds' d) := fun d => by
      refine (Paired.read c d).bind fun slot => ?_
      cases slot
      case started => exact .pure _
      all_goals exact tests
    refine Paired.depth.bind fun d => (admits d).bind fun _ => .ite ?_ (.pure _)
    exact child.tick.bind fun _ => (Paired.keep c d _).bind fun _ => .pure _
  reset k d fire := resetStarted_paired c child d fire k

theorem repeatUntil_goes {v : Verdict} (child : A.Goes i b b') :
    A.Goes i (repeatUntil cell v b) (repeatUntil cell v b') where
  tick := child.tick.bind fun _ => Paired.depth.bind fun d => (Paired.keep c d _).bind fun _ =>
    Paired.returning.bind fun _ => .ite (.pure _) (.pure _)
  reset k d fire := resetStarted_paired c child d fire k

theorem iterate_goes {goOn : Verdict} {spent : UInt32 → Bool} (child : A.Goes i b b') :
    A.Goes i (iterate cell goOn spent b) (iterate cell goOn spent b') where
  tick := by
    have forgets : ∀ d (s : Status), A.Paired i i (do cell.forget d; return s) (do cell.forget d; return s) :=
      fun d s => (Paired.forget c d).bind fun _ => .pure _
    have keeps : ∀ d (x : Slot σ), A.Paired i i (do cell.keep d x; return Status.running)
        (do cell.keep d x; return Status.running) := fun d x => (Paired.keep c d x).bind fun _ => .pure _
    refine Paired.depth.bind fun d => child.tick.bind fun s => Paired.returning.bind fun _ => .ite (forgets d s) ?_
    refine .ite ((Paired.read c d).bind fun _ => keeps d _) (.ite (forgets d s) ?_)
    exact (Paired.read c d).bind fun _ => .ite (forgets d s) (keeps d _)
  reset k d fire := by
    refine (Paired.take c d).bind fun slot => ?_
    cases slot
    case iterations n childRunning =>
      cases childRunning
      · exact .pure _
      · exact child.reset k d fire
    all_goals exact .pure _

theorem timeout_goes {duration : Duration} (child : A.Goes i b b') :
    A.Goes i (timeout cell duration b) (timeout cell duration b') where
  tick := by
    refine Paired.depth.bind fun d => (Paired.read c d).bind fun _ => Paired.delta.bind fun _ => ?_
    refine child.tick.bind fun _ => ?_
    refine .ite ((Paired.forget c d).bind fun _ => .pure _) (.ite ?_ ((Paired.keep c d _).bind fun _ => .pure _))
    exact (Paired.forget c d).bind fun _ => (child.reset i d true).bind fun _ => .pure _
  reset k d fire := by
    refine (Paired.take c d).bind fun slot => ?_
    cases slot
    case elapsed => exact child.reset k d fire
    all_goals exact .pure _

theorem delay_goes {duration : Duration} (child : A.Goes i b b') :
    A.Goes i (delay cell duration b) (delay cell duration b') where
  tick := by
    have released : ∀ d, A.Paired i i (release cell duration d) (release cell duration d) := fun d => by
      refine (Paired.read c d).bind fun slot => ?_
      cases slot
      case released => exact .pure _
      all_goals exact Paired.delta.bind fun _ => (Paired.keep c d _).bind fun _ => .pure _
    refine Paired.depth.bind fun d => (released d).bind fun _ => .ite (child.tick.bind fun _ => ?_) (.pure _)
    exact .ite ((Paired.forget c d).bind fun _ => .pure _) (.pure _)
  reset k d fire := by
    refine (Paired.take c d).bind fun slot => ?_
    cases slot
    case released => exact child.reset k d fire
    all_goals exact .pure _

theorem localScope_goes (child : A.Goes (A.overlay i) b b') : A.Goes i (localScope cell b) (localScope cell b') where
  tick := Paired.depth.bind fun d => (Paired.take c d).bind fun slot =>
    Paired.overlaid (f := fun s board => do if s.isRunning then cell.keep d (.overlay board)
                                            return s)
      slot.board child.tick fun _ board => .ite ((Paired.keep c d (.overlay board)).bind fun _ => .pure _) (.pure _)
  reset k d fire := by
    refine (Paired.take c d).bind fun slot => ?_
    cases slot
    case overlay => exact child.reset k d fire
    all_goals exact .pure _

/-- A scope whose hooks go in accord. -/
theorem scope_goes {host : Host ρ μ σ} {host' : Host ρ μ' σ} {hooks : Hooks μ σ} {hooks' : Hooks μ' σ}
    (enters : A.Paired i i (hooks.onEnter.run host) (hooks'.onEnter.run host'))
    (exits : ∀ k s, A.Paired k k (Run.remember (hooks.onExit s)) (Run.remember (hooks'.onExit s)))
    (child : A.Goes i b b') : A.Goes i (scope cell host hooks b) (scope cell host' hooks' b') where
  tick := by
    have opens : ∀ d, A.Paired i i (openScope cell host hooks d) (openScope cell host' hooks' d) := fun d => by
      refine (Paired.read c d).bind fun slot => ?_
      cases slot
      case started => exact .pure _
      all_goals exact (Paired.keep c d _).bind fun _ => (Paired.trace ..).bind fun _ => enters
    have settles : ∀ d s, A.Paired i i (settleReturn b d s) (settleReturn b' d s) := fun d s => by
      refine Paired.takeReturn.bind fun request => ?_
      cases request with
      | none => exact .pure _
      | some requested =>
        exact (Paired.report _).bind fun _ => .ite ((child.reset i d true).bind fun _ => .pure _) (.pure _)
    have closes : ∀ d s, A.Paired i i (closeScope cell hooks d s) (closeScope cell hooks' d s) := fun d s =>
      .ite ((Paired.forget c d).bind fun _ => (Paired.trace ..).bind fun _ => exits i s) (.pure _)
    refine Paired.depth.bind fun d => (opens d).bind fun _ => child.tick.bind fun s => (settles d s).bind fun s => ?_
    exact (closes d s).bind fun _ => .pure _
  reset k d fire := by
    refine (Paired.read c d).bind fun slot => ?_
    cases slot
    case started =>
      exact (Paired.forget c d).bind fun _ => (child.reset k d fire).bind fun _ => .ite (exits k .running) (.pure _)
    all_goals exact .pure _

/-! ## Children in order -/

theorem resetChild_paired (children : Forall₂ (A.Goes i) bs bs') (d : Nat) (fire : Bool) (k : A.Index) :
    A.Paired k k (cell.resetChild bs d fire) (cell.resetChild bs' d fire) := by
  refine (Paired.take c d).bind fun slot => ?_
  cases slot
  case child n =>
    dsimp only
    rcases Accord.Goes.lookup children n with ⟨none, none'⟩ | ⟨b, b', here, here', child⟩
    · rw [none, none', children.length_eq]
      exact .throw _
    · rw [here, here']
      exact child.reset k d fire
  all_goals exact .pure _

theorem inOrder_goes {pass : Verdict} (children : Forall₂ (A.Goes i) bs bs') :
    A.Goes i (inOrder cell pass bs) (inOrder cell pass bs') where
  tick := by
    have runs : ∀ d n {bs : List (Behaviour ρ μ σ)} {bs' : List (Behaviour ρ μ' σ)}, Forall₂ (A.Goes i) bs bs' →
        A.Paired i i (inOrderFrom cell pass d n bs) (inOrderFrom cell pass d n bs') := by
      intro d n bs bs' children
      induction children generalizing n with
      | nil => exact (Paired.forget c d).bind fun _ => .pure _
      | cons child _ ih =>
        refine child.tick.bind fun s => Paired.returning.bind fun _ =>
          .ite ((Paired.forget c d).bind fun _ => .pure _) ?_
        refine .ite ((Paired.keep c d _).bind fun _ => .pure _) (.ite (ih (n + 1)) ?_)
        exact (Paired.forget c d).bind fun _ => .pure _
    exact Paired.depth.bind fun d => (Paired.read c d).bind fun _ => runs d _ (List.forall₂_drop _ children)
  reset k d fire := resetChild_paired c children d fire k

theorem preempt_paired (children : Forall₂ (A.Goes i) bs bs') (d n : Nat) :
    A.Paired i i (cell.preempt bs d n) (cell.preempt bs' d n) := by
  refine (Paired.take c d).bind fun slot => ?_
  cases slot
  case child k =>
    refine .ite ?_ (.pure _)
    rcases Accord.Goes.lookup children k with ⟨none, none'⟩ | ⟨b, b', here, here', child⟩
    · rw [none, none', children.length_eq]
      exact .throw _
    · rw [here, here']
      exact child.reset i d true
  all_goals exact .pure _

theorem reactive_goes {pass : Verdict} (children : Forall₂ (A.Goes i) bs bs') :
    A.Goes i (reactive cell pass bs) (reactive cell pass bs') where
  tick := by
    have runs : ∀ d n {cs : List (Behaviour ρ μ σ)} {cs' : List (Behaviour ρ μ' σ)}, Forall₂ (A.Goes i) cs cs' →
        A.Paired i i (reactiveFrom cell pass bs d n cs) (reactiveFrom cell pass bs' d n cs') := by
      intro d n cs cs' rest
      induction rest generalizing n with
      | nil => exact (Paired.forget c d).bind fun _ => .pure _
      | cons child _ ih =>
        have preempts : A.Paired i i (cell.preempt bs d n) (cell.preempt bs' d n) := preempt_paired c children d n
        refine child.tick.bind fun s => Paired.returning.bind fun _ => .ite (preempts.bind fun _ => .pure _) ?_
        refine .ite (ih (n + 1)) (preempts.bind fun _ => ?_)
        exact .ite ((Paired.keep c d _).bind fun _ => .pure _) (.pure _)
    exact Paired.depth.bind fun d => runs d 0 children
  reset k d fire := resetChild_paired c children d fire k

/-! ## Children side by side -/

section
variable {seen rest : List (Tracked ρ μ σ)} {seen' rest' : List (Tracked ρ μ' σ)}

omit c in
theorem abort_paired (h : A.TracksAll i rest rest') (d : Nat) (fire : Bool) (k : A.Index) :
    A.Paired k k (abort d fire rest) (abort d fire rest') := by
  induction h with
  | nil => exact .pure _
  | @cons t t' _ _ first _ ih =>
    obtain ⟨b, state⟩ := t
    obtain ⟨b', state'⟩ := t'
    obtain ⟨child, rfl⟩ := first
    cases state with
    | running => exact (child.reset k d fire).bind fun _ => ih
    | idle | finished => exact ih

omit c in
theorem visit_paired {stop : Status → Bool} (before : A.TracksAll i seen seen') (after : A.TracksAll i rest rest')
    (d : Nat) : A.Paired i i (visit stop d seen rest) (visit stop d seen' rest') := by
  induction after generalizing seen seen' with
  | nil =>
    show A.Paired i i (pure (Sum.inr (seen.map (·.2)))) (pure (Sum.inr (seen'.map (·.2))))
    rw [before.states]
    exact .pure _
  | @cons t t' rest rest' first after ih =>
    obtain ⟨b, state⟩ := t
    obtain ⟨b', state'⟩ := t'
    obtain ⟨child, rfl⟩ := first
    have visited : ∀ s, A.TracksAll i (seen ++ [(b, s)]) (seen' ++ [(b', s)]) :=
      fun s => List.rel_append before (.cons ⟨child, rfl⟩ .nil)
    cases state with
    | finished s => exact ih (visited _)
    | running | idle =>
      refine child.tick.bind fun s => Paired.returning.bind fun _ => .ite ?_ (ih (visited _))
      exact (abort_paired (List.rel_append (visited _) after) d true i).bind fun _ => .pure _

theorem raceFrom_paired (before : A.TracksAll i seen seen') (after : A.TracksAll i rest rest') (d : Nat) :
    A.Paired i i (raceFrom cell d seen rest) (raceFrom cell d seen' rest') := by
  induction after generalizing seen seen' with
  | nil =>
    unfold raceFrom
    rw [before.states]
    exact (Paired.keep c d _).bind fun _ => .pure _
  | @cons t t' rest rest' first after ih =>
    obtain ⟨b, state⟩ := t
    obtain ⟨b', state'⟩ := t'
    obtain ⟨child, rfl⟩ := first
    refine child.tick.bind fun s => Paired.returning.bind fun _ => .ite ?_ ?_
    · have ended : A.TracksAll i (seen ++ (b, .finished s) :: rest) (seen' ++ (b', .finished s) :: rest') :=
        List.rel_append before (.cons ⟨child, rfl⟩ after)
      exact (abort_paired ended d true i).bind fun _ => .pure _
    · exact ih (List.rel_append before (.cons ⟨child, rfl⟩ .nil))

end

theorem resetTracked_paired (children : Forall₂ (A.Goes i) bs bs') (d : Nat) (fire : Bool) (k : A.Index) :
    A.Paired k k (resetTracked cell bs d fire) (resetTracked cell bs' d fire) := by
  refine (Paired.take c d).bind fun slot => ?_
  cases slot
  case children states => exact abort_paired (.zip children states) d fire k
  all_goals exact .pure _

theorem visitAll_paired {stop : Status → Bool} {otherwise : List ChildState → Status}
    (children : Forall₂ (A.Goes i) bs bs') :
    A.Paired i i (visitAll cell stop otherwise bs) (visitAll cell stop otherwise bs') := by
  refine Paired.depth.bind fun d => (Paired.take c d).bind fun _ => ?_
  rw [children.length_eq]
  refine (visit_paired .nil (.zip children _) d).bind fun r => ?_
  cases r with
  | inl => exact .pure _
  | inr => exact .ite ((Paired.keep c d _).bind fun _ => .pure _) (.pure _)

theorem parallel_goes {policy : ParallelPolicy} (children : Forall₂ (A.Goes i) bs bs') :
    A.Goes i (parallel cell policy bs) (parallel cell policy bs') :=
  ⟨visitAll_paired c children, fun k d fire => resetTracked_paired c children d fire k⟩

theorem join_goes {policy : JoinPolicy} (children : Forall₂ (A.Goes i) bs bs') :
    A.Goes i (join cell policy bs) (join cell policy bs') :=
  ⟨visitAll_paired c children, fun k d fire => resetTracked_paired c children d fire k⟩

theorem race_goes (children : Forall₂ (A.Goes i) bs bs') : A.Goes i (race cell bs) (race cell bs') where
  tick := by
    cases children with
    | nil => exact .pure _
    | cons first rest =>
      refine Paired.depth.bind fun d => (Paired.take c d).bind fun _ => ?_
      have children := Forall₂.cons first rest
      rw [children.length_eq]
      exact raceFrom_paired c .nil (.zip children _) d
  reset k d fire := resetTracked_paired c children d fire k

/-! ## One child among several, and calls -/

theorem selectOne_goes {chooser : Chooser ρ μ σ} {chooser' : Chooser ρ μ' σ}
    (picks : ∀ count, A.Paired i i (chooser.pick count) (chooser'.pick count))
    (completes : ∀ n, A.Paired i i (chooser.complete n) (chooser'.complete n)) (children : Forall₂ (A.Goes i) bs bs') :
    A.Goes i (selectOne cell chooser bs) (selectOne cell chooser' bs') where
  tick := by
    have chosen : ∀ d, A.Paired i i (choose cell chooser bs.length d) (choose cell chooser' bs'.length d) := fun d => by
      refine (Paired.read c d).bind fun slot => ?_
      rw [children.length_eq]
      cases slot.child? with
      | some => exact .pure _
      | none => exact picks _
    refine Paired.depth.bind fun d => (chosen d).bind fun o => ?_
    cases o with
    | none => exact .pure _
    | some n =>
      show A.Paired i i (tickChosen cell chooser bs d n) (tickChosen cell chooser' bs' d n)
      unfold tickChosen
      rcases Accord.Goes.lookup children n with ⟨none, none'⟩ | ⟨b, b', here, here', child⟩
      · rw [none, none', children.length_eq]
        exact .throw _
      · rw [here, here']
        refine child.tick.bind fun s => .ite ((Paired.keep c d _).bind fun _ => .pure _) ?_
        exact (Paired.forget c d).bind fun _ => (completes n).bind fun _ => .pure _
  reset k d fire := resetChild_paired c children d fire k

theorem callTarget_paired {resolve : Run ρ μ σ (Option TreeId)} {resolve' : Run ρ μ' σ (Option TreeId)}
    {makeState : Option (StateMaker μ σ)} {makeState' : Option (StateMaker μ' σ)}
    (resolves : A.Paired i i resolve resolve') (makes : A.Paired i i (stateFor makeState) (stateFor makeState'))
    (d : Nat) : A.Paired i i (callTarget cell resolve makeState d) (callTarget cell resolve' makeState' d) := by
  refine (Paired.read c d).bind fun slot => ?_
  cases slot
  case call => exact .pure _
  all_goals
    refine resolves.bind fun o => ?_
    cases o with
    | none => exact (Paired.report _).bind fun _ => .pure _
    | some => exact makes.bind fun _ => (Paired.keep c d _).bind fun _ => .pure _

/-- A call is made one level deeper, and left again. -/
theorem runCallee_paired {callee : Callee ρ μ σ} {callee' : Callee ρ μ' σ} (name : callee.name = callee'.name)
    (root : A.Paired (A.call i) (A.call i) callee.root.tick callee'.root.tick) (ownState fresh : Bool)
    (state : Option σ) (d : Nat) :
    A.Paired (A.call i) i (runCallee cell callee ownState fresh state d)
      (runCallee cell callee' ownState fresh state d) := by
  have announce : A.Paired (A.call i) (A.call i) (announceCall callee'.name fresh d)
      (announceCall callee'.name fresh d) :=
    .ite ((Paired.report _).bind fun _ => Paired.trace ..) (.pure _)
  have settles : ∀ s, A.Paired (A.call i) i
      (do Run.onContext (·.leave); finishCall cell callee'.name d s; return s)
      (do Run.onContext (·.leave); finishCall cell callee'.name d s; return s) := fun s =>
    (Paired.onContext fun _ _ h => A.left h).bind fun _ =>
      Paired.bind (.ite ((Paired.report _).bind fun _ => (Paired.trace ..).bind fun _ => .forget c d) (.pure _))
        fun _ => .pure _
  unfold runCallee
  rw [name]
  exact announce.bind fun _ => .ite ((root.withState state).bind settles) (root.bind settles)

theorem call_goes {resolve : Run ρ μ σ (Option TreeId)} {resolve' : Run ρ μ' σ (Option TreeId)}
    {makeState : Option (StateMaker μ σ)} {makeState' : Option (StateMaker μ' σ)} {callee : TreeId → Callee ρ μ σ}
    {callee' : TreeId → Callee ρ μ' σ} (resolves : A.Paired i i resolve resolve')
    (makes : A.Paired i i (stateFor makeState) (stateFor makeState')) (own : makeState.isSome = makeState'.isSome)
    (names : ∀ tree, (callee tree).name = (callee' tree).name)
    (callees : ∀ tree, A.Goes (A.call i) (callee tree).root (callee' tree).root) :
    A.Goes i (call cell resolve makeState callee) (call cell resolve' makeState' callee') where
  tick := by
    refine Paired.depth.bind fun d => (callTarget_paired c resolves makes d).bind fun o => ?_
    cases o with
    | none => exact .pure _
    | some target =>
      obtain ⟨tree, state, fresh⟩ := target
      dsimp only
      rw [names, own]
      exact Paired.enter (f := fun _ => do cell.forget d; return .failure)
        (g := fun _ => do cell.forget d; return .failure)
        _ (runCallee_paired c (names tree) (callees tree).tick makeState'.isSome fresh state d)
        fun _ => (Paired.forget c d).bind fun _ => .pure _
  reset k d fire := by
    refine (Paired.take c d).bind fun slot => ?_
    cases slot
    case call tree state => exact (callees tree).reset k (d + 1) fire
    all_goals exact .pure _

end

end Behaviour

end BehaviorTree
