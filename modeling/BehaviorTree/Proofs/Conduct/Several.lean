/-
  BehaviorTree.Proofs.Conduct.Several: nodes with several children and calls keep to a conduct.

  Whichever children are ticked and abandoned, in whatever order, each of them works at the
  node's place. A call works in the tree that its slot names, one call further down.
-/

import BehaviorTree.Proofs.Conduct.Behaviours
import BehaviorTree.Proofs.Passage

namespace BehaviorTree

variable {ρ μ σ α : Type} {sys : System μ σ} {stage : Stage ρ μ σ} {C : Conduct sys stage} {ticking : Prop} {p : Place}
  {bs : List (Behaviour ρ μ σ)}

namespace Conduct

open Behaviour

/-- So do all these behaviours. -/
def FaresAll (C : Conduct sys stage) (p : Place) (bs : List (Behaviour ρ μ σ)) : Prop := ∀ b ∈ bs, C.Fares p b

theorem FaresAll.zip (h : C.FaresAll p bs) (states : List ChildState) :
    ∀ t ∈ (bs.zip states : List (Tracked ρ μ σ)), C.Fares p t.1 := fun t ht => h t.1 (List.of_mem_zip ht).1

section
variable (own : C.Owns p)
include own

theorem Owns.resetChild (children : C.FaresAll p bs) (fire : Bool) :
    C.Heeds False p ((stage.cell p.site).resetChild bs p.depth fire) := by
  refine own.take.bind fun slot => ?_
  cases slot
  case child i =>
    dsimp only
    cases here : bs[i]? with
    | none => exact .throw _
    | some b => exact (children b (List.mem_of_getElem? here)).reset fire
  all_goals exact .pure _

/-! ## One after the other -/

theorem Owns.inOrderFrom {pass : Verdict} (children : C.FaresAll p bs) (first : Nat) :
    C.Heeds True p (inOrderFrom (stage.cell p.site) pass p.depth first bs) := by
  induction bs generalizing first with
  | nil => exact own.forget.bind fun _ => .pure _
  | cons b rest ih =>
    obtain ⟨child, others⟩ := List.forall_mem_cons.mp children
    refine child.tick.bind fun _ => Heeds.reading.bind fun _ => ?_
    refine .ite (fun _ => own.forget.bind fun _ => .pure _) fun _ => ?_
    refine .ite (fun _ => (own.keep rfl).bind fun _ => .pure _) fun _ => ?_
    exact .ite (fun _ => ih others _) fun _ => own.forget.bind fun _ => .pure _

theorem Owns.inOrder {pass : Verdict} (children : C.FaresAll p bs) :
    C.Fares p (inOrder (stage.cell p.site) pass bs) where
  tick := by
    refine .depth (Heeds.reading.bind fun _ => own.inOrderFrom (fun b hb => ?_) _)
    exact children b (List.mem_of_mem_drop hb)
  reset := own.resetChild children

theorem Owns.preempt (children : C.FaresAll p bs) {current : Nat} :
    C.Heeds True p ((stage.cell p.site).preempt bs p.depth current) := by
  refine own.take.bind fun slot => ?_
  cases slot
  case child i =>
    refine .ite (fun _ => ?_) fun _ => .pure _
    cases here : bs[i]? with
    | none => exact .throw _
    | some b => exact ((children b (List.mem_of_getElem? here)).reset true).anywhere
  all_goals exact .pure _

theorem Owns.reactiveFrom {pass : Verdict} {rest : List (Behaviour ρ μ σ)} (children : C.FaresAll p bs)
    (later : C.FaresAll p rest) (first : Nat) :
    C.Heeds True p (reactiveFrom (stage.cell p.site) pass bs p.depth first rest) := by
  induction rest generalizing first with
  | nil => exact own.forget.bind fun _ => .pure _
  | cons b rest ih =>
    obtain ⟨child, others⟩ := List.forall_mem_cons.mp later
    refine child.tick.bind fun _ => Heeds.reading.bind fun _ => ?_
    refine .ite (fun _ => (own.preempt children).bind fun _ => .pure _) fun _ => .ite (fun _ => ih others _) fun _ => ?_
    refine (own.preempt children).bind fun _ => .ite (fun _ => ?_) fun _ => .pure _
    exact (own.keep rfl).bind fun _ => .pure _

theorem Owns.reactive {pass : Verdict} (children : C.FaresAll p bs) :
    C.Fares p (reactive (stage.cell p.site) pass bs) where
  tick := .depth (own.reactiveFrom children children 0)
  reset := own.resetChild children

/-! ## Side by side -/

omit own in
theorem Heeds.abort {ts : List (Tracked ρ μ σ)} (children : ∀ t ∈ ts, C.Fares p t.1) (fire : Bool) :
    C.Heeds False p (abort p.depth fire ts) := by
  induction ts with
  | nil => exact .pure _
  | cons t ts ih =>
    obtain ⟨child, others⟩ := List.forall_mem_cons.mp children
    obtain ⟨b, state⟩ := t
    cases state with
    | running => exact (child.reset fire).bind fun _ => ih others
    | idle | finished => exact ih others

omit own in
theorem Heeds.visit {stop : Status → Bool} {seen rest : List (Tracked ρ μ σ)} (before : ∀ t ∈ seen, C.Fares p t.1)
    (after : ∀ t ∈ rest, C.Fares p t.1) : C.Heeds True p (visit stop p.depth seen rest) := by
  induction rest generalizing seen with
  | nil => exact .pure _
  | cons t rest ih =>
    obtain ⟨child, others⟩ := List.forall_mem_cons.mp after
    obtain ⟨b, state⟩ := t
    have visited : ∀ state, ∀ t ∈ seen ++ [(b, state)], C.Fares p t.1 :=
      fun state => List.forall_mem_append.mpr ⟨before, List.forall_mem_singleton.mpr child⟩
    cases state with
    | finished s => exact ih (visited _) others
    | running | idle =>
      refine child.tick.bind fun s => Heeds.reading.bind fun _ => .ite (fun _ => ?_) fun _ => ih (visited _) others
      exact (Heeds.abort (List.forall_mem_append.mpr ⟨visited _, others⟩) true).anywhere.bind fun _ => .pure _

omit own in
theorem Heeds.raceFrom {seen rest : List (Tracked ρ μ σ)} (own : C.Owns p) (before : ∀ t ∈ seen, C.Fares p t.1)
    (after : ∀ t ∈ rest, C.Fares p t.1) : C.Heeds True p (raceFrom (stage.cell p.site) p.depth seen rest) := by
  induction rest generalizing seen with
  | nil => exact (own.keep rfl).bind fun _ => .pure _
  | cons t rest ih =>
    obtain ⟨child, others⟩ := List.forall_mem_cons.mp after
    obtain ⟨b, state⟩ := t
    refine child.tick.bind fun s => Heeds.reading.bind fun _ => .ite (fun _ => ?_) fun _ => ?_
    · have ended : ∀ t ∈ seen ++ (b, .finished s) :: rest, C.Fares p t.1 :=
        List.forall_mem_append.mpr ⟨before, List.forall_mem_cons.mpr ⟨child, others⟩⟩
      exact (Heeds.abort ended true).anywhere.bind fun _ => .pure _
    · exact ih (List.forall_mem_append.mpr ⟨before, List.forall_mem_singleton.mpr child⟩) others

theorem Owns.resetTracked (children : C.FaresAll p bs) (fire : Bool) :
    C.Heeds False p (resetTracked (stage.cell p.site) bs p.depth fire) := by
  refine own.take.bind fun slot => ?_
  cases slot
  case children states => exact .abort (children.zip states) fire
  all_goals exact .pure _

theorem Owns.visitAll {stop : Status → Bool} {otherwise : List ChildState → Status} (children : C.FaresAll p bs) :
    C.Heeds True p (visitAll (stage.cell p.site) stop otherwise bs) := by
  refine .depth (own.take.bind fun slot => (Heeds.visit (fun t ht => by cases ht) (children.zip _)).bind fun r => ?_)
  cases r with
  | inl s => exact .pure _
  | inr states => exact .ite (fun _ => (own.keep rfl).bind fun _ => .pure _) fun _ => .pure _

theorem Owns.parallel {policy : ParallelPolicy} (children : C.FaresAll p bs) :
    C.Fares p (parallel (stage.cell p.site) policy bs) := ⟨own.visitAll children, own.resetTracked children⟩

theorem Owns.join {policy : JoinPolicy} (children : C.FaresAll p bs) :
    C.Fares p (join (stage.cell p.site) policy bs) := ⟨own.visitAll children, own.resetTracked children⟩

theorem Owns.race (children : C.FaresAll p bs) : C.Fares p (race (stage.cell p.site) bs) where
  tick := by
    refine .ite (fun _ => .pure _) fun _ => .depth (own.take.bind fun slot => ?_)
    exact .raceFrom own (fun t ht => by cases ht) (children.zip _)
  reset := own.resetTracked children

/-! ## One of them -/

theorem Owns.selectOne {chooser : Chooser ρ μ σ} (picks : ∀ count, C.Heeds True p (chooser.pick count))
    (completes : ∀ i, C.Heeds True p (chooser.complete i)) (children : C.FaresAll p bs) :
    C.Fares p (selectOne (stage.cell p.site) chooser bs) where
  tick := by
    have chooses : C.Heeds True p (choose (stage.cell p.site) chooser bs.length p.depth) := by
      refine Heeds.reading.bind fun slot => ?_
      cases slot.child? with
      | some i => exact .pure _
      | none => exact picks _
    refine .depth (chooses.bind fun o => ?_)
    cases o with
    | none => exact .pure _
    | some i =>
      show C.Heeds True p (tickChosen (stage.cell p.site) chooser bs p.depth i)
      unfold tickChosen
      cases here : bs[i]? with
      | none => exact .throw _
      | some b =>
        refine (children b (List.mem_of_getElem? here)).tick.bind fun _ => .ite (fun _ => ?_) fun _ => ?_
        · exact (own.keep rfl).bind fun _ => .pure _
        · exact own.forget.bind fun _ => (completes i).bind fun _ => .pure _
  reset := own.resetChild children

end

/-! ## Calls -/

section
variable {source : Source μ} {makeState : Option (StateMaker μ σ)} {resolve : Run ρ μ σ (Option TreeId)}
  {callee : TreeId → Callee ρ μ σ}

/-- A tree is looked up, one that the source names. -/
def LooksUp (C : Conduct sys stage) (p : Place) (source : Source μ) (resolve : Run ρ μ σ (Option TreeId)) : Prop :=
  C.Heeds True p resolve ∧ ∀ m tree m', resolve m = .ok (some tree) m' → source.Names tree

theorem Heeds.stateFor (spares : ∀ make, makeState = some make → ∀ s x, C.spares x (make s x).2) :
    C.Heeds ticking p (stateFor (ρ := ρ) makeState) := by
  cases makeState with
  | none => exact .pure _
  | some make =>
    refine Heeds.reading.bind fun _ => ?_
    exact (Heeds.consult (spares make rfl _)).bind fun _ => .pure _

/-- What is found is noted in the slot. -/
theorem callTarget_slot {m m' : Machine ρ μ σ} {tree : TreeId} {state : Option σ} {fresh : Bool}
    (found : callTarget (stage.cell p.site) resolve makeState p.depth m = .ok (some (tree, state, fresh)) m') :
    (stage.store m'.runs).slot p = .call tree state := by
  rcases callTarget_ok found with ⟨t, own, kept, same, rfl⟩ | ⟨-, ⟨_, _, none, _⟩ | ⟨t, own, m₁, x, _, same, rfl⟩⟩
  · cases same
    exact kept
  · cases none
  · cases same
    show (stage.store (stage.onStore _ m₁.runs)).slot p = _
    rw [stage.store_onStore]
    exact (Store.slot_set _ p p _).trans (if_pos rfl)

variable (own : C.Owns p) (here : sys.nodeAt p.site = some (.call source makeState))
  (spares : ∀ make, makeState = some make → ∀ s x, C.spares x (make s x).2)

include here spares in
theorem Heeds.callTarget (finds : C.LooksUp p source resolve) :
    C.Heeds True p (callTarget (stage.cell p.site) resolve makeState p.depth) := by
  have looks : ∀ f : Option TreeId → Run ρ μ σ (Option (TreeId × Option σ × Bool)), C.Heeds True p (f none) →
      (∀ tree, source.Names tree → C.Heeds True p (f (some tree))) → C.Heeds True p (resolve >>= f) := by
    intro f without found
    refine finds.1.bind' fun m o m₁ ran ready => ?_
    cases o with
    | none => exact without m₁ ready
    | some tree => exact found tree (finds.2 m tree m₁ ran) m₁ ready
  refine Heeds.reading.bind fun slot => ?_
  cases slot
  case call tree state => exact .pure _
  all_goals
    refine looks _ (Heeds.report.bind fun _ => .pure _) fun tree names => ?_
    have keeps : ∀ state, C.Heeds True p ((stage.cell p.site).keep p.depth (.call tree state)) :=
      fun state m _ => .ok (C.lookedUp m.runs m.memory state here names) (C.passing.refl _)
    exact (Heeds.stateFor spares).bind fun state => (keeps state).bind fun _ => .pure _

theorem Heeds.announceCall {name : String} {fresh : Bool} {depth : Nat} :
    C.Heeds ticking p (announceCall (ρ := ρ) (μ := μ) (σ := σ) name fresh depth) :=
  .ite (fun _ => Heeds.report.bind fun _ => .trace) fun _ => .pure _

include own in
theorem Owns.finishCall {name : String} {st : Status} :
    C.Heeds True p (finishCall (stage.cell p.site) name p.depth st) :=
  .ite (fun _ => Heeds.report.bind fun _ => Heeds.trace.bind fun _ => own.forget) fun _ => .pure _

include own here in
/-- A call that has been admitted works in its tree, one call further down, and is left then. -/
theorem Owns.leaves {tree : TreeId} {state : Option σ} {name : String} {m : Machine ρ μ σ} {c : Context σ}
    {a : Run ρ μ σ Status} (work : C.Heeds True (p.callee tree) a)
    (slot : (stage.store m.runs).slot p = .call tree state) (ready : m.context.depth = p.depth)
    (entered : m.context.enter name = .ok c) :
    C.Comes p m ((do
      let st ← a
      Run.onContext (·.leave)
      Behaviour.finishCall (stage.cell p.site) name p.depth st
      return st : Run ρ μ σ Status) { m with context := c }) := by
  have down : c.depth = (p.callee tree).depth := by rw [Context.enter_depth entered, ready]; rfl
  have came := work { m with context := c } fun _ => down
  show C.Comes p m (EStateM.bind a _ _)
  unfold EStateM.bind
  generalize a { m with context := c } = r at came
  cases came with
  | error does => exact .error (C.callee here slot does)
  | @ok st m₁ does passed =>
    have back := C.passing.called entered passed
    have finishes : C.Heeds True p (do
        Behaviour.finishCall (stage.cell p.site) name p.depth st
        return st) := own.finishCall.bind fun _ => Heeds.pure st
    refine Comes.after (n := { m₁ with context := m₁.context.leave }) (C.callee here slot does) back ?_
    exact finishes _ fun _ => (C.passing.depth back).trans ready

include own here spares in
theorem Owns.call (finds : C.LooksUp p source resolve)
    (roots : ∀ tree, C.Fares (p.callee tree) (callee tree).root) :
    C.Fares p (call (stage.cell p.site) resolve makeState callee) where
  tick := by
    refine .depth ((Heeds.callTarget here spares finds).bind' fun m o m₁ ran ready => ?_)
    cases o with
    | none =>
      have nothing : C.Heeds True p (Pure.pure Status.failure) := .pure _
      exact nothing m₁ ready
    | some target =>
      obtain ⟨tree, state, fresh⟩ := target
      have slot := callTarget_slot ran
      show C.Comes p m₁ ((Run.enter (callee tree).name >>= _) m₁)
      cases enters : m₁.context.enter (callee tree).name with
      | error o =>
        rw [Run.enter_bind_error enters]
        have refuses : C.Heeds True p (do
            Run.refuse o
            (stage.cell p.site).forget p.depth
            return Status.failure) := by
          refine .bind ?_ fun _ => own.forget.bind fun _ => .pure _
          exact Heeds.report.bind fun _ => Heeds.trace.bind fun _ => .onContext fun c => C.passing.refused c o
        exact refuses m₁ ready
      | ok c =>
        rw [Run.enter_bind_ok enters]
        have announced : C.Heeds True (p.callee tree)
            (Behaviour.announceCall (callee tree).name fresh p.depth) := .announceCall
        dsimp only [Behaviour.runCallee]
        split
        · rw [← bind_assoc]
          exact own.leaves here (announced.bind fun _ => (roots tree).tick.withState state) slot (ready trivial) enters
        · rw [← bind_assoc]
          exact own.leaves here (announced.bind fun _ => (roots tree).tick) slot (ready trivial) enters
  reset fire m _ := by
    rw [call_reset_apply]
    cases slot : (stage.cell p.site).get m.runs p.depth
    case call tree state =>
      have came := (roots tree).reset fire (m.onRuns ((stage.cell p.site).reset · p.depth)) fun no => no.elim
      rw [Place.callee_depth] at came
      dsimp only
      generalize (callee tree).root.reset (p.depth + 1) fire _ = r at came
      cases came with
      | ok does passed => exact .ok (C.givenUp here slot does) passed
      | error does => exact .error (C.givenUp here slot does)
    all_goals exact .ok (own.reset m.runs m.memory) (C.passing.refl _)

end

end Conduct

end BehaviorTree
