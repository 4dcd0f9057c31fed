/-
  BehaviorTree.Proofs.Minutes.Starts: what is done once in each run.

  A guard asks its predicate, a scope calls its callback, a call looks up its tree and has a state
  made for it, and a node that runs one child has it picked: all of them at the start of a run, and
  again only when the run is over at this depth. Until then the same child is ticked, or the same
  tree over the same state (`starts_once_per_run`).
-/

import BehaviorTree.Proofs.Minutes.Manners

namespace BehaviorTree

variable {ρ μ σ : Type}

/-! ## The manners of the nodes -/

namespace Manner

/-- Of a guard: the predicate is asked, and the child ticked if it holds. -/
def guard : Manner σ where
  opens acts := ∃ answer, acts = [.asked answer]
  works target acts answer := ∃ state, acts = [.ticked target.child state answer]
  keeps target slot := target = ⟨0, none⟩ ∧ slot = .started
  opens_starts := by
    rintro _ ⟨answer, rfl⟩
    simp [Act.starts]
  works_routine := by
    rintro _ _ _ ⟨state, rfl⟩
    simp [Routine, Act.starts]
  target_append := by
    rintro _ _ _ _ ⟨answer | answer, rfl⟩ chosen -
    · cases chosen
    · exact chosen

/-- Of a scope: the callback is called, and the child ticked. The node's answer may be another one than the child's,
which is a matter of requests to return. -/
def scope : Manner σ where
  opens acts := acts = [.entered]
  works target acts _ := ∃ state answer, acts = [.ticked target.child state answer]
  keeps target slot := target = ⟨0, none⟩ ∧ slot = .started
  opens_starts := by
    rintro _ rfl
    simp [Act.starts]
  works_routine := by
    rintro _ _ _ ⟨state, answer, rfl⟩
    simp [Routine, Act.starts]
  target_append := by
    rintro _ _ _ _ rfl chosen -
    exact chosen

/-- Of a call: the tree is looked up, and if there is one a state made for it, if the call makes one. The tree is ticked
over this state, or the call is refused. -/
def call (makes : Bool) : Manner σ where
  opens acts := acts = [.looked none] ∨
    ∃ tree, if makes then ∃ state, acts = [.looked (some tree), .made state] else acts = [.looked (some tree)]
  works target acts answer := acts = [] ∧ answer = .failure ∨
    ∃ state, acts = [.ticked target.child state answer] ∧ (makes = true → state = target.state)
  keeps target slot := slot = .call target.child target.state
  opens_starts := by
    rintro _ (rfl | ⟨tree, opens⟩)
    · simp [Act.starts]
    · cases makes with
      | true =>
        obtain ⟨state, rfl⟩ := opens
        simp [Act.starts]
      | false =>
        obtain rfl := opens
        simp [Act.starts]
  works_routine := by
    rintro _ _ _ (⟨rfl, -⟩ | ⟨state, rfl, -⟩) <;> simp [Routine, Act.starts]
  target_append := by
    rintro _ _ more _ (rfl | ⟨tree, opens⟩) chosen works
    · cases chosen
    · cases makes with
      | true =>
        obtain ⟨state, rfl⟩ := opens
        exact chosen
      | false =>
        obtain rfl := opens
        rcases works with ⟨rfl, -⟩ | ⟨state, rfl, -⟩ <;> exact chosen

/-- Of a node that runs one child: it is picked and ticked, and whoever picked it is told when it is done. -/
def choice : Manner σ where
  opens acts := ∃ child, acts = [.picked child]
  works target acts answer := ∃ state,
    acts = .ticked target.child state answer :: if answer.isTerminal then [.completed target.child] else []
  keeps target slot := target.state = none ∧ slot = .child target.child
  opens_starts := by
    rintro _ ⟨child, rfl⟩
    simp [Act.starts]
  works_routine := by
    rintro _ _ answer ⟨state, rfl⟩
    cases answer.isTerminal <;> simp [Routine, Act.starts]
  target_append := by
    rintro _ _ _ _ ⟨child | child, rfl⟩ chosen -
    · cases chosen
    · exact chosen

end Manner

/-! ## The four nodes -/

/-- What is put in the cell at other depths leaves this one alone. -/
structure Cell.Separates (cell : Cell ρ σ) (d : Nat) : Prop where
  set : ∀ r e x, e ≠ d → cell.get (cell.set r e x) d = cell.get r d
  reset : ∀ r e, e ≠ d → cell.get (cell.reset r e) d = cell.get r d

theorem Cell.alone_separates {d : Nat} : (Cell.alone : Cell (DepthSlots (Slot σ)) σ).Separates d where
  set r e x other := by simp [alone, DepthSlots.get_set, other]
  reset r e other := by simp [alone, DepthSlots.get_reset, other]

theorem Run.Sidesteps.pure {α : Type} {cell : Cell ρ σ} {d e : Nat} {x : α} :
    (Pure.pure x : Run ρ μ σ α).Sidesteps cell d e := by
  intro m y n depth ran
  cases ran
  exact ⟨depth, rfl⟩

theorem Run.Sidesteps.consult {α : Type} {cell : Cell ρ σ} {d e : Nat} {f : μ → α × μ} :
    (Run.consult f : Run ρ μ σ α).Sidesteps cell d e := by
  intro m y n depth ran
  cases ran
  exact ⟨depth, rfl⟩

/-- All is forgotten, and what was running is reset. -/
theorem Minuted.abandons {cell : Cell ρ σ} {d e : Nat} {slot : Slot σ} {m : Machine ρ (Minutes μ σ) σ}
    {work : Run ρ μ σ Unit} (begun : Minuted cell d slot [] e m) (holds : cell.Holds d)
    (leaves : ∀ m n, work m = .ok () n → cell.get n.runs d = cell.get m.runs d) :
    Concludes (fun _ n => n.memory.acts = [] ∧ cell.get n.runs d = .idle) (· = [])
      (work.unminuted (m.onRuns (cell.reset · d))) := by
  have forgotten := begun.reset holds
  exact Concludes.mono (forgotten.resets leaves rfl) (fun _ _ came => ⟨came.acts, came.slot⟩) fun _ => Eq.symm

namespace Behaviour

section
variable {cell : Cell ρ σ} {d : Nat} {child : Behaviour ρ μ σ} {slot : Slot σ} {acts : List (Act σ)}
  {broken : List (Act σ) → Prop} {m : Machine ρ (Minutes μ σ) σ}
  (holds : cell.Holds d) (apart : child.Avoids cell d d)
include holds apart

/-! ### Guards -/

/-- The child of a guard is ticked. -/
theorem guarded_concludes (begun : Minuted cell d slot acts d m) (known : broken acts) :
    Concludes (Manner.guard.Worked cell d acts ⟨0, none⟩) broken
      ((do
        let status ← (child.minuted 0).tick
        cell.note d status
        return status : Run ρ (Minutes μ σ) σ Status) m) := by
  refine (begun.minuted _ apart.tick known).bind fun status n came => ?_
  refine .ok ⟨_, came.acts, ⟨_, rfl⟩, ?_⟩
  rw [Manner.Leaves]
  show if _ then cell.get (cell.set n.runs d _) d = _ else Manner.guard.keeps _ (cell.get (cell.set n.runs d _) d)
  rw [holds.set]
  cases status with
  | running => exact ⟨rfl, rfl⟩
  | success | failure => rfl

theorem guard_conducts (predicate : Predicate μ σ) : Conducts .guard cell d (minutedGuard cell predicate child) where
  fresh m begun := by
    show Concludes _ _ ((Run.depth >>= _) m)
    have asked : admits cell predicate.minuted d m = .ok (predicate m.context m.memory.own).1
        (m.withMemory (predicate.minuted m.context m.memory).2) := by
      rw [admits, Cell.read_bind, begun.slot]
      rfl
    rw [Run.depth_bind, begun.depth, Run.bind_ok asked]
    have after : Minuted cell d .idle [.asked (predicate m.context m.memory.own).1] d
        (m.withMemory (predicate.minuted m.context m.memory).2) :=
      ⟨begun.slot, congrArg (· ++ _) begun.acts, begun.depth⟩
    generalize (predicate m.context m.memory.own).1 = answer at after
    cases answer with
    | false => exact .ok ⟨_, [], after.acts, ⟨false, rfl⟩, rfl, rfl, after.slot⟩
    | true =>
      have opens : Manner.guard.opens [Act.asked (σ := σ) true] := ⟨true, rfl⟩
      have known : Manner.guard.Breaks [] [Act.asked (σ := σ) true] := Manner.breaks_opened opens .nil
      exact (guarded_concludes holds apart after known).mono (fun _ _ came => came.opened opens rfl) fun _ => id
  resumed target slot m keeps begun := by
    obtain ⟨rfl, rfl⟩ := keeps
    show Concludes _ _ ((Run.depth >>= _) m)
    have going : admits cell predicate.minuted d m = .ok true m := by
      rw [admits, Cell.read_bind, begun.slot]
      rfl
    rw [Run.depth_bind, begun.depth, Run.bind_ok going]
    exact guarded_concludes holds apart begun .nil
  reset slot e fire m recalls begun := by
    show Concludes _ _ (cell.resetStarted (child.minuted 0) d fire m)
    rw [Cell.resetStarted_apply, begun.slot]
    rcases recalls with rfl | ⟨target, -, rfl⟩
    · exact .ok ⟨begun.acts, begun.slot⟩
    · exact begun.abandons holds (apart.reset fire)

/-! ### Scopes -/

omit holds in
/-- A request to return is taken. The child is reset if it was left running. -/
theorem settleReturn_concludes (begun : Minuted cell d slot acts d m) (known : broken acts) (ticked : Status) :
    Concludes (fun _ n => Minuted cell d slot acts n.context.depth n) broken
      (settleReturn (child.minuted 0) d ticked m) := by
  have taken : Concludes (fun _ n => Minuted cell d slot acts d n) broken (Run.takeReturn m) :=
    .ok (begun.same rfl rfl rfl)
  refine taken.bind fun request n came => ?_
  cases request with
  | none => exact .ok (came.depth.symm ▸ came)
  | some requested =>
    have told : Concludes (fun _ n => Minuted cell d slot acts d n) broken
        (Run.report (.returnConsumed d requested) n) := .ok (came.same rfl rfl rfl)
    refine told.bind fun _ n came => ?_
    show Concludes _ _ ((if _ then _ else _ : Run ρ (Minutes μ σ) σ Status) n)
    split
    · exact (came.resets (apart.reset true) known).bind fun _ n came => .ok came
    · exact .ok (came.depth.symm ▸ came)

omit apart in
/-- The run is over if the answer is not running. -/
theorem closeScope_concludes {e : Nat} (begun : Minuted cell d .started acts e m) (known : broken acts)
    (hooks : Hooks μ σ) (answer : Status) :
    Concludes (fun _ n => n.memory.acts = acts ∧ Manner.scope.Leaves ⟨0, none⟩ answer (cell.get n.runs d)) broken
      (closeScope cell hooks.minuted d answer m) := by
  unfold closeScope Manner.Leaves
  split
  · have forgotten : Concludes (fun _ n => Minuted cell d .idle acts e n) broken (cell.forget d m) :=
      .ok (begun.reset holds)
    exact forgotten.bind fun _ n came => (came.traces known).bind fun _ n came => .ok ⟨came.acts, came.slot⟩
  · exact .ok ⟨begun.acts, rfl, begun.slot⟩

/-- The child of a scope is ticked. -/
theorem scoped_concludes (begun : Minuted cell d .started acts d m)
    (known : ∀ more, Routine more → broken (acts ++ more)) (hooks : Hooks μ σ) :
    Concludes (Manner.scope.Worked cell d acts ⟨0, none⟩) broken
      ((do
        let ticked ← (child.minuted 0).tick
        let status ← settleReturn (child.minuted 0) d ticked
        closeScope cell hooks.minuted d status
        return status : Run ρ (Minutes μ σ) σ Status) m) := by
  have blank : broken acts := List.append_nil acts ▸ known [] .nil
  refine (begun.minuted _ apart.tick blank).bind fun ticked n came => ?_
  have known : broken (acts ++ [Act.ticked 0 m.context.state ticked]) := known _ .ticked
  refine (settleReturn_concludes apart came known ticked).bind fun status n came => ?_
  refine (closeScope_concludes holds came known hooks status).bind fun _ n came => ?_
  exact .ok ⟨_, came.1, ⟨_, _, rfl⟩, came.2⟩

theorem scope_conducts {host : Host ρ μ σ} {hooks : Hooks μ σ} (enters : (hooks.onEnter.run host).Sidesteps cell d d) :
    Conducts .scope cell d (minutedScope cell host hooks child) where
  fresh m begun := by
    show Concludes _ _ ((Run.depth >>= _) m)
    rw [Run.depth_bind, begun.depth]
    have opens : Manner.scope.opens [Act.entered (σ := σ)] := rfl
    have opened : Concludes (fun _ n => Minuted cell d .started [.entered] d n) (Manner.scope.Breaks [])
        (openScope cell host.minuted hooks.minuted d m) := by
      have known : Manner.scope.Breaks [] ([] : List (Act σ)) := Manner.breaks_nil opens
      rw [openScope, Cell.read_bind, begun.slot]
      have kept : Concludes (fun _ n => Minuted cell d .started [] d n) (Manner.scope.Breaks [])
          (cell.keep d .started m) := .ok (begun.set holds)
      refine kept.bind fun _ n came => (came.traces known).bind fun _ n came => ?_
      show Concludes _ _ ((do Run.remember (Minutes.add .entered); hooks.onEnter.minuted.run host.minuted) n)
      rw [Callback.run_minuted]
      have entered : Concludes (fun _ n => Minuted cell d .started [.entered] d n) (Manner.scope.Breaks [])
          (Run.remember (Minutes.add .entered) n) := .ok ⟨came.slot, congrArg (· ++ _) came.acts, came.depth⟩
      exact entered.bind fun _ n came => came.unminuted enters (Manner.breaks_opened opens .nil)
    refine opened.bind fun _ n came => ?_
    have ticked := scoped_concludes holds apart came (fun _ => Manner.breaks_opened opens) hooks
    exact ticked.mono (fun _ _ came => came.opened opens rfl) fun _ => id
  resumed target slot m keeps begun := by
    obtain ⟨rfl, rfl⟩ := keeps
    show Concludes _ _ ((Run.depth >>= _) m)
    have going : openScope cell host.minuted hooks.minuted d m = .ok () m := by
      rw [openScope, Cell.read_bind, begun.slot]
      rfl
    rw [Run.depth_bind, begun.depth, Run.bind_ok going]
    exact scoped_concludes holds apart begun (fun _ => id) hooks
  reset slot e fire m recalls begun := by
    rw [scope_reset_apply, begun.slot]
    rcases recalls with rfl | ⟨target, -, rfl⟩
    · exact .ok ⟨begun.acts, begun.slot⟩
    · refine (begun.abandons holds (apart.reset fire)).bind fun _ n came => ?_
      split
      · exact .ok came
      · exact .ok came

end

/-! ### Choices -/

section
variable {cell : Cell ρ σ} {d : Nat} {children : List (Behaviour ρ μ σ)} {chooser : Chooser ρ μ σ} {slot : Slot σ}
  {acts : List (Act σ)} {broken : List (Act σ) → Prop} {m : Machine ρ (Minutes μ σ) σ} (holds : cell.Holds d)
  (apart : ∀ child ∈ children, child.Avoids cell d d) (completes : ∀ i, (chooser.complete i).Sidesteps cell d d)
include holds apart completes

/-- The chosen child is ticked. -/
theorem chosen_concludes (begun : Minuted cell d slot acts d m) (known : ∀ more, Routine more → broken (acts ++ more))
    (i : Nat) : Concludes (Manner.choice.Worked cell d acts ⟨i, none⟩) broken
      (tickChosen cell chooser.minuted (children.mapIdx fun i child => child.minuted i) d i m) := by
  have blank : broken acts := List.append_nil acts ▸ known [] .nil
  unfold tickChosen
  rw [List.getElem?_mapIdx]
  cases here : children[i]? with
  | none => exact .error (begun.acts.symm ▸ blank)
  | some child =>
    have apart := apart child (List.mem_of_getElem? here)
    refine (begun.minuted _ apart.tick blank).bind fun answer n came => ?_
    have known : broken (acts ++ [Act.ticked i m.context.state answer]) := known _ .ticked
    unfold Manner.Worked Manner.Leaves
    cases answer with
    | running => exact .ok ⟨_, came.acts, ⟨_, rfl⟩, rfl, holds.set _ _⟩
    | success | failure =>
      have forgotten : Concludes (fun _ n => Minuted cell d .idle _ d n) broken (cell.forget d n) :=
        .ok (came.reset holds)
      refine forgotten.bind fun _ n came => ?_
      refine (came.minuted (fun _ _ => .completed i) (completes i) known).bind fun _ n came => ?_
      exact .ok ⟨_, came.acts.trans (List.append_assoc _ _ _), ⟨_, rfl⟩, came.slot⟩

theorem choice_conducts (picks : ∀ count, (chooser.pick count).Sidesteps cell d d) :
    Conducts .choice cell d (minutedChoice cell chooser children) where
  fresh m begun := by
    show Concludes _ _ ((Run.depth >>= _) m)
    rw [Run.depth_bind, begun.depth]
    have opens (child : Option Nat) : Manner.choice.opens [Act.picked (σ := σ) child] := ⟨child, rfl⟩
    have chosen : Concludes (fun child n => Minuted cell d .idle [.picked child] d n) (Manner.choice.Breaks [])
        (choose cell chooser.minuted (children.mapIdx fun i child => child.minuted i).length d m) := by
      have known : Manner.choice.Breaks [] ([] : List (Act σ)) := Manner.breaks_nil (opens none)
      rw [choose, Cell.read_bind, begun.slot]
      exact begun.minuted (fun _ => .picked) (picks _) known
    refine chosen.bind fun child n came => ?_
    cases child with
    | none => exact .ok ⟨_, [], came.acts, opens none, rfl, rfl, came.slot⟩
    | some i =>
      have ticked := chosen_concludes holds apart completes came (fun _ => Manner.breaks_opened (opens (some i))) i
      exact ticked.mono (fun _ _ came => came.opened (opens (some i)) rfl) fun _ => id
  resumed target slot m keeps begun := by
    obtain ⟨i, state⟩ := target
    obtain ⟨rfl, rfl⟩ := keeps
    show Concludes _ _ ((Run.depth >>= _) m)
    have going : choose cell chooser.minuted (children.mapIdx fun i child => child.minuted i).length d m =
        .ok (some i) m := by
      rw [choose, Cell.read_bind, begun.slot]
      rfl
    rw [Run.depth_bind, begun.depth, Run.bind_ok going]
    exact chosen_concludes holds apart completes begun (fun _ => id) i
  reset slot e fire m recalls begun := by
    show Concludes _ _ (cell.resetChild _ d fire m)
    rw [Cell.resetChild_apply, begun.slot]
    rcases recalls with rfl | ⟨target, -, rfl⟩
    · exact .ok ⟨begun.acts, holds.reset _⟩
    · dsimp only
      rw [List.getElem?_mapIdx]
      cases here : children[target.child]? with
      | none => exact .error begun.acts
      | some child => exact begun.abandons holds ((apart child (List.mem_of_getElem? here)).reset fire)

end

/-! ### Calls -/

section
variable {cell : Cell ρ σ} {d : Nat} {slot : Slot σ} {acts : List (Act σ)} {broken : List (Act σ) → Prop}
  {m : Machine ρ (Minutes μ σ) σ}

theorem announceCall_concludes {e : Nat} (begun : Minuted cell d slot acts e m) (known : broken acts) (name : String)
    (fresh : Bool) (depth : Nat) :
    Concludes (fun _ n => Minuted cell d slot acts e n) broken (announceCall name fresh depth m) := by
  unfold announceCall
  split
  · have told : Concludes (fun _ n => Minuted cell d slot acts e n) broken
        (Run.report (.entering name (depth + 1)) m) := .ok (begun.same rfl rfl rfl)
    exact told.bind fun _ n came => came.traces known
  · exact .ok begun

/-- The tree is ticked, over the state that was made for it if the call makes one. -/
theorem calledRoot_concludes {e : Nat} (begun : Minuted cell d slot acts e m) (known : broken acts)
    {root : Behaviour ρ μ σ} (sidesteps : root.tick.Sidesteps cell d e) (tree : TreeId) (makes : Bool)
    (own : Option σ) :
    Concludes (fun answer n => ∃ state, (makes = true → state = own) ∧
        Minuted cell d slot (acts ++ [Act.ticked tree state answer]) e n) broken
      ((if makes then Run.withState own (root.minuted tree).tick else (root.minuted tree).tick :
        Run ρ (Minutes μ σ) σ Status) m) := by
  cases makes with
  | false =>
    exact (begun.minuted _ sidesteps known).mono (fun _ _ came => ⟨_, by simp, came⟩) fun _ => id
  | true =>
    have lent : Minuted cell d slot acts e { m with context := { m.context with state := own } } :=
      begun.same rfl rfl rfl
    show Concludes _ _ (((root.minuted tree).tick >>= _) { m with context := { m.context with state := own } })
    exact (lent.minuted _ sidesteps known).bind fun answer n came => .ok ⟨own, fun _ => rfl, came.same rfl rfl rfl⟩

variable (holds : cell.Holds d)
include holds

/-- The run is over if the answer is not running. -/
theorem finishCall_concludes {e : Nat} {tree : TreeId} {own : Option σ}
    (begun : Minuted cell d (.call tree own) acts e m) (known : broken acts) (makes : Bool) (name : String)
    (answer : Status) :
    Concludes (fun _ n => n.memory.acts = acts ∧ (Manner.call makes).Leaves ⟨tree, own⟩ answer (cell.get n.runs d))
      broken (finishCall cell name d answer m) := by
  unfold finishCall Manner.Leaves
  split
  · have told : Concludes (fun _ n => Minuted cell d (.call tree own) acts e n) broken
        (Run.report (.finished name (d + 1) answer) m) := .ok (begun.same rfl rfl rfl)
    refine told.bind fun _ n came => (came.traces known).bind fun _ n came => ?_
    exact .ok ⟨came.acts, holds.reset _⟩
  · exact .ok ⟨begun.acts, begun.slot⟩

/-- A call that is refused ends the run. -/
theorem refused_concludes {e : Nat} (begun : Minuted cell d slot acts e m) (known : broken acts) (o : Overflow) :
    Concludes (fun answer n => n.memory.acts = acts ∧ answer = .failure ∧ cell.get n.runs d = .idle) broken
      ((do Run.refuse o; cell.forget d; return .failure : Run ρ (Minutes μ σ) σ Status) m) := by
  have told : Concludes (fun _ n => Minuted cell d slot acts e n) broken (Run.report (.refused o) m) :=
    .ok (begun.same rfl rfl rfl)
  have refused : Concludes (fun _ n => Minuted cell d slot acts e n) broken (Run.refuse o m) :=
    told.bind fun _ n came => (came.traces known).bind fun _ n came => .ok (came.same rfl rfl rfl)
  exact refused.bind fun _ n came => .ok ⟨came.acts, rfl, holds.reset _⟩

/-- The tree that was looked up is ticked, if the call is not refused. -/
theorem called_concludes {tree : TreeId} {own : Option σ} (begun : Minuted cell d (.call tree own) acts d m)
    (known : ∀ more, Routine more → broken (acts ++ more)) {callee : Callee ρ μ σ}
    (beneath : callee.root.Avoids cell d (d + 1)) {makes lends : Bool} (alike : lends = makes) (fresh : Bool) :
    Concludes ((Manner.call makes).Worked cell d acts ⟨tree, own⟩) broken
      ((do
        match ← Run.enter callee.name with
        | some o =>
          Run.refuse o
          cell.forget d
          return .failure
        | none => runCallee cell (callee.minuted tree) lends fresh own d : Run ρ (Minutes μ σ) σ Status) m) := by
  subst alike
  have blank : broken acts := List.append_nil acts ▸ known [] .nil
  cases admitted : m.context.enter callee.name with
  | error o =>
    rw [Run.enter_bind_error admitted]
    refine (refused_concludes holds begun blank o).mono (fun answer n came => ?_) fun _ => id
    obtain ⟨same, rfl, idle⟩ := came
    exact ⟨[], by rw [same, List.append_nil], .inl ⟨rfl, rfl⟩, idle⟩
  | ok entered =>
    rw [Run.enter_bind_ok admitted]
    obtain ⟨stack, rfl⟩ := enter_ok admitted
    have inside : Minuted cell d (.call tree own) acts (d + 1)
        { m with context := { m.context with depth := m.context.depth + 1, stack } } :=
      ⟨begun.slot, begun.acts, congrArg (· + 1) begun.depth⟩
    refine (announceCall_concludes inside blank callee.name fresh d).bind fun _ n came => ?_
    have ticked := calledRoot_concludes came blank beneath.tick tree lends own
    have finish : ∀ answer n, (∃ state, (lends = true → state = own) ∧
          Minuted cell d (.call tree own) (acts ++ [Act.ticked tree state answer]) (d + 1) n) →
        Concludes ((Manner.call lends).Worked cell d acts ⟨tree, own⟩) broken
          ((do
            Run.onContext (·.leave)
            finishCall cell callee.name d answer
            return answer : Run ρ (Minutes μ σ) σ Status) n) := by
      rintro answer n ⟨state, lent, came⟩
      have known : broken (acts ++ [Act.ticked tree state answer]) := known _ .ticked
      have outside : Minuted cell d (.call tree own) (acts ++ [Act.ticked tree state answer]) (n.context.depth - 1)
          (left n) := ⟨came.slot, came.acts, rfl⟩
      refine (finishCall_concludes holds outside known lends callee.name answer).bind fun _ n came => ?_
      exact .ok ⟨_, came.1, .inr ⟨state, rfl, lent⟩, came.2⟩
    -- the rest of the tick stands in each branch
    cases lends with
    | false => exact ticked.bind finish
    | true => exact ticked.bind finish

/-- A tree is looked up, and a state made for it, at the start of a run. -/
theorem callTarget_concludes (begun : Minuted cell d .idle [] d m) {resolve : Run ρ μ σ (Option TreeId)}
    (looks : resolve.Sidesteps cell d d) (makeState : Option (StateMaker μ σ)) :
    Concludes (fun found n => match found with
        | none => Minuted cell d .idle [.looked none] d n
        | some (tree, own, _) => ∃ start, Minuted cell d (.call tree own) start d n ∧
            (Manner.call makeState.isSome).opens start ∧ targetOf start = some ⟨tree, own⟩)
      ((Manner.call makeState.isSome).Breaks [])
      (callTarget cell (resolve.minuted fun _ => .looked) (makeState.map StateMaker.minuted) d m) := by
  have known : (Manner.call makeState.isSome).Breaks [] ([] : List (Act σ)) :=
    Manner.breaks_nil (.inl rfl)
  rw [callTarget, Cell.read_bind, begun.slot]
  refine (begun.minuted (fun _ => .looked) looks known).bind fun found n came => ?_
  cases found with
  | none => exact .ok (came.same rfl rfl rfl)
  | some tree =>
    cases makeState with
    | none => exact .ok ⟨[.looked (some tree)], came.set holds, .inr ⟨tree, rfl⟩, rfl⟩
    | some make =>
      refine .ok ⟨[.looked (some tree), .made (make n.context.state n.memory.own).1], ?_, .inr ⟨tree, _, rfl⟩, rfl⟩
      exact ⟨holds.set _ _, congrArg (· ++ _) came.acts, came.depth⟩

theorem call_conducts {resolve : Run ρ μ σ (Option TreeId)} (looks : resolve.Sidesteps cell d d)
    (makeState : Option (StateMaker μ σ)) {callee : TreeId → Callee ρ μ σ}
    (beneath : ∀ tree, (callee tree).root.Avoids cell d (d + 1)) :
    Conducts (.call makeState.isSome) cell d (minutedCall cell resolve makeState callee) where
  fresh m begun := by
    show Concludes _ _ ((Run.depth >>= _) m)
    rw [Run.depth_bind, begun.depth]
    refine (callTarget_concludes holds begun looks makeState).bind fun found n came => ?_
    rcases found with _ | ⟨tree, own, fresh⟩
    · exact .ok ⟨_, [], came.acts, .inl rfl, rfl, rfl, came.slot⟩
    · obtain ⟨start, came, opens, chosen⟩ := came
      have alike : (makeState.map StateMaker.minuted).isSome = makeState.isSome := Option.isSome_map
      have ticked := called_concludes holds came (fun _ => Manner.breaks_opened opens) (beneath tree) alike fresh
      exact ticked.mono (fun _ _ came => came.opened opens chosen) fun _ => id
  resumed target slot m keeps begun := by
    obtain ⟨tree, own⟩ := target
    obtain rfl := keeps
    show Concludes _ _ ((Run.depth >>= _) m)
    have going : callTarget cell (resolve.minuted fun _ => .looked) (makeState.map StateMaker.minuted) d m =
        .ok (some (tree, own, false)) m := by
      rw [callTarget, Cell.read_bind, begun.slot]
      rfl
    rw [Run.depth_bind, begun.depth, Run.bind_ok going]
    exact called_concludes holds begun (fun _ => id) (beneath tree) Option.isSome_map false
  reset slot e fire m recalls begun := by
    rw [call_reset_apply, begun.slot]
    rcases recalls with rfl | ⟨target, rfl⟩
    · exact .ok ⟨begun.acts, holds.reset _⟩
    · exact begun.abandons holds ((beneath target.child).reset fire)

end

/-! ### At other depths -/

section
variable {cell : Cell ρ σ} {d e : Nat} {child : Behaviour ρ μ σ} (separates : cell.Separates d) (other : e ≠ d)
include separates other

theorem leaf_reset_aside {tick : Nat → Run ρ μ σ Status} {fire : Bool} {m n : Machine ρ μ σ}
    (ended : (cell.leaf tick).reset e fire m = .ok () n) : cell.get n.runs d = cell.get m.runs d := by
  cases ended
  exact separates.reset _ _ other

theorem guard_aside (avoids : child.Avoids cell d e) (predicate : Predicate μ σ) :
    (guard cell predicate child).Aside cell d e where
  tick m answer n depth ticked := by
    subst depth
    rcases guard_ok ticked with ⟨-, -, _, rfl⟩ | ⟨x, k, inner, rfl⟩
    · rfl
    · exact (separates.set _ _ _ other).trans (avoids.tick (m.withMemory x) answer k rfl inner).2
  reset fire m n ended := by
    change cell.resetStarted child e fire m = _ at ended
    rw [Cell.resetStarted_apply] at ended
    split at ended
    · exact (avoids.reset fire _ n ended).trans (separates.reset _ _ other)
    · cases ended
      rfl

theorem scope_aside {host : Host ρ μ σ} {hooks : Hooks μ σ} (avoids : child.Avoids cell d e)
    (enters : (hooks.onEnter.run host).Sidesteps cell d e) : (scope cell host hooks child).Aside cell d e where
  tick m answer n depth ticked := by
    obtain ⟨m₀, status, m₁, m₂, opened, inner, settled, closed⟩ := scope_ok ticked
    subst depth
    have before : m₀.context.depth = m.context.depth ∧ cell.get m₀.runs d = cell.get m.runs d := by
      rcases openScope_ok opened with ⟨-, rfl⟩ | ⟨k, alike, entered⟩
      · exact ⟨rfl, rfl⟩
      · obtain ⟨depth, slot⟩ := enters k () m₀ alike.depth entered
        exact ⟨depth, slot.trans ((congrArg (cell.get · d) alike.runs).trans (separates.set _ _ _ other))⟩
    obtain ⟨depth, slot⟩ := avoids.tick m₀ status m₁ before.1 inner
    have after : cell.get m₂.runs d = cell.get m₁.runs d := by
      rcases settleReturn_ok settled with ⟨-, -, rfl⟩ | ⟨-, k, alike, ⟨-, reset⟩ | ⟨-, rfl⟩⟩
      · rfl
      · exact (avoids.reset true k m₂ reset).trans (congrArg (cell.get · d) alike.runs)
      · exact congrArg (cell.get · d) alike.runs
    have last : cell.get n.runs d = cell.get m₂.runs d := by
      rcases closeScope_ok closed with ⟨-, rfl⟩ | ⟨-, k, alike, rfl⟩
      · rfl
      · exact (congrArg (cell.get · d) alike.runs).trans (separates.reset _ _ other)
    calc cell.get n.runs d = cell.get m₁.runs d := last.trans after
      _ = cell.get m.runs d := slot.trans before.2
  reset fire m n ended := by
    rw [scope_reset_apply] at ended
    split at ended
    · obtain ⟨_, k, abandoned, left⟩ := Run.bind_eq_ok.mp ended
      have forgotten := (avoids.reset fire _ k abandoned).trans (separates.reset m.runs e other)
      split at left <;> cases left <;> exact forgotten
    · cases ended
      rfl

theorem call_aside {resolve : Run ρ μ σ (Option TreeId)} (looks : resolve.Sidesteps cell d e)
    (makeState : Option (StateMaker μ σ)) {callee : TreeId → Callee ρ μ σ}
    (avoids : ∀ tree, (callee tree).root.Avoids cell d (e + 1)) :
    (call cell resolve makeState callee).Aside cell d e where
  tick m answer n depth ticked := by
    obtain ⟨target, m₀, found, outcome⟩ := call_ok ticked
    subst depth
    have before : m₀.context.depth = m.context.depth ∧ cell.get m₀.runs d = cell.get m.runs d := by
      rcases callTarget_ok found with ⟨_, _, -, -, rfl⟩ | ⟨-, ⟨k, looked, -, alike⟩ | ⟨_, _, k, _, looked, -, rfl⟩⟩
      · exact ⟨rfl, rfl⟩
      · obtain ⟨depth, slot⟩ := looks m none k rfl looked
        exact ⟨alike.depth.trans depth, (congrArg (cell.get · d) alike.runs).trans slot⟩
      · obtain ⟨depth, slot⟩ := looks m (some _) k rfl looked
        exact ⟨depth, (separates.set _ _ _ other).trans slot⟩
    refine Eq.trans ?_ before.2
    rcases outcome with ⟨-, -, rfl⟩ | ⟨tree, own, fresh, -, ⟨_, k, -, alike, -, rfl⟩ | ⟨entered, admitted, ran⟩⟩
    · rfl
    · exact (separates.reset _ _ other).trans (congrArg (cell.get · d) alike.runs)
    · obtain ⟨stack, rfl⟩ := enter_ok admitted
      obtain ⟨k₀, k₁, k₂, k₃, begun, inner, ended, left, outcome⟩ := runCallee_ok ran
      have inside : k₀.context.depth = m.context.depth + 1 := begun.depth.trans (congrArg (· + 1) before.1)
      have slot : cell.get k₃.runs d = cell.get m₀.runs d := by
        rw [left.runs]
        show cell.get k₂.runs d = _
        rw [ended.runs, ((avoids tree).tick k₀ answer k₁ inside inner).2, begun.runs]
      rcases outcome with ⟨-, rfl⟩ | ⟨-, rfl⟩
      · exact slot
      · exact (separates.reset _ _ other).trans slot
  reset fire m n ended := by
    rw [call_reset_apply] at ended
    split at ended
    · exact ((avoids _).reset fire _ n ended).trans (separates.reset _ _ other)
    · cases ended
      exact separates.reset _ _ other

theorem choice_aside {children : List (Behaviour ρ μ σ)} {chooser : Chooser ρ μ σ}
    (avoids : ∀ child ∈ children, child.Avoids cell d e) (picks : ∀ count, (chooser.pick count).Sidesteps cell d e)
    (completes : ∀ i, (chooser.complete i).Sidesteps cell d e) : (selectOne cell chooser children).Aside cell d e where
  tick m answer n depth ticked := by
    obtain ⟨found, m₀, chosen, outcome⟩ := selectOne_ok ticked
    subst depth
    have before : m₀.context.depth = m.context.depth ∧ cell.get m₀.runs d = cell.get m.runs d := by
      rcases choose_ok chosen with ⟨_, -, -, rfl⟩ | ⟨-, picked⟩
      · exact ⟨rfl, rfl⟩
      · exact picks _ m found m₀ rfl picked
    refine Eq.trans ?_ before.2
    rcases outcome with ⟨-, -, rfl⟩ | ⟨i, -, ran⟩
    · rfl
    · obtain ⟨child, m₁, here, inner, outcome⟩ := tickChosen_ok ran
      obtain ⟨depth, slot⟩ := (avoids child (List.mem_of_getElem? here)).tick m₀ answer m₁ before.1 inner
      rcases outcome with ⟨-, rfl⟩ | ⟨-, told⟩
      · exact (separates.set _ _ _ other).trans slot
      · obtain ⟨-, spared⟩ := completes i (m₁.onRuns (cell.reset · m.context.depth)) () n depth told
        exact spared.trans ((separates.reset _ _ other).trans slot)
  reset fire m n ended := by
    change cell.resetChild children e fire m = _ at ended
    rw [Cell.resetChild_apply] at ended
    split at ended
    · split at ended
      · next child here =>
        exact ((avoids child (List.mem_of_getElem? here)).reset fire _ n ended).trans (separates.reset _ _ other)
      · cases ended
    · cases ended
      exact separates.reset _ _ other

end

/-! ### Once per run -/

section
variable {cell : Cell ρ σ} {d : Nat} (holds : cell.Holds d) (separates : cell.Separates d)
include holds separates

theorem guard_keeps (predicate : Predicate μ σ) (child : Behaviour ρ μ σ) :
    Keeps .guard cell d (child.Avoids cell d) (minutedGuard cell predicate child) where
  here apart := (guard_conducts holds apart predicate).oncePerRun
  elsewhere _ other apart := (guard_aside separates other apart predicate).mirrored ((minuted_nodes cell).1 _ _)

theorem scope_keeps (host : Host ρ μ σ) (hooks : Hooks μ σ) (child : Behaviour ρ μ σ) :
    Keeps .scope cell d (fun e => child.Avoids cell d e ∧ (hooks.onEnter.run host).Sidesteps cell d e)
      (minutedScope cell host hooks child) where
  here apart := (scope_conducts holds apart.1 apart.2).oncePerRun
  elsewhere _ other apart := (scope_aside separates other apart.1 apart.2).mirrored ((minuted_nodes cell).2.1 _ _ _)

theorem call_keeps (resolve : Run ρ μ σ (Option TreeId)) (makeState : Option (StateMaker μ σ))
    (callee : TreeId → Callee ρ μ σ) :
    Keeps (.call makeState.isSome) cell d
      (fun e => resolve.Sidesteps cell d e ∧ ∀ tree, (callee tree).root.Avoids cell d (e + 1))
      (minutedCall cell resolve makeState callee) where
  here apart := (call_conducts holds apart.1 makeState apart.2).oncePerRun
  elsewhere _ other apart :=
    (call_aside separates other apart.1 makeState apart.2).mirrored ((minuted_nodes cell).2.2.1 _ _ _)

theorem choice_keeps (chooser : Chooser ρ μ σ) (children : List (Behaviour ρ μ σ)) :
    Keeps .choice cell d
      (fun e => (∀ child ∈ children, child.Avoids cell d e) ∧ (∀ count, (chooser.pick count).Sidesteps cell d e) ∧
        ∀ i, (chooser.complete i).Sidesteps cell d e)
      (minutedChoice cell chooser children) where
  here apart := (choice_conducts holds apart.1 apart.2.2 apart.2.1).oncePerRun
  elsewhere _ other apart :=
    (choice_aside separates other apart.1 apart.2.1 apart.2.2).mirrored ((minuted_nodes cell).2.2.2 _ _)

end

/-- One tick of the node at the depth, or one reset, with what is told of it. It is a reset if something is said of
scopes. -/
def telling {α : Type} (node : Behaviour ρ μ σ) (d : Nat) (tick : Machine ρ μ σ → Status → Machine ρ μ σ → α)
    (reset : Machine ρ μ σ → Bool → Machine ρ μ σ → α) (m : Machine ρ μ σ) :
    Option Bool → Option (α × Machine ρ μ σ)
  | none => match node.tick m with
    | .ok answer n => if m.context.depth = d then some (tick m answer n, n) else none
    | .error _ _ => none
  | some fire => match node.reset d fire m with
    | .ok () n => some (reset m fire n, n)
    | .error _ _ => none

theorem telling_steps {α : Type} {node : Behaviour ρ μ σ} {d : Nat} {tick : Machine ρ μ σ → Status → Machine ρ μ σ → α}
    {reset : Machine ρ μ σ → Bool → Machine ρ μ σ → α} {m n : Machine ρ μ σ} {use : Option Bool} {x : α}
    {step : α → Machine ρ μ σ → Prop}
    (ticks : ∀ answer n, m.context.depth = d → node.tick m = .ok answer n → step (tick m answer n) n)
    (resets : ∀ fire n, node.reset d fire m = .ok () n → step (reset m fire n) n)
    (h : node.telling d tick reset m use = some (x, n)) : step x n := by
  cases use with
  | none =>
    dsimp only [telling] at h
    split at h
    · next ok =>
      split at h
      · next depth =>
        cases h
        exact ticks _ _ depth ok
      · cases h
    · cases h
  | some fire =>
    dsimp only [telling] at h
    split at h
    · next ok =>
      cases h
      exact resets fire _ ok
    · cases h

/-- One tick of the node, or one reset, and its stint. It is a reset if something is said of scopes. -/
def stintOf (node : Behaviour ρ (Minutes μ σ) σ) (d : Nat) (m : Machine ρ (Minutes μ σ) σ) :
    Option Bool → Option (Stint σ × Machine ρ (Minutes μ σ) σ)
  | none => match node.tick m with
    | .ok answer n => if m.context.depth = d then some (.tick n.memory.acts answer, n) else none
    | .error _ _ => none
  | some fire => match node.reset d fire m with
    | .ok () n => some (.reset fire n.memory.acts, n)
    | .error _ _ => none

theorem stintOf_served {node : Behaviour ρ (Minutes μ σ) σ} {d : Nat} {m n : Machine ρ (Minutes μ σ) σ}
    {use : Option Bool} {stint : Stint σ} (blank : m.memory.acts = []) (h : node.stintOf d m use = some (stint, n)) :
    Served d node m stint n := by
  have same : node.stintOf d m use = node.telling d (fun _ answer n => .tick n.memory.acts answer)
      (fun _ fire n => .reset fire n.memory.acts) m use := by
    cases use with
    | none =>
      dsimp only [stintOf, telling]
      cases node.tick m <;> rfl
    | some fire =>
      dsimp only [stintOf, telling]
      cases node.reset d fire m <;> rfl
  exact telling_steps (fun _ _ depth => .tick depth blank) (fun _ _ => .reset blank) (same.symm.trans h)

/-- One after the other, with blank minutes for each. -/
def stints (node : Behaviour ρ (Minutes μ σ) σ) (d : Nat) (m : Machine ρ (Minutes μ σ) σ) (uses : List (Option Bool)) :
    Option (List (Stint σ)) :=
  Going.played (node.stintOf d) (fun n => n.withMemory { n.memory with acts := [] }) m uses

theorem stints_reaches {cell : Cell ρ σ} {node : Behaviour ρ (Minutes μ σ) σ} {d : Nat} {m : Machine ρ (Minutes μ σ) σ}
    {uses : List (Option Bool)} {told : List (Stint σ)} (idle : cell.get m.runs d = .idle) (blank : m.memory.acts = [])
    (h : node.stints d m uses = some told) : ∃ n, (serving cell d node).Reaches told n := by
  refine Going.Reaches.played (fun m => m.memory.acts = []) ?_ ?_ ?_ (.start idle) blank h
  · exact fun _ _ _ _ => stintOf_served
  · exact fun _ => rfl
  · exact fun _ => rfl

theorem obedient_avoids {cell : Cell ρ σ} {d e : Nat} : Behaviour.Avoids cell d e obedient :=
  -- seen from there, every depth looks like this one
  let fixed : Cell ρ σ := ⟨fun r _ => cell.get r d, cell.set, cell.reset⟩
  have apart : Behaviour.Apart fixed e obedient := obedient_apart
  ⟨apart.tick, apart.reset⟩

/-- Nothing has run yet, and this is to be answered. -/
def briefed (script : List (Status × Bool)) :
    Machine (DepthSlots (Slot Nat)) (Minutes (List (Status × Bool)) Nat) Nat :=
  ⟨{}, ⟨script, []⟩, {}, #[], #[]⟩

/-- A guard whose predicate and child answer what they are told to. -/
def soloGuard : Behaviour (DepthSlots (Slot Nat)) (Minutes (List (Status × Bool)) Nat) Nat :=
  minutedGuard Cell.alone (fun _ answers => ((answers.headD (.failure, false)).1 == .success, answers.tail)) obedient

def soloScope : Behaviour (DepthSlots (Slot Nat)) (Minutes (List (Status × Bool)) Nat) Nat :=
  minutedScope Cell.alone ⟨fun _ _ => pure .failure, fun _ _ => pure ()⟩ {} obedient

/-- The tree to call, the state to make for it and the child to pick depend on how many answers are left. -/
def soloResolve : Run (DepthSlots (Slot Nat)) (List (Status × Bool)) Nat (Option TreeId) :=
  Run.consult fun answers => (some answers.length, answers)

def soloMaker : StateMaker (List (Status × Bool)) Nat := fun _ answers => (answers.length, answers)

def soloChooser : Chooser (DepthSlots (Slot Nat)) (List (Status × Bool)) Nat :=
  ⟨fun count => Run.consult fun answers => (some (answers.length % count), answers), fun _ => pure ()⟩

def soloCall : Behaviour (DepthSlots (Slot Nat)) (Minutes (List (Status × Bool)) Nat) Nat :=
  minutedCall Cell.alone soloResolve (some soloMaker) fun _ => ⟨"", obedient⟩

def soloChoice : Behaviour (DepthSlots (Slot Nat)) (Minutes (List (Status × Bool)) Nat) Nat :=
  minutedChoice Cell.alone soloChooser [obedient, obedient, obedient]

/-- The second run is abandoned. -/
def abandonedOnce : List (Option Bool) := [none, none, none, some true, none]

end Behaviour

/-! ## Nodes of a system -/

theorem Store.cell_separates {site : Address} {d : Nat} : (Store.cell site : Cell (Store σ) σ).Separates d where
  set s e slot other := by
    have elsewhere : (⟨site, e⟩ : Place) ≠ ⟨site, d⟩ := fun same => other (congrArg Place.depth same)
    exact (Store.slot_set s ⟨site, e⟩ ⟨site, d⟩ slot).trans (if_neg elsewhere)
  reset s e other := by
    have elsewhere : (⟨site, e⟩ : Place) ≠ ⟨site, d⟩ := fun same => other (congrArg Place.depth same)
    exact (Store.slot_reset s ⟨site, e⟩ ⟨site, d⟩).trans (if_neg elsewhere)

namespace System

/-- A child is away from what its parent remembers, at this depth and deeper. -/
theorem child_away {site : Address} {i d e : Nat} (deeper : d ≤ e) : d < e ∨ d = e ∧ ¬ (i :: site) <:+ site :=
  (Nat.lt_or_eq_of_le deeper).imp_right fun same => ⟨same, fun suffix => absurd suffix.length_le (by simp)⟩

section
variable {sys : System μ σ} {site : Address} {d : Nat} {p : Place}
  (away : d < p.depth ∨ d = p.depth ∧ ¬ p.site <:+ site)
include away

theorem Framed.spares {s t : Store σ} (framed : sys.Framed p s t) :
    (Store.cell site).get t d = (Store.cell site).get s d := by
  rcases away with shallower | ⟨same, outside⟩
  · exact framed.shallower ⟨site, d⟩ shallower
  · exact framed.beside ⟨site, d⟩ same outside

theorem framing_sidesteps {α : Type} {work : Run (Store σ) μ σ α} (heeds : (sys.framing .plain).Heeds True p work) :
    work.Sidesteps (Store.cell site) d p.depth := by
  intro m x n depth ran
  have came := heeds m fun _ => depth
  rw [ran] at came
  cases came with
  | ok does passed => exact ⟨passed.trans depth, Framed.spares away (Within.framed does)⟩

theorem framing_avoids {b : Behaviour (Store σ) μ σ} (fares : (sys.framing .plain).Fares p b) :
    b.Avoids (Store.cell site) d p.depth where
  tick := framing_sidesteps away fares.tick
  reset fire m n ended := by
    have came := fares.reset fire m nofun
    rw [ended] at came
    cases came with
    | ok does _ => exact Framed.spares away (Within.framed does)

end

section
variable (sys : System μ σ) (aloof : sys.Aloof) (host : Host (Store σ) μ σ) (levels : Nat) {site : Address}

theorem chooser_sidesteps (policy : Policy μ) (d e : Nat) :
    (∀ count, ((Stage.plain.chooser site policy : Chooser (Store σ) μ σ).pick count).Sidesteps (Store.cell site) d e) ∧
      ∀ i, ((Stage.plain.chooser site policy : Chooser (Store σ) μ σ).complete i).Sidesteps (Store.cell site) d e := by
  cases policy
  all_goals
    refine ⟨fun count m found n depth ran => ?_, fun i m u n depth ran => ?_⟩
    · cases ran
      exact ⟨depth, rfl⟩
    · cases ran
      exact ⟨depth, rfl⟩

theorem resolve_sidesteps (source : Source μ) (d e : Nat) :
    (sys.resolve Stage.plain source : Run (Store σ) μ σ (Option TreeId)).Sidesteps (Store.cell site) d e := by
  intro m found n depth ran
  rcases source with (tree | tree) | provide
  all_goals
    cases ran
    exact ⟨depth, rfl⟩

include aloof

/-- In a tick in progress, a child of the node leaves alone what the node remembers at this depth, when it is ticked or
reset here or deeper. -/
theorem child_avoids {i d e : Nat} {child : Node μ σ} (there : sys.nodeAt (i :: site) = some child) (deeper : d ≤ e) :
    (child.behaviour (sys.tickLinks .plain host (sys.tickRoot .plain host levels)) (i :: site)).Avoids
      (Store.cell site) d e := by
  have upheld : (sys.framing .plain).Upheld := framing_upheld aloof fun _ _ => rfl
  exact framing_avoids (p := ⟨i :: site, e⟩) (child_away deeper) (upheld.inTick host levels there e)

/-- What is required of the parts of these nodes is true in a tick in progress, at each depth from this one on. So each
of them does once per run what belongs to the start of a run, and neither ticks nor resets at greater depths count. -/
theorem node_starts_once {node : Node μ σ} (here : sys.nodeAt site = some node) (d : Nat) :
    let links := sys.tickLinks .plain host (sys.tickRoot .plain host levels)
    match node with
    | .guard holds child => Keeps .guard (Store.cell site) d (d ≤ ·)
        (Behaviour.minutedGuard (Store.cell site) holds (child.behaviour links (0 :: site)))
    | .scope hooks child => Keeps .scope (Store.cell site) d (d ≤ ·)
        (Behaviour.minutedScope (Store.cell site) host hooks (child.behaviour links (0 :: site)))
    | .call source makeState => Keeps (.call makeState.isSome) (Store.cell site) d (d ≤ ·)
        (Behaviour.minutedCall (Store.cell site) (sys.resolve .plain source) makeState links.callee)
    | .selectOne policy children => Keeps .choice (Store.cell site) d (d ≤ ·)
        (Behaviour.minutedChoice (Store.cell site) (Stage.plain.chooser site policy)
          (Node.behaviours links site 0 children))
    | _ => True := by
  have upheld : (sys.framing .plain).Upheld := framing_upheld aloof fun _ _ => rfl
  cases node with
  | guard holds child =>
    exact (Behaviour.guard_keeps Store.cell_holds Store.cell_separates holds _).mono fun e deeper =>
      child_avoids sys aloof host levels (sys.nodeAt_child here rfl) deeper
  | scope hooks child =>
    refine (Behaviour.scope_keeps Store.cell_holds Store.cell_separates host hooks _).mono fun e deeper => ?_
    have only : hooks.onEnter.Only fun _ => False := aloof _ _ here
    -- the callback touches no slots, so any place away from the node will do
    have heeds : (sys.framing .plain).Heeds True ⟨0 :: site, e⟩ (hooks.onEnter.run host) := framing_callback only
    exact ⟨child_avoids sys aloof host levels (sys.nodeAt_child here rfl) deeper,
      framing_sidesteps (child_away deeper) heeds⟩
  | call source makeState =>
    refine (Behaviour.call_keeps Store.cell_holds Store.cell_separates _ makeState _).mono fun e deeper => ?_
    refine ⟨resolve_sidesteps sys source d e, fun tree => ?_⟩
    exact framing_avoids (p := ⟨[tree], e + 1⟩) (.inl (Nat.lt_succ_of_le deeper))
      ⟨upheld.tickRoot host levels tree (e + 1), upheld.resetAt tree (e + 1)⟩
  | selectOne policy children =>
    refine (Behaviour.choice_keeps Store.cell_holds Store.cell_separates _ _).mono fun e deeper => ?_
    refine ⟨Node.forall_behaviours fun i inner there => ?_, chooser_sidesteps policy d e⟩
    exact child_avoids sys aloof host levels (sys.nodeAt_child here there) deeper
  | _ => trivial

end

end System

end BehaviorTree
