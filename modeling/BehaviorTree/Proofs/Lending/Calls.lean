/-
  BehaviorTree.Proofs.Lending.Calls: what calls lend their trees.

  A call that makes a state for its tree keeps it in its slot as long as the run goes on. The
  history says when that run started, and so which state it is (`Lends`). Wherever a tick stands, what
  comes to the history after that is told of its stays and sees the states in force (`lending`). So it is
  while a tick stays at a node that keeps to that (`stay_lends`), and at a call whose tree does,
  wherever its own tick ends (`lending_call`).
-/

import BehaviorTree.Proofs.Lending.Stays
import BehaviorTree.Proofs.Passage
import BehaviorTree.Proofs.Upkeep.Trees

namespace BehaviorTree

open Recorded (scene add add_history)

variable {ρ μ σ : Type}

/-- Where a tick stands: the history that there was, the stays since, and the depth and the state that it sees. -/
structure Outlook (μ σ : Type) where
  before : List (Moment μ σ)
  stays : List (Stay μ σ)
  depth : Nat
  state : Option σ

/-- Within a stay that starts at this machine. -/
def Outlook.within (o : Outlook μ σ) (site : Address) (m : Machine (Recorded μ σ) μ σ) : Outlook μ σ :=
  { o with before := m.runs.history ++ [.entered site (scene m)]
           stays := .of m.runs.history site (scene m) :: o.stays }

/-- One call deeper. -/
def Outlook.deeper (o : Outlook μ σ) : Outlook μ σ := { o with depth := o.depth + 1 }

namespace System

/-! ## What calls remember -/

section
variable (sys : System μ σ)

/-- A call that makes a state remembers the one that it made when its run started, and nothing without a run. -/
def LendsAt (r : Recorded μ σ) (p : Place) : Prop :=
  ∀ source make, sys.nodeAt p.site = some (.call source (some make)) →
    match startOf p r.history with
    | none => r.store.slot p = .idle
    | some start => ∃ tree, r.store.slot p = .call tree (some (madeAt source make start))

def Lends (r : Recorded μ σ) : Prop := ∀ p, sys.LendsAt r p

/-- The machine is as a tick finds it that stands there. -/
structure Stands (given : Option σ) (o : Outlook μ σ) (m : Machine (Recorded μ σ) μ σ) : Prop where
  depth : m.context.depth = o.depth
  state : m.context.state = o.state
  told : ∃ xs, m.runs.history = o.before ++ xs ∧ sys.Tale given o.before o.stays xs

end

variable {sys : System μ σ} {given : Option σ} {o : Outlook μ σ} {m n : Machine (Recorded μ σ) μ σ}
  {r r' : Recorded μ σ} {p q : Place} {site : Address} {node : Node μ σ} {status : Status}

theorem LendsAt.of_same (h : sys.LendsAt r p) (slot : r'.store.slot p = r.store.slot p)
    (start : startOf p r'.history = startOf p r.history) : sys.LendsAt r' p := by
  unfold LendsAt
  rw [slot, start]
  exact h

/-- Without a run nothing is remembered. -/
theorem LendsAt.of_idle (none : startOf p r.history = none)
    (idle : ∀ source make, sys.nodeAt p.site = some (.call source (some make)) → r.store.slot p = .idle) :
    sys.LendsAt r p := by
  intro source make here
  rw [none]
  exact idle source make here

theorem LendsAt.resumed {source : Source μ} {make : StateMaker μ σ} {tree : TreeId} {state : Option σ}
    (h : sys.LendsAt r p) (here : sys.nodeAt p.site = some (.call source (some make)))
    (slot : r.store.slot p = .call tree state) :
    ∃ start, startOf p r.history = some start ∧ state = some (madeAt source make start) := by
  have lent := h source make here
  split at lent
  · next none => cases lent.symm.trans slot
  · next start since =>
    obtain ⟨_, lent⟩ := lent
    cases lent.symm.trans slot
    exact ⟨start, since, rfl⟩

theorem LendsAt.fresh {source : Source μ} {make : StateMaker μ σ} (h : sys.LendsAt r p)
    (here : sys.nodeAt p.site = some (.call source (some make)))
    (slot : ∀ tree state, r.store.slot p ≠ .call tree state) :
    startOf p r.history = none ∧ r.store.slot p = .idle := by
  have lent := h source make here
  split at lent
  · next none => exact ⟨none, lent⟩
  · next =>
    obtain ⟨tree, lent⟩ := lent
    exact absurd lent (slot tree _)

/-- A run goes on, with the state made for it. -/
theorem LendsAt.of_kept {source : Source μ} {makeState : Option (StateMaker μ σ)} {start : Scene μ σ} {tree : TreeId}
    {state : Option σ} (here : sys.nodeAt p.site = some (.call source makeState))
    (since : startOf p r.history = some start) (slot : r.store.slot p = .call tree state)
    (made : ∀ make, makeState = some make → state = some (madeAt source make start)) : sys.LendsAt r p := by
  intro source' make there
  cases here.symm.trans there
  rw [since]
  exact ⟨tree, made make rfl ▸ slot⟩

theorem Lends.of_same (h : sys.Lends r) (slots : ∀ p, r'.store.slot p = r.store.slot p)
    (history : r'.history = r.history) : sys.Lends r' := fun p => (h p).of_same (slots p) (by rw [history])

/-- Other nodes lend nothing. -/
theorem LendsAt.of_plain (plain : ∀ source make, sys.nodeAt p.site ≠ some (.call source (some make))) :
    sys.LendsAt r p := fun source make here => absurd here (plain source make)

theorem LendsAt.add {x : Moment μ σ} (h : sys.LendsAt m.runs p) (elsewhere : ¬ x.At p) : sys.LendsAt (add x m).runs p :=
  h.of_same rfl (startOf_elsewhere elsewhere)

/-- The moment is about no call that makes a state. -/
theorem Lends.add {x : Moment μ σ} (h : sys.Lends m.runs)
    (plain : ∀ p source make, x.At p → sys.nodeAt p.site ≠ some (.call source (some make))) :
    sys.Lends (add x m).runs := by
  intro p
  by_cases there : x.At p
  · exact .of_plain fun source make => plain p source make there
  · exact (h p).add there

section
variable {d : Nat} (elsewhere : ∀ q, ¬ ⟨site, d⟩ = q → sys.LendsAt m.runs q)
include elsewhere

theorem Lends.set {slot : Slot σ}
    (here : sys.LendsAt (m.onRuns ((Stage.recording.cell (μ := μ) site).set · d slot)).runs ⟨site, d⟩) :
    sys.Lends (m.onRuns ((Stage.recording.cell (μ := μ) site).set · d slot)).runs := by
  intro q
  by_cases there : (⟨site, d⟩ : Place) = q
  · exact there ▸ here
  · exact (elsewhere q there).of_same ((Store.slot_set (p := ⟨site, d⟩) ..).trans (if_neg there)) rfl

theorem Lends.reset (here : sys.LendsAt (m.onRuns ((Stage.recording.cell (μ := μ) site).reset · d)).runs ⟨site, d⟩) :
    sys.Lends (m.onRuns ((Stage.recording.cell (μ := μ) site).reset · d)).runs := by
  intro q
  by_cases there : (⟨site, d⟩ : Place) = q
  · exact there ▸ here
  · exact (elsewhere q there).of_same ((Store.slot_reset (p := ⟨site, d⟩) ..).trans (if_neg there)) rfl

/-- The run is over at the place, which is forgotten. -/
theorem Lends.forgotten (ended : startOf ⟨site, d⟩ m.runs.history = none) :
    sys.Lends (m.onRuns ((Stage.recording.cell (μ := μ) site).reset · d)).runs :=
  .reset elsewhere (.of_idle ended fun _ _ _ => (Store.slot_reset (p := ⟨site, d⟩) ..).trans (if_pos rfl))

end

theorem Stands.same (h : sys.Stands given o m) (context : n.context = m.context)
    (history : n.runs.history = m.runs.history) : sys.Stands given o n where
  depth := by rw [context]; exact h.depth
  state := by rw [context]; exact h.state
  told := by rw [history]; exact h.told

theorem Stands.abandoned (h : sys.Stands given o m) (site : Address) (d : Nat) (fire : Bool) :
    sys.Stands given o (add (.abandoned site d fire (scene m)) m) where
  depth := h.depth
  state := h.state
  told := by
    obtain ⟨xs, history, told⟩ := h.told
    refine ⟨xs ++ [Moment.abandoned site d fire (scene m)], ?_, told.append (.abandoned ..)⟩
    rw [add_history, history, List.append_assoc]

variable (sys given) in
/-- What a tick keeps to that stands there. -/
def lending (o : Outlook μ σ) : Upkeep (Stage.recording (μ := μ) (σ := σ)) where
  holds m := sys.Stands given o m ∧ sys.Lends m.runs
  breaks _ m := sys.Lends m.runs ∧ ∃ xs, m.runs.history = o.before ++ xs ∧ sys.AllInForce given o.before o.stays xs
  passive held runs _ depth state := by
    obtain ⟨stands, lends⟩ := held
    rw [runs]
    exact ⟨⟨depth.trans stands.depth, state.trans stands.state, runs ▸ stands.told⟩, lends⟩
  aside held slots _ := ⟨held.1.same rfl rfl, held.2.of_same (slots _) rfl⟩

theorem lending_allows (e : Fault) : (sys.lending given o).Allows e := fun _ held =>
  let ⟨xs, history, told⟩ := held.1.told
  ⟨held.2, xs, history, told.inForce⟩

theorem lending_layered : (sys.lending given o).Layered := fun _ _ held =>
  ⟨⟨held.1.depth, held.1.state, held.1.told⟩, held.2⟩

theorem lending_open : (sys.lending given o).Open := ⟨lending_layered, fun _ => lending_allows _⟩

/-- The slots of other nodes do not matter. -/
theorem lending_owns {count : Nat} (plain : ∀ source make, sys.nodeAt site ≠ some (.call source (some make))) :
    (sys.lending given o).Owns (Stage.recording.cell (μ := μ) site) count where
  reads _ _ := .inr (lending_allows _)
  set held _ := ⟨held.1.same rfl rfl, .set (fun q _ => held.2 q) (.of_plain plain)⟩
  reset held := ⟨held.1.same rfl rfl, .reset (fun q _ => held.2 q) (.of_plain plain)⟩

theorem lending_chooses {policy : Policy μ} {count : Nat} :
    (sys.lending given o).Chooses (Stage.recording.chooser (σ := σ) site policy) count := by
  cases policy with
  | picker initial =>
    refine ⟨fun m held => .ok ⟨fun i _ => .inr (lending_allows _), ?_⟩, fun i m held => .ok ⟨trivial, ?_⟩⟩
    all_goals exact ⟨held.1.same rfl rfl, held.2.of_same (fun _ => rfl) rfl⟩
  | custom pick complete =>
    refine ⟨fun m held => .ok ⟨fun i _ => .inr (lending_allows _), ?_⟩, fun i => Upkeep.Keeps.remember⟩
    exact (sys.lending given o).passive held rfl rfl rfl rfl

/-! ## Stays -/

/-- A tick of a node is over: once it is left, calls lend what they should. -/
structure Closes (sys : System μ σ) (given : Option σ) (o : Outlook μ σ) (site : Address) (status : Status)
    (m : Machine (Recorded μ σ) μ σ) : Prop where
  stands : sys.Stands given o m
  lends : sys.Lends (add (.left site status (scene m)) m).runs

/-- The call forgets its run, and is left with an answer. -/
theorem Closes.forgotten {depth : Nat} (held : (sys.lending given o).holds m) (terminal : status.isTerminal)
    (there : o.depth = depth) :
    sys.Closes given o site status (m.onRuns ((Stage.recording.cell (μ := μ) site).reset · depth)) where
  stands := held.1.same rfl rfl
  lends := by
    obtain rfl : m.context.depth = depth := held.1.depth.trans there
    refine Lends.forgotten (m := add (.left site status (scene _)) m) (fun q apart => (held.2 q).add apart) ?_
    exact startOf_ended rfl terminal

/-- The run goes on after the node is left. -/
theorem Closes.suspended (held : (sys.lending given o).holds m) (running : ¬ status.isTerminal = true) :
    sys.Closes given o site status m where
  stands := held.1
  lends q := (held.2 q).of_same rfl (startOf_suspended running)

/-- The node sees the state in force, and its tick tells of the stay what is to be told. -/
theorem stay_lends {b : Behaviour (Recorded μ σ) μ σ} (stands : sys.Stands given o m)
    (sees : o.state = sys.stateAt given site o.stays)
    (inside : Run.Ends (sys.Closes given (o.within site m) site) (sys.lending given (o.within site m)).breaks
      (b.tick (add (.entered site (scene m)) m))) :
    Run.Ends (fun _ n => True ∧ (sys.lending given o).holds n) (sys.lending given o).breaks
      ((Stage.recording.watch site b).tick m) := by
  obtain ⟨xs, history, told⟩ := stands.told
  have enters : (scene m).context.state = sys.stateAt given site o.stays := stands.state.trans sees
  rw [recording_tick]
  generalize b.tick _ = ended at inside
  cases inside with
  | @ok st n closes =>
    obtain ⟨ys, later, inner⟩ := closes.stands.told
    have depth : n.context.depth = m.context.depth := closes.stands.depth.trans stands.depth.symm
    have state : n.context.state = m.context.state := closes.stands.state.trans stands.state.symm
    have stay := Tale.stay st (scene n) enters inner depth state
    refine .ok ⟨trivial, ⟨closes.stands.depth, closes.stands.state, _, ?_, told.append (history ▸ stay)⟩, closes.lends⟩
    show n.runs.history ++ _ = _
    simp [later, history, Outlook.within]
  | @error e n breaks =>
    obtain ⟨lends, ys, later, inner⟩ := breaks
    have stay := AllInForce.stay enters inner
    refine .error ⟨lends, _, ?_, told.inForce.append (by rw [told.back, ← history]; exact stay)⟩
    simp [later, history, Outlook.within]

/-! ## Calls -/

variable (sys) in
theorem resolve_run (stage : Stage ρ μ σ) (source : Source μ) (m : Machine ρ μ σ) :
    ∃ found, sys.resolve stage source m = .ok found (m.withMemory (source.after m.memory)) := by
  rcases source with (tree | tree) | provide
  all_goals exact ⟨_, rfl⟩

theorem stateFor_run (makeState : Option (StateMaker μ σ)) (m : Machine ρ μ σ) : ∃ memory,
    Behaviour.stateFor makeState m =
      .ok (makeState.map fun make => (make m.context.state m.memory).1) (m.withMemory memory) := by
  cases makeState with
  | none => exact ⟨_, rfl⟩
  | some make => exact ⟨_, rfl⟩

theorem lending_withState {α : Type} {state : Option σ} {a : Run (Recorded μ σ) μ σ α}
    (work : (sys.lending given { o with state }).Keeps a) : (sys.lending given o).Keeps (Run.withState state a) := by
  intro m held
  show Run.Ends _ _ ((a >>= _) { m with context := { m.context with state } })
  have within : (sys.lending given { o with state }).holds { m with context := { m.context with state } } :=
    ⟨⟨held.1.depth, rfl, held.1.told⟩, held.2⟩
  refine Run.Ends.bind (work _ within) fun x n came => ?_
  exact .ok ⟨trivial, ⟨came.2.1.depth, held.1.state, came.2.1.told⟩, came.2.2⟩

/-- The call is left, and forgets its run if that has ended. -/
theorem finishCall_closes {depth : Nat} {name : String} (held : (sys.lending given o).holds m)
    (there : o.depth = depth) : Run.Ends (sys.Closes given o site) (sys.lending given o).breaks ((do
      Behaviour.finishCall (Stage.recording.cell site) name depth status
      return status : Run (Recorded μ σ) μ σ Status) m) := by
  unfold Behaviour.finishCall
  split
  case isTrue terminal =>
    have tells : (sys.lending given o).Keeps (do
        Run.report (.finished name (depth + 1) status)
        Run.trace Tag.subtreeExit (UInt64.ofNat (depth + 1)) status.code) :=
      Upkeep.Keeps.report.bind fun _ => lending_open.tells [Tag.subtreeExit] _ (by simp) _ _
    rw [← bind_assoc, bind_assoc]
    refine (tells m held).bind fun _ n came => .ok (.forgotten came.2 terminal there)
  case isFalse running => exact .ok (.suspended held running)

/-- The tree is ticked one call deeper. -/
theorem left_closes {depth : Nat} {name : String} {a : Run (Recorded μ σ) μ σ Status}
    (work : (sys.lending given o.deeper).Keeps a) (held : (sys.lending given o.deeper).holds m)
    (there : o.depth = depth) : Run.Ends (sys.Closes given o site) (sys.lending given o).breaks ((do
      let status ← a
      Run.onContext (·.leave)
      Behaviour.finishCall (Stage.recording.cell site) name depth status
      return status : Run (Recorded μ σ) μ σ Status) m) := by
  refine (work m held).bind fun st n came => ?_
  have back : (sys.lending given o).holds { n with context := n.context.leave } :=
    ⟨⟨congrArg (· - 1) came.2.1.depth, came.2.1.state, came.2.1.told⟩, came.2.2⟩
  exact finishCall_closes back there

section
variable {source : Source μ} {makeState : Option (StateMaker μ σ)}

/-- A call that has just been entered finds the state that it made when its run started, or makes it now. -/
theorem callTarget_lends (here : sys.nodeAt site = some (.call source makeState))
    (held : (sys.lending given o).holds m) {fail : Fault → Machine (Recorded μ σ) μ σ → Prop} :
    Run.Ends (fun found n => sys.Stands given (o.within site m) n ∧ match found with
        | none => sys.Lends (add (.left site .failure (scene n)) n).runs
        | some (_, state, _) => sys.Lends n.runs ∧ ∀ make, makeState = some make →
            state = some (madeAt source make (Stay.of m.runs.history site (scene m)).since))
      fail (Behaviour.callTarget (Stage.recording.cell site) (sys.resolve .recording source) makeState m.context.depth
        (add (.entered site (scene m)) m)) := by
  let p : Place := ⟨site, m.context.depth⟩
  let stay : Stay μ σ := .of m.runs.history site (scene m)
  let m₁ := add (.entered site (scene m)) m
  have stands : sys.Stands given (o.within site m) m₁ :=
    ⟨held.1.depth, held.1.state, [], (List.append_nil _).symm, .nil⟩
  have elsewhere : ∀ q, ¬ p = q → sys.LendsAt m₁.runs q := fun q apart => (held.2 q).add apart
  have entered : startOf p m₁.runs.history = some stay.since := startOf_entered rfl
  have read : (Stage.recording.cell site).read m.context.depth m₁ = .ok (m.runs.store.slot p) m₁ := rfl
  unfold Behaviour.callTarget
  rw [Run.bind_ok read]
  cases slot : m.runs.store.slot p
  case call tree state =>
    have made : ∀ make, makeState = some make → state = some (madeAt source make stay.since) := by
      rintro make rfl
      obtain ⟨start, since, rfl⟩ := (held.2 p).resumed here slot
      show _ = some (madeAt source make ((startOf p m.runs.history).getD _))
      rw [since]
      rfl
    refine .ok ⟨stands, fun q => ?_, made⟩
    by_cases same : p = q
    · exact same ▸ .of_kept here entered slot made
    · exact elsewhere q same
  all_goals
    have fresh : ∀ make, makeState = some make → startOf p m.runs.history = none ∧ m.runs.store.slot p = .idle := by
      rintro make rfl
      exact (held.2 p).fresh here fun tree state h => by simp [slot] at h
    obtain ⟨found, resolved⟩ := resolve_run sys .recording source m₁
    dsimp only
    rw [Run.bind_ok resolved]
    cases found with
    | none =>
      refine .ok ⟨stands.same rfl rfl, fun q => ?_⟩
      by_cases same : p = q
      · subst same
        refine .of_idle (startOf_ended rfl rfl) fun source' make there => ?_
        cases here.symm.trans there
        exact (fresh make rfl).2
      · exact (elsewhere q same).of_same rfl (startOf_elsewhere same)
    | some tree =>
      obtain ⟨memory, made⟩ := stateFor_run makeState (m₁.withMemory (source.after m₁.memory))
      dsimp only
      rw [Run.bind_ok made]
      have now : ∀ make, makeState = some make → (makeState.map fun make =>
          (make m.context.state (source.after m.memory)).1) = some (madeAt source make stay.since) := by
        rintro make rfl
        show _ = some (madeAt source make ((startOf p m.runs.history).getD (scene m)))
        rw [(fresh make rfl).1]
        rfl
      refine .ok ⟨stands.same rfl rfl, Lends.set (m := m₁.withMemory memory) elsewhere ?_, now⟩
      exact .of_kept here entered ((Store.slot_set (p := p) ..).trans (if_pos rfl)) now

/-- A call that was admitted lends its tree the state that it has made, or else the state that it sees itself. -/
theorem runCallee_closes {callee : Callee (Recorded μ σ) μ σ} {state : Option σ} {fresh : Bool} {depth : Nat}
    {stack : Option CallStack} {stay : Stay μ σ} {stays : List (Stay μ σ)} (within : o.stays = stay :: stays)
    (here : sys.nodeAt stay.site = some (.call source makeState))
    (ticks : ∀ state, state = sys.stateAt given site o.stays →
      (sys.lending given { o.deeper with state }).Keeps callee.root.tick)
    (sees : o.state = sys.stateAt given stay.site stays)
    (made : ∀ make, makeState = some make → state = some (madeAt source make stay.since))
    (held : (sys.lending given o).holds m) (there : o.depth = depth) :
    Run.Ends (sys.Closes given o stay.site) (sys.lending given o).breaks
      (Behaviour.runCallee (Stage.recording.cell stay.site) callee makeState.isSome fresh state depth
        { m with context := { m.context with depth := m.context.depth + 1, stack } }) := by
  have entered : (sys.lending given o.deeper).holds
      { m with context := { m.context with depth := m.context.depth + 1, stack } } :=
    ⟨⟨congrArg (· + 1) held.1.depth, held.1.state, held.1.told⟩, held.2⟩
  have announces : (sys.lending given o.deeper).Keeps (Behaviour.announceCall callee.name fresh depth) :=
    .ite (Upkeep.Keeps.report.bind fun _ => lending_open.tells [Tag.subtreeEnter] _ (by simp) _ _) (.pure _)
  unfold Behaviour.runCallee
  refine (announces _ entered).bind fun _ n came => ?_
  split
  case isTrue makes =>
    obtain ⟨make, rfl⟩ := Option.isSome_iff_exists.mp makes
    have lent : state = sys.stateAt given site o.stays := by
      rw [within, stateAt_lent stay here]
      exact made make rfl
    exact left_closes (lending_withState (ticks state lent)) came.2 there
  case isFalse none =>
    obtain rfl := Option.not_isSome_iff_eq_none.mp none
    have seen : o.state = sys.stateAt given site o.stays := by
      rw [within, stateAt_called stay here]
      exact sees
    exact left_closes (ticks _ seen) came.2 there

/-- A call makes a state for its tree when a run starts, and lends it as long as the run goes on. -/
theorem lending_call (here : sys.nodeAt site = some (.call source makeState)) {ticking : Prop}
    {resolve : Run (Recorded μ σ) μ σ (Option TreeId)} {callee : TreeId → Callee (Recorded μ σ) μ σ}
    (finds : ticking → resolve = sys.resolve .recording source)
    (roots : ∀ o tree, (sys.lending given o).Tends (ticking ∧ o.state = sys.stateAt given [tree] o.stays)
      (callee tree).root) :
    (sys.lending given o).Tends (ticking ∧ o.state = sys.stateAt given site o.stays)
      (Stage.recording.watch site (.call (Stage.recording.cell site) resolve makeState callee)) where
  tick := by
    rintro ⟨t, sees⟩ m held₀
    refine stay_lends held₀.1 sees ?_
    rw [finds t]
    show Run.Ends _ _ ((Behaviour.callTarget _ _ makeState m.context.depth >>= _) _)
    refine (callTarget_lends here held₀).bind fun found n came => ?_
    obtain ⟨stands, came⟩ := came
    cases found with
    | none => exact .ok ⟨stands, came⟩
    | some target =>
      obtain ⟨tree, state, fresh⟩ := target
      obtain ⟨lends, made⟩ := came
      have held : (sys.lending given (o.within site m)).holds n := ⟨stands, lends⟩
      show Run.Ends _ _ ((Run.enter (callee tree).name >>= _) n)
      cases enters : n.context.enter (callee tree).name with
      | error refusal =>
        rw [Run.enter_bind_error enters]
        have refuses : (sys.lending given (o.within site m)).Keeps (Run.refuse refusal) :=
          Upkeep.Keeps.report.bind fun _ => (lending_open.tells [Tag.subtreeOverflow] _ (by simp) _ _).bind fun _ =>
            .onContext (fun _ => rfl) (fun _ => rfl) fun _ => rfl
        exact (refuses n held).bind fun _ k came => .ok (.forgotten came.2 rfl held₀.1.depth.symm)
      | ok c =>
        rw [Run.enter_bind_ok enters]
        obtain ⟨stack, rfl⟩ := Behaviour.enter_ok enters
        exact runCallee_closes rfl here (fun state lent => (roots _ tree).tick ⟨t, lent⟩) sees made held
          held₀.1.depth.symm
  reset d fire := by
    intro m held
    rw [recording_reset]
    have taken : (sys.lending given o).holds ((add (.abandoned site d fire (scene m)) m).onRuns
        ((Stage.recording.cell (μ := μ) site).reset · d)) := by
      refine ⟨(held.1.abandoned site d fire).same rfl rfl, .forgotten (fun q apart => (held.2 q).add apart) ?_⟩
      exact startOf_abandoned rfl
    have took : Run.Ends (fun _ n => (sys.lending given o).holds n) (sys.lending given o).breaks
        ((Stage.recording.cell site).take d (add (.abandoned site d fire (scene m)) m)) := .ok taken
    refine took.bind fun slot n held => ?_
    cases slot
    case call tree state => exact (roots o tree).reset (d + 1) fire n held
    all_goals exact .ok ⟨trivial, held⟩

end

end System

end BehaviorTree
