/-
  BehaviorTree.Proofs.Unroll.Calls: calls between the copies of trees.

  Above the last depth a call runs the same tree as the call of the copy, one depth further
  down. At the last depth the recursion guard refuses it, or there is no level left to tick the
  tree at; its slot is free until then, and empty at the end.
-/

import BehaviorTree.Proofs.Passage
import BehaviorTree.Proofs.Unroll.Layers

namespace BehaviorTree

variable {ρ μ σ α : Type}

/-! ## The tree that a call runs -/

namespace Behaviour

variable {cell : Cell ρ σ} {resolve : Run ρ μ σ (Option TreeId)} {makeState : Option (StateMaker μ σ)} {d : Nat}
  {m : Machine ρ μ σ}

theorem callTarget_resumed {tree : TreeId} {state : Option σ} (runs : cell.get m.runs d = .call tree state) :
    callTarget cell resolve makeState d m = .ok (some (tree, state, false)) m := by
  refine (Run.bind_ok (a := cell.read d) (m := m) rfl).trans ?_
  rw [runs]
  rfl

/-- Without a run, a call looks up its tree. -/
theorem callTarget_rests (rests : ∀ tree state, cell.get m.runs d ≠ .call tree state) :
    callTarget cell resolve makeState d m = (resolve >>= fun found => match found with
      | none => do
        Run.report (.noTree d)
        return none
      | some tree => do
        let state ← stateFor makeState
        cell.keep d (.call tree state)
        return some (tree, state, true) : Run ρ μ σ _) m := by
  refine (Run.bind_ok (a := cell.read d) (m := m) rfl).trans ?_
  generalize cell.get m.runs d = slot at rests
  cases slot
  case call => exact absurd rfl (rests _ _)
  all_goals rfl

theorem callTarget_fresh {tree : TreeId} (rests : ∀ tree state, cell.get m.runs d ≠ .call tree state)
    (found : resolve m = .ok (some tree) m) : callTarget cell resolve makeState d m = (do
      let state ← stateFor makeState
      cell.keep d (.call tree state)
      return some (tree, state, true) : Run ρ μ σ _) m :=
  (callTarget_rests rests).trans (Run.bind_ok found)

theorem callTarget_none (rests : ∀ tree state, cell.get m.runs d ≠ .call tree state) (found : resolve m = .ok none m) :
    callTarget cell resolve makeState d m = .ok none { m with journal := m.journal.push (.noTree d) } :=
  ((callTarget_rests rests).trans (Run.bind_ok found)).trans rfl

theorem callTarget_fails {e : Fault} (rests : ∀ tree state, cell.get m.runs d ≠ .call tree state)
    (fails : resolve m = .error e m) : callTarget cell resolve makeState d m = .error e m :=
  (callTarget_rests rests).trans (Run.bind_error fails)

theorem stateFor_same (makeState : Option (StateMaker μ σ)) {ρ' : Type} {m' : Machine ρ' μ σ} (same : m.Same m') :
    ∃ state x, stateFor makeState m = .ok state (m.withMemory x) ∧
      stateFor makeState m' = .ok state (m'.withMemory x) := by
  cases makeState with
  | none => exact ⟨none, m.memory, rfl, by rw [same.memory]; rfl⟩
  | some make =>
    refine ⟨some (make m.context.state m.memory).1, (make m.context.state m.memory).2, rfl, ?_⟩
    rw [same.context, same.memory]
    rfl

end Behaviour

namespace System

variable {sys : System μ σ} {last layer : Nat} {held : List TreeId}

/-- What a call and the call of its copy find around them. -/
structure CallsOn (sys : System μ σ) (last : Nat) (held : List TreeId) (layer : Nat)
    (callee callee' : TreeId → Callee (Store σ) μ σ) : Prop where
  name : ∀ tree : Nat, tree < sys.trees.size →
    (callee tree).name = (callee' (sys.copyAt (min (layer + 1) last) tree)).name
  /-- There is no level left to tick a tree called at the last depth. -/
  stop : layer = last → ∀ tree, (callee tree).root.tick = throw .callLimit ∧ (callee' tree).root.tick = throw .callLimit
  tick : layer < last → ∀ tree : Nat, tree < sys.trees.size → sys.Available held tree →
    Lock Always (sys.Unrolls last held Bound) (layer + 1) (callee tree).root.tick
      (callee' (sys.copyAt (layer + 1) tree)).root.tick
  reset : layer < last → ∀ tree : Nat, tree < sys.trees.size → ∀ e fire, Lock Always (sys.Unrolls last held Bound) e
    ((callee tree).root.reset (layer + 1) fire) ((callee' (sys.copyAt (layer + 1) tree)).root.reset (layer + 1) fire)

/-- The one lookup finds an available tree and the other its copy, or both find none, or both fail. -/
def LooksUp (sys : System μ σ) (last : Nat) (held : List TreeId) (layer : Nat)
    (resolve resolve' : Run (Store σ) μ σ (Option TreeId)) : Prop :=
  ∀ m m', sys.Unrolls last held Bound m.runs m'.runs →
    (∃ tree : Nat, tree < sys.trees.size ∧ sys.Available held tree ∧ resolve m = .ok (some tree) m ∧
      resolve' m' = .ok (some (sys.copyAt (min (layer + 1) last) tree)) m') ∨
    (resolve m = .ok none m ∧ resolve' m' = .ok none m') ∨ ∃ e, resolve m = .error e m ∧ resolve' m' = .error e m'

/-- The slot of a call at the last depth is free while the call is about to be refused. -/
def FreeAt (last layer : Nat) (p q : Place) : Prop := layer = last ∧ q = p

/-- How a call and the call of its copy come by their trees: neither does, or the one comes by a tree, which it
keeps, and the other by its copy. -/
inductive FindsCopy (sys : System μ σ) (last : Nat) (held : List TreeId) (layer : Nat) (p : Place) :
    EStateM.Result Fault (Machine (Store σ) μ σ) (Option (TreeId × Option σ × Bool)) →
    EStateM.Result Fault (Machine (Store σ) μ σ) (Option (TreeId × Option σ × Bool)) → Prop
  | failed (e : Fault) {m m' : Machine (Store σ) μ σ} : m.Same m' →
      FindsCopy sys last held layer p (.error e m) (.error e m')
  | none {m m' : Machine (Store σ) μ σ} : Along (sys.AtLayer last held layer layer) layer m m' →
      FindsCopy sys last held layer p (.ok none m) (.ok none m')
  | found {t : Nat} (known : t < sys.trees.size) (available : sys.Available held t) (state : Option σ) (fresh : Bool)
      {m m' : Machine (Store σ) μ σ} : Along (sys.Unrolls last held (FreeAt last layer p)) layer m m' →
      FindsCopy sys last held layer p (.ok (some (t, state, fresh)) m)
        (.ok (some (sys.copyAt (min (layer + 1) last) t, state, fresh)) m')

section
variable {w : List Nat} {tree : Nat} (known : tree < sys.trees.size)

include known in
theorem forget_lock (within : layer ≤ last) {free : Place → Prop}
    (others : ∀ q, q ≠ ⟨w ++ [tree], layer⟩ → ¬ free q) (e : Nat) :
    Sim Always (Along (sys.Unrolls last held free) e) id
      (Cell.forget (μ := μ) ((Stage.plain (μ := μ)).cell (w ++ [tree])) layer)
      (Cell.forget (Store.scalar (w ++ [sys.copyAt layer tree])) layer) (Along (sys.AtLayer last held layer layer) e) :=
  .step _ _ (fun _ => rfl) (fun _ _ => trivial) fun _ _ h _ =>
    ⟨_, rfl, ⟨h.same.context, h.same.memory, h.same.journal, h.same.heard⟩, h.depth, rfl,
      h.runs.reset known within others⟩

variable (within : layer ≤ last) {callee callee' : TreeId → Callee (Store σ) μ σ}
  (calls : sys.CallsOn last held layer callee callee') {source : Source μ} {makeState : Option (StateMaker μ σ)}
  (here : sys.nodeAt (w ++ [tree]) = some (.call source makeState))

section
variable {m m' : Machine (Store σ) μ σ} (same : m.Same m') (depth : m'.context.depth = layer)
  (unrolls : sys.Unrolls last held Bound m.runs m'.runs) {resolve resolve' : Run (Store σ) μ σ (Option TreeId)}
include known within here same depth unrolls

/-- An unfinished call goes on. -/
theorem findsCopy_resumed {copy : TreeId} {state : Option σ}
    (right : m'.runs.slot ⟨w ++ [sys.copyAt layer tree], 0⟩ = .call copy state) :
    sys.FindsCopy last held layer ⟨w ++ [tree], layer⟩
      (Behaviour.callTarget ((Stage.plain (μ := μ)).cell (w ++ [tree])) resolve makeState layer m)
      (Behaviour.callTarget (Store.scalar (w ++ [sys.copyAt layer tree])) resolve' makeState layer m') := by
  obtain ⟨t, t_known, rfl, -⟩ := unrolls.calls w tree layer source makeState known within here copy state right
  have left := unrolls.slots w tree layer known within
  rw [right, Slot.mapTrees, original_copyAt t_known] at left
  have resumed : Behaviour.callTarget ((Stage.plain (μ := μ)).cell (w ++ [tree])) resolve makeState layer m =
      .ok (some (t, state, false)) m := Behaviour.callTarget_resumed left
  have resumed' : Behaviour.callTarget (Store.scalar (w ++ [sys.copyAt layer tree])) resolve' makeState layer m' =
      .ok (some (sys.copyAt (min (layer + 1) last) t, state, false)) m' := Behaviour.callTarget_resumed right
  rw [resumed, resumed']
  exact .found t_known (unrolls.steady.calls _ source makeState here t state left) state false
    ⟨same, depth, unrolls.loosen fun _ => False.elim⟩

omit here in
/-- Without an unfinished call the trees are looked up, and kept. -/
theorem findsCopy_fresh (found : sys.LooksUp last held layer resolve resolve')
    (rests : ∀ copy state, m'.runs.slot ⟨w ++ [sys.copyAt layer tree], 0⟩ ≠ .call copy state) :
    sys.FindsCopy last held layer ⟨w ++ [tree], layer⟩
      (Behaviour.callTarget ((Stage.plain (μ := μ)).cell (w ++ [tree])) resolve makeState layer m)
      (Behaviour.callTarget (Store.scalar (w ++ [sys.copyAt layer tree])) resolve' makeState layer m') := by
  have rests' : ∀ copy state, (Store.scalar (w ++ [sys.copyAt layer tree])).get m'.runs layer ≠ .call copy state :=
    rests
  have bare : ∀ t state, ((Stage.plain (μ := μ)).cell (w ++ [tree])).get m.runs layer ≠ .call t state := by
    intro t state was
    replace was := (unrolls.slots w tree layer known within).symm.trans was
    generalize m'.runs.slot ⟨w ++ [sys.copyAt layer tree], 0⟩ = slot at was rests
    cases slot
    case call copy state => exact rests copy state rfl
    all_goals cases was
  rcases found m m' unrolls with ⟨t, t_known, available, finds, finds'⟩ | ⟨finds, finds'⟩ | ⟨e, fails, fails'⟩
  · obtain ⟨state, x, made, made'⟩ := Behaviour.stateFor_same makeState same
    rw [(Behaviour.callTarget_fresh bare finds).trans (Run.bind_ok made),
      (Behaviour.callTarget_fresh rests' finds').trans (Run.bind_ok made')]
    refine .found t_known available state true ⟨⟨same.context, rfl, same.journal, same.heard⟩, depth, ?_⟩
    have kept : (Slot.call (sys.copyAt (min (layer + 1) last) t) state).mapTrees sys.original = .call t state := by
      rw [Slot.mapTrees, original_copyAt t_known]
    rw [← kept]
    refine unrolls.set known within _ (fun _ _ => False.elim) fun _ _ _ copy own runs => ?_
    cases runs
    exact ⟨t, t_known, available, rfl, fun bound => Nat.lt_of_le_of_ne within fun same => bound ⟨same, rfl⟩⟩
  · rw [Behaviour.callTarget_none bare finds, Behaviour.callTarget_none rests' finds']
    exact .none ⟨⟨same.context, same.memory, congrArg (·.push (.noTree layer)) same.journal, same.heard⟩, depth, rfl,
      unrolls⟩
  · rw [Behaviour.callTarget_fails bare fails, Behaviour.callTarget_fails rests' fails']
    exact .failed e same

theorem callTarget_findsCopy (found : sys.LooksUp last held layer resolve resolve') :
    sys.FindsCopy last held layer ⟨w ++ [tree], layer⟩
      (Behaviour.callTarget ((Stage.plain (μ := μ)).cell (w ++ [tree])) resolve makeState layer m)
      (Behaviour.callTarget (Store.scalar (w ++ [sys.copyAt layer tree])) resolve' makeState layer m') := by
  by_cases runs : ∃ copy state, m'.runs.slot ⟨w ++ [sys.copyAt layer tree], 0⟩ = .call copy state
  · obtain ⟨copy, state, right⟩ := runs
    exact findsCopy_resumed known within here same depth unrolls right
  · exact findsCopy_fresh known within same depth unrolls found fun copy state right => runs ⟨copy, state, right⟩

end

/-! ## Ticks of calls -/

/-- What is never reached. -/
theorem never_lock {β γ : Type} {φ : γ → β} {a : Run (Store σ) μ σ β} {b : Run (Store σ) μ σ γ}
    {post : Machine (Store σ) μ σ → Machine (Store σ) μ σ → Prop} : Sim Always (fun _ _ => False) φ a b post :=
  ⟨fun _ _ => trivial, fun _ _ no => no.elim⟩

/-- Both trees that were entered cannot be ticked any more. -/
theorem runCallee_stops {R : Store σ → Store σ → Prop} {cell cell' : Cell (Store σ) σ}
    {callee callee' : Callee (Store σ) μ σ} (name : callee.name = callee'.name)
    (stop : callee.root.tick = throw .callLimit) (stop' : callee'.root.tick = throw .callLimit)
    {ownState fresh : Bool} {state : Option σ} {d : Nat}
    {post : Machine (Store σ) μ σ → Machine (Store σ) μ σ → Prop} :
    Sim Always (Along R (d + 1)) id (Behaviour.runCallee cell callee ownState fresh state d)
      (Behaviour.runCallee cell' callee' ownState fresh state d) post := by
  have stopped : Sim Always (Along R (d + 1)) id (throw .callLimit : Run (Store σ) μ σ Status) (throw .callLimit)
      fun _ _ => False := Lock.throw
  have lent : Sim Always (Along R (d + 1)) id (Run.withState state (throw .callLimit) : Run (Store σ) μ σ Status)
      (Run.withState state (throw .callLimit)) fun _ _ => False :=
    Lock.context.bind fun _ => Lock.bind (.onContext fun _ => rfl) fun _ => stopped.bind fun _ => never_lock
  have announced : Lock Always R (d + 1) (Behaviour.announceCall (μ := μ) (σ := σ) callee'.name fresh d)
      (Behaviour.announceCall callee'.name fresh d) :=
    .ite (fun _ => Lock.report.bind fun _ => Lock.trace) fun _ => .pure _
  unfold Behaviour.runCallee
  rw [name, stop, stop']
  refine announced.bind fun _ => ?_
  dsimp only
  exact .ite (fun _ => lent.bind fun _ => never_lock) fun _ => stopped.bind fun _ => never_lock

include known within calls

/-- Both calls enter the trees that they found, or the recursion guard refuses both. -/
theorem enter_layered {t : Nat} (t_known : t < sys.trees.size) (available : sys.Available held t)
    {ownState fresh : Bool} {state : Option σ} {a b : Option Overflow → Run (Store σ) μ σ Status}
    (refused : ∀ o, a (some o) = (do
      Run.refuse o
      ((Stage.plain (μ := μ)).cell (w ++ [tree])).forget layer
      return .failure))
    (refused' : ∀ o, b (some o) = (do
      Run.refuse o
      (Store.scalar (w ++ [sys.copyAt layer tree])).forget layer
      return .failure))
    (entered : a none = Behaviour.runCallee ((Stage.plain (μ := μ)).cell (w ++ [tree])) (callee t) ownState fresh state
      layer)
    (entered' : b none = Behaviour.runCallee (Store.scalar (w ++ [sys.copyAt layer tree]))
      (callee' (sys.copyAt (min (layer + 1) last) t)) ownState fresh state layer) :
    Sim Always (Along (sys.Unrolls last held (FreeAt last layer ⟨w ++ [tree], layer⟩)) layer) id
      (Run.enter (callee t).name >>= a) (Run.enter (callee' (sys.copyAt (min (layer + 1) last) t)).name >>= b)
      (Along (sys.AtLayer last held layer layer) layer) := by
  have others : ∀ q, q ≠ ⟨w ++ [tree], layer⟩ → ¬ FreeAt last layer ⟨w ++ [tree], layer⟩ q :=
    fun q other free => other free.2
  rw [calls.name t t_known]
  refine Lock.enter (fun o => ?_) ?_
  · rw [refused, refused']
    exact Lock.refuse.bind fun _ => (forget_lock known within others layer).bind fun _ => .pure _
  · rw [entered, entered']
    rcases Nat.lt_or_eq_of_le within with before | stops
    · rw [Nat.min_eq_left before]
      have called : (callee t).Locked Always (sys.AtLayer last held layer) (callee' (sys.copyAt (layer + 1) t)) := {
        name := by rw [calls.name t t_known, Nat.min_eq_left before]
        tick := fun d => pinned_lock fun at_layer => by
          subst at_layer
          exact calls.tick before t t_known available }
      have forgets : ∀ d, Lock Always (sys.AtLayer last held layer d) d
          (Cell.forget (μ := μ) ((Stage.plain (μ := μ)).cell (w ++ [tree])) d)
          (Cell.forget (Store.scalar (w ++ [sys.copyAt layer tree])) d) := by
        refine fun d => ⟨fun _ _ => trivial, fun m m' related _ => ?_⟩
        obtain ⟨same, depth, rfl, unrolls⟩ := related
        exact (forget_lock known within (fun _ _ => id) d).agree m m' ⟨same, depth, unrolls⟩ trivial
      refine (Behaviour.runCallee_lock called forgets layer).weaken (fun m m' h => ?_) fun _ _ h => h
      refine ⟨h.same, h.depth, rfl, h.runs.loosen fun q free => ?_⟩
      exact absurd free.1 (Nat.ne_of_lt before)
    · exact runCallee_stops (calls.name t t_known) (calls.stop stops _).1 (calls.stop stops _).2

include here in
/-- A call and the call of its copy tick in lockstep. -/
theorem call_layered {resolve resolve' : Run (Store σ) μ σ (Option TreeId)}
    (found : sys.LooksUp last held layer resolve resolve') (d : Nat) : Lock Always (sys.AtLayer last held layer d) d
      (Behaviour.call ((Stage.plain (μ := μ)).cell (w ++ [tree])) resolve makeState callee).tick
      (Behaviour.call (Store.scalar (w ++ [sys.copyAt layer tree])) resolve' makeState callee').tick := by
  refine Lock.depth (R := sys.AtLayer last held layer) (fun e => ⟨fun _ _ => trivial, fun m m' h _ => ?_⟩) d
  obtain ⟨same, depth, rfl, unrolls⟩ := h
  have comes := callTarget_findsCopy known within here same depth unrolls found
  generalize left : Behaviour.callTarget ((Stage.plain (μ := μ)).cell (w ++ [tree])) resolve makeState e m = x at comes
  generalize right : Behaviour.callTarget (Store.scalar (w ++ [sys.copyAt e tree])) resolve' makeState e m' = y at comes
  cases comes with
  | failed err same =>
    rw [Run.bind_error left, Run.bind_error right]
    exact .error err same
  | none related =>
    rw [Run.bind_ok left, Run.bind_ok right]
    exact .ok Status.failure related
  | found t_known available state fresh related =>
    rw [Run.bind_ok left, Run.bind_ok right]
    exact (enter_layered known within calls t_known available (fun _ => rfl) (fun _ => rfl) rfl rfl).agree _ _ related
      trivial

include here in
/-- A call and the call of its copy are abandoned in lockstep. -/
theorem call_reset_layered {resolve resolve' : Run (Store σ) μ σ (Option TreeId)} :
    ResetLock Always (sys.AtLayer last held layer) (sys.AtLayer last held layer)
      (Behaviour.call ((Stage.plain (μ := μ)).cell (w ++ [tree])) resolve makeState callee).reset
      (Behaviour.call (Store.scalar (w ++ [sys.copyAt layer tree])) resolve' makeState callee').reset := by
  refine fun d e fire => ⟨fun _ _ => trivial, fun m m' h _ => ?_⟩
  obtain ⟨same, depth, rfl, unrolls⟩ := h
  have left : ((Stage.plain (μ := μ)).cell (w ++ [tree])).get m.runs d =
      ((Store.scalar (w ++ [sys.copyAt d tree])).get m'.runs d).mapTrees sys.original :=
    unrolls.slots w tree d known within
  have runs_on := unrolls.calls w tree d source makeState known within here
  have cleared : Along (sys.Unrolls last held Bound) e
      (m.onRuns (((Stage.plain (μ := μ)).cell (w ++ [tree])).reset · d))
      (m'.onRuns ((Store.scalar (w ++ [sys.copyAt d tree])).reset · d)) :=
    ⟨⟨same.context, same.memory, same.journal, same.heard⟩, depth, unrolls.reset known within fun _ _ => id⟩
  rw [Behaviour.call_reset_apply, Behaviour.call_reset_apply, left]
  cases right : (Store.scalar (w ++ [sys.copyAt d tree])).get m'.runs d
  case call copy state =>
    obtain ⟨t, t_known, rfl, leads⟩ := runs_on copy state right
    have before : d < last := leads not_false
    simp only [Slot.mapTrees, original_copyAt t_known, Nat.min_eq_left before]
    refine ((calls.reset before t t_known e fire).agree _ _ cleared trivial).mono fun n n' related => ?_
    exact ⟨related.same, related.depth, rfl, related.runs⟩
  all_goals exact .ok () ⟨cleared.same, cleared.depth, rfl, cleared.runs⟩

end

end System

end BehaviorTree
