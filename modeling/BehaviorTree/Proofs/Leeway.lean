/-
  BehaviorTree.Proofs.Leeway: limits that refuse nothing change nothing.

  The recursion limits are a guard. Where a run of ticks and resets has no call refused, it is
  the same under limits that leave more room, and so are its records, in which still nothing is
  refused (`leeway_neutral`). There is one catch: the call stack of a tree is also what tells
  that a tick of this tree is in progress. A tree that is relieved of its stack does run again
  when a callback ticks it inside its own tick (`reentered`), so that this must not have been
  refused either.
-/

import BehaviorTree.Proofs.Leeway.Room

namespace BehaviorTree

variable {μ σ : Type}

/-! ## The accord -/

variable {wide sys : System μ σ}

/-- Runs under limits that leave more room, as long as nothing is refused in the second run. -/
def Concord.leeway (twins : wide.Twins sys) (covers : ∀ tree, (wide.limitsOf tree).Covers (sys.limitsOf tree))
    (discreet : wide.Discreet Context.unguarded fun _ => True) (first : Nat) : Concord wide sys where
  Index := Leeway
  rel := Roomier wide sys first
  fine := wide.AdmitsFrom sys first
  call i := { i with descent := i.descent.call }
  overlay i := i
  fine_of_push := System.AdmitsFrom.of_push
  depth h := h.context.same Context.depth fun _ => rfl
  delta h := h.context.same Context.delta fun _ => rfl
  request h := h.context.same Context.returnRequest fun _ => rfl
  state h := h.context.same Context.state fun _ => rfl
  setRequest _ h := h.onContext (fun _ _ _ => rfl) fun _ => rfl
  setState _ h := h.onContext (fun _ _ _ => rfl) fun _ => rfl
  recordOverflow _ h := h.onContext (fun _ _ _ => rfl) fun _ => rfl
  report d h := h.report d
  trace tag x y h := h.trace tag x y
  pushed _ h := h.onContext (fun _ _ _ => rfl) fun _ => rfl
  innermost h := h.context.same (·.layers.innermost) fun _ => rfl
  popped h := h.onContext (fun _ _ _ => rfl) fun _ => rfl
  entered _ h entered := h.called entered
  refused _ h _ := .inr fun fine => (fine.last h.since).call _ rfl
  left h := { h with
    context := h.context.leave
    outside := fun out => congrArg Context.leave (h.outside out)
    descent := h.descent.leave }
  twins := twins
  deeper tree := UInt64.le_iff_toNat_le.mp (covers tree).depth
  see := Context.unguarded
  may _ := True
  discreet := discreet
  memory h := h.memory
  seen h := h.context.unguarded
  overflow h := h.context.same Context.overflow fun _ => rfl
  store h := h.store
  withMemory _ h := { h with memory := rfl }
  clearOverflow h := h.onContext (fun _ _ _ => rfl) fun _ => rfl
  edited _ _ h := h.onContext (fun _ _ _ => rfl) fun _ => rfl
  setGlobal _ _ _ h := h.onContext (fun _ _ _ => rfl) fun _ => rfl
  onStore _ aside h := h.onRuns aside
  noteOverflow tree o h := h.onProgress tree <| by
    rw [Store.progress_eq, Store.progress_eq]
    exact (h.noted tree).map (f := ({ · with overflow := o })) fun _ _ => rfl
  levels i := i.descent.levels
  levels_pos h := h.descent.levels_pos
  levels_call i := i.descent.levels_call
  levels_overlay _ := rfl
  fresh i tree := { i with descent := .start (sys.limitsOf tree), outside := False }
  levels_fresh _ _ := Nat.le_refl _
  freshened {_ m m'} tree tick delta state h := { h with
    context := by
      have layers : m.context.layers = m'.context.layers := h.context.same Context.layers fun _ => rfl
      show (wide.freshContext tree tick delta state m.context.layers).Roomier
        (sys.freshContext tree tick delta state m'.context.layers)
      rw [layers]
      exact .fresh (covers tree) ..
    outside := False.elim
    descent := ⟨rfl, Nat.le_refl _, Nat.zero_le _⟩ }
  around i c c' := c.Roomier c' ∧ (i.outside → c = c') ∧ i.descent.Holds c'
  surrounded h := ⟨h.context, h.outside, h.descent⟩
  returned {_ _ m m' c c'} around h := by
    have layers : m.context.layers = m'.context.layers := h.context.same Context.layers fun _ => rfl
    have within : (m.onContext fun d => { c with layers := d.layers }) =
        m.onContext fun _ => { c with layers := m'.context.layers } := by
      show ({ m with context := { c with layers := m.context.layers } } : Machine (Store σ) μ σ) = _
      rw [layers]
      rfl
    rw [within]
    exact { h with
      context := around.1.map (f := ({ · with layers := m'.context.layers })) fun _ _ _ => rfl
      outside := fun out => congrArg ({ · with layers := m'.context.layers }) (around.2.1 out)
      descent := ⟨around.2.2.depth, around.2.2.maxDepth, around.2.2.inside⟩ }

theorem System.tickWith_apply (sys : System μ σ) (host : Host (Store σ) μ σ) (tree : TreeId) (delta : Float32)
    (state : Option σ) (m : Machine (Store σ) μ σ) : sys.tickWith .plain host tree delta state m =
      sys.tickAfter .plain (m.runs.progress tree) host tree delta state
        (m.onRuns (·.onProgress tree ({ · with ticks := (m.runs.progress tree).ticks + 1 }))) := rfl

section
variable (twins : wide.Twins sys) (covers : ∀ tree, (wide.limitsOf tree).Covers (sys.limitsOf tree))
  (discreet : wide.Discreet Context.unguarded fun _ => True) (first : Nat) {host host' : Host (Store σ) μ σ}
  {tree : TreeId} {delta : Float32} {state : Option σ}

open Accord (Paired Backs)

/-- A tick of a tree that is relieved of its stack. The second run marks it as busy meanwhile. -/
theorem leeway_relieved (relieved : wide.Relieved sys tree) (fresh : ∀ (k : Leeway) tick,
      (Concord.leeway twins covers discreet first).Paired k k (wide.tickFresh .plain host tree tick delta state)
        (sys.tickFresh .plain host' tree tick delta state)) {i : Leeway} {m m' : Machine (Store σ) μ σ}
    (h : Roomier wide sys first i m m')
    (fine : wide.AdmitsFrom sys first ((sys.tickWith .plain host' tree delta state).last m').journal) :
    Ended (Roomier wide sys first i) (fun n n' => ∃ k, Roomier wide sys first k n n')
      (wide.tickWith .plain host tree delta state m) (sys.tickWith .plain host' tree delta state m') := by
  have stacked : (sys.limitsOf tree).stackCapacity.isNone = false := by
    cases here : (sys.limitsOf tree).stackCapacity with
    | none => exact absurd here relieved.2
    | some => rfl
  unfold Run.last at fine
  rw [System.tickWith_apply, h.ticks]
  rw [System.tickWith_apply] at fine ⊢
  unfold System.tickAfter at fine ⊢
  rw [relieved.1, h.ticks, Option.isNone_none, if_pos rfl]
  rw [stacked, if_neg Bool.false_ne_true] at fine ⊢
  cases busy : (m'.runs.progress tree).busy with
  | true =>
    rw [busy, if_pos rfl] at fine
    exact absurd rfl ((System.AdmitsFrom.last fine h.since).tick tree relieved)
  | false =>
    have ends : ∀ status, (Concord.leeway twins covers discreet first).Paired (i.mark tree) i
        (pure status : Run (Store σ) μ σ Status)
        (do Stage.plain.modifyStore (·.onProgress tree ({ · with busy := false })); return status) := fun status =>
      .step (fun _ => status) id (·.onRuns (·.onProgress tree ({ · with busy := false }))) (fun _ _ _ => rfl)
        (fun _ => rfl) (fun _ => rfl) fun n n' (hn : Roomier wide sys first (i.mark tree) n n') =>
          hn.unmark (h.unmarked busy)
    rw [busy, if_neg Bool.false_ne_true] at fine
    rw [if_neg Bool.false_ne_true,
      ← bind_pure (wide.tickFresh .plain host tree (m'.runs.progress tree).ticks delta state)]
    exact ((fresh (i.mark tree) _).bind ends).agree _ _ (h.mark relieved busy _) fine

theorem leeway_begins : (Concord.leeway twins covers discreet first).Begins := by
  intro host host' tree delta state fresh i
  let C := Concord.leeway twins covers discreet first
  have backs : ∀ before, C.Backs (sys.tickAfter .plain before host' tree delta state) := by
    intro before
    unfold System.tickAfter
    split
    · exact (fresh i _).before
    · split
      · exact Backs.bind (Paired.report (i := i) _).before fun _ => (Paired.pure (i := i) _).before
      · refine Backs.bind (.silent (fun _ => rfl) fun _ => rfl) fun _ => (fresh i _).before.bind fun _ => ?_
        exact Backs.bind (.silent (fun _ => rfl) fun _ => rfl) fun _ => (Paired.pure (i := i) _).before
  have counted : ∀ m' : Machine (Store σ) μ σ, C.fine ((sys.tickWith .plain host' tree delta state).last m').journal →
      C.fine m'.journal := fun m' fine =>
    backs (m'.runs.progress tree)
      (m'.onRuns (·.onProgress tree ({ · with ticks := (m'.runs.progress tree).ticks + 1 }))) fine
  refine ⟨counted, fun m m' (h : Roomier wide sys first i m m') fine => ?_⟩
  by_cases relieved : wide.Relieved sys tree
  · exact leeway_relieved twins covers discreet first relieved fresh h fine
  · have same : ∀ {n n'}, Roomier wide sys first i n n' → n.runs.progress tree = n'.runs.progress tree := fun hn => by
      rw [Store.progress_eq, Store.progress_eq, (hn.noted tree).eq fun hm => relieved (hn.relieved tree hm)]
    have kept : ∀ {n n'} f, Roomier wide sys first i n n' →
        Roomier wide sys first i (n.onRuns (·.onProgress tree f)) (n'.onRuns (·.onProgress tree f)) := fun f hn =>
      hn.onProgress tree (same hn ▸ .same _ fun hm => relieved (hn.relieved tree hm))
    have notes : ∀ f, C.Paired i i (Stage.plain.modifyStore (μ := μ) (·.onProgress tree f))
        (Stage.plain.modifyStore (·.onProgress tree f)) := fun f =>
      .step (fun _ => ()) _ _ (fun _ _ _ => rfl) (fun _ => rfl) (fun _ => rfl) fun _ _ hn => kept f hn
    have guarded : (wide.limitsOf tree).stackCapacity.isNone = (sys.limitsOf tree).stackCapacity.isNone := by
      cases here : (wide.limitsOf tree).stackCapacity with
      | none => rw [not_not.mp fun some => relieved ⟨here, some⟩]
      | some n =>
        obtain ⟨n', here', -⟩ := (covers tree).stack n here
        rw [here']
        rfl
    have after := C.tickAfter guarded notes (fresh i) (m'.runs.progress tree)
    unfold Run.last at fine
    rw [System.tickWith_apply] at fine ⊢
    rw [System.tickWith_apply, same h]
    exact after.agree _ _ (kept _ h) fine

end

/-! ## The limits only guard -/

/-- The machines differ at most in what guards against runaway recursion: in the limits and the stack of the tick
in progress, and in what is known of the ticks of the trees. -/
structure Machine.SameUnguarded (m m' : Machine (Store σ) μ σ) : Prop where
  context : m.context.unguarded = m'.context.unguarded
  memory : m.memory = m'.memory
  journal : m.journal = m'.journal
  heard : m.heard = m'.heard
  store : m.runs.apart = m'.runs.apart

/-- Outside of the trees the machines are the same. -/
theorem Roomier.eq {first : Nat} {i : Leeway} {m m' : Machine (Store σ) μ σ} (h : Roomier wide sys first i m m')
    (outside : i.outside) (unmarked : ∀ tree, ¬ i.marked tree) : m = m' := by
  have trees : m.runs.trees = m'.runs.trees :=
    Std.ExtTreeMap.ext_getElem? fun tree => (h.noted tree).eq (unmarked tree)
  have store : m.runs = m'.runs := by
    have same := congrArg (fun s : Store σ => { s with trees := m.runs.trees }) h.store
    rw [Store.apart, Store.apart] at same
    exact same.trans (congrArg (fun trees => { m'.runs with trees }) trees)
  obtain ⟨_, _, _, _, _⟩ := m
  obtain ⟨_, _, _, _, _⟩ := m'
  exact (Machine.mk.injEq ..).mpr ⟨h.outside outside, h.memory, store, h.journal, h.heard⟩

/-- The recursion limits are purely a guard. A run of ticks and resets in which no call is refused goes just so
under limits that leave more room, again with no refused call, if callbacks do not look at the limits and the stack;
and if no tick was refused of a tree that is relieved of its stack. -/
theorem leeway_neutral (sys wide : System μ σ) (twins : wide.Twins sys)
    (covers : ∀ tree, (wide.limitsOf tree).Covers (sys.limitsOf tree))
    (discreet : wide.Discreet Context.unguarded fun _ => True) (orders : List (TreeId × Use σ))
    (m : Machine (Store σ) μ σ)
    (admitted : wide.AdmitsFrom sys m.journal.size ((sys.serve .plain orders).last m).journal) :
    Ended (· = ·) Machine.SameUnguarded (wide.serve .plain orders m) (sys.serve .plain orders m) ∧
      ∀ d ∈ ((wide.serve .plain orders).last m).journal.toList.drop m.journal.size, ∀ o, d ≠ .refused o := by
  have start : (Concord.leeway twins covers discreet m.journal.size).rel
      ⟨fun _ => False, .ofContext m.context, True⟩ m m := {
    context := .refl _
    outside := fun _ => rfl
    descent := Descent.holds_ofContext _
    memory := rfl
    journal := rfl
    heard := rfl
    since := Nat.le_refl _
    store := rfl
    noted := fun tree => .same _ id
    relieved := fun _ => False.elim }
  have ran := ((Concord.leeway twins covers discreet m.journal.size).serve
    (leeway_begins twins covers discreet m.journal.size) orders).agree m m start admitted
  have same : Ended (· = ·) Machine.SameUnguarded (wide.serve .plain orders m) (sys.serve .plain orders m) := by
    generalize wide.serve .plain orders m = a at ran
    generalize sys.serve .plain orders m = b at ran
    cases ran with
    | ok x related => exact .ok x (Roomier.eq related trivial fun _ => id)
    | error e related =>
      obtain ⟨_, related⟩ := related
      exact .error e ⟨related.context.unguarded, related.memory, related.journal, related.heard, related.store⟩
  have journals : ((wide.serve .plain orders).last m).journal = ((sys.serve .plain orders).last m).journal := by
    unfold Run.last
    generalize wide.serve .plain orders m = a at same ⊢
    generalize sys.serve .plain orders m = b at same ⊢
    cases same with
    | ok x related => rw [related]
    | error e related => exact related.journal
  exact ⟨same, fun d hd => (admitted d (journals ▸ hd)).call⟩

/-! ## A call that goes on -/

/-- Whether the record is of a refused call. -/
def Diagnostic.refusesCall : Diagnostic → Bool
  | refused _ => true
  | _ => false

/-- Whether the record is of a refused tick. -/
def Diagnostic.refusesTick : Diagnostic → Bool
  | reentrantTick _ => true
  | _ => false

theorem System.admits_of_refuses {d : Diagnostic} (call : d.refusesCall = false) (tick : d.refusesTick = false) :
    wide.Admits sys d := by
  constructor
  · rintro o rfl
    cases call
  · rintro tree - rfl
    cases tick

/-- Counts the visits, and ticks the other tree at each. -/
def visiting : Callback Nat Unit Status := .remember (· + 1) (.tickTree 2 1 .done)

/-- A call that pauses once and then lets a callback tick a tree, which another call is in. -/
def errand (limits : { l : Limits // l.Valid }) : System Nat Unit where
  trees := #[{ name := "errand", root := .call (.fixed (.strong 1)) none, limits },
    { name := "stop", root := .sequence [.pause, .action visiting], limits },
    { name := "visit", root := .call (.fixed (.strong 3)) none, limits },
    { name := "door", root := .action (.remember (· + 1) (.done .success)), limits }]

/-- Room for one call. -/
def tight : { l : Limits // l.Valid } := ⟨{ maxCallDepth := 1, stackCapacity := some 1 }, by decide⟩

/-- Room for five calls, without a stack. -/
def ample : { l : Limits // l.Valid } := ⟨{ maxCallDepth := 5, stackCapacity := none }, by decide⟩

theorem errand_limits (limits : { l : Limits // l.Valid }) (tree : TreeId) :
    (errand limits).limitsOf tree = if tree < 4 then limits.val else {} := by
  rcases tree with _ | _ | _ | _ | tree
  · rfl
  · rfl
  · rfl
  · rfl
  · have far : ¬ tree + 1 + 1 + 1 + 1 < 4 := by omega
    rw [if_neg far]
    simp [System.limitsOf, errand]

theorem errand_discreet (limits : { l : Limits // l.Valid }) :
    (errand limits).Discreet Context.unguarded fun _ => True := by
  refine System.forall_nodes fun tree h => ?_
  simp only [errand, List.mem_toArray, List.mem_cons, List.not_mem_nil, or_false] at h
  rcases h with rfl | rfl | rfl | rfl
  · exact .leaf trivial rfl
  · refine .mk trivial (List.forall_mem_cons.mpr ⟨.leaf trivial rfl, List.forall_mem_singleton.mpr (.leaf ?_ rfl)⟩)
    exact fun _ => trivial
  · exact .leaf trivial rfl
  · exact .leaf trivial rfl

theorem errand_twins (limits limits' : { l : Limits // l.Valid }) : (errand limits).Twins (errand limits') := by
  simp [System.Twins, errand]

/-- Nothing happened yet. -/
def errandStart : Machine (Store Unit) Nat Unit := { context := {}, memory := 0, runs := {} }

/-- Two ticks, the visits that were made, and whether nothing was refused. -/
def errandRun : Run (Store Unit) Nat Unit (List Status × Nat × Bool) := do
  let answers ← (errand tight).serve .plain [(0, .tick 1 none), (0, .tick 1 none)]
  let after ← get
  return (answers, after.memory, after.journal.toList.all fun d => !d.refusesCall && !d.refusesTick)

/-- With room for one call nothing is refused, and all is the same with room for five. -/
theorem errand_done : ∃ n, n.memory = 2 ∧
    (errand tight).serve .plain [(0, .tick 1 none), (0, .tick 1 none)] errandStart = .ok [.running, .success] n ∧
    (errand ample).serve .plain [(0, .tick 1 none), (0, .tick 1 none)] errandStart = .ok [.running, .success] n := by
  obtain ⟨_, ran⟩ := Run.ok_of_answer (a := errandRun) (m := errandStart) (x := ([.running, .success], 2, true))
    (by decide +kernel)
  simp only [errandRun, Run.bind_eq_ok, Run.get_eq_ok, Run.pure_eq_ok, Prod.mk.injEq] at ran
  obtain ⟨_, n, served, _, _, ⟨rfl, rfl⟩, ⟨rfl, visits, told⟩, rfl⟩ := ran
  have covers : ∀ tree, ((errand ample).limitsOf tree).Covers ((errand tight).limitsOf tree) := fun tree => by
    rw [errand_limits, errand_limits]
    split
    · exact ⟨by decide, fun _ none => by cases none⟩
    · exact ⟨UInt64.le_refl _, fun k same => ⟨k, same, UInt64.le_refl _⟩⟩
  have admitted : (errand ample).AdmitsFrom (errand tight) errandStart.journal.size
      (((errand tight).serve .plain [(0, .tick 1 none), (0, .tick 1 none)]).last errandStart).journal := fun d hd => by
    rw [Run.last_ok served] at hd
    have admits : d.refusesCall = false ∧ d.refusesTick = false := by simpa using List.all_eq_true.mp told d hd
    exact System.admits_of_refuses admits.1 admits.2
  obtain ⟨same, -⟩ := leeway_neutral (errand tight) (errand ample) (errand_twins ample tight) covers
    (errand_discreet ample) [(0, .tick 1 none), (0, .tick 1 none)] errandStart admitted
  rw [served] at same
  obtain ⟨_, served', rfl⟩ := same.of_right
  exact ⟨_, visits, served, served'⟩

/-! ## A tree that is ticked inside its own tick -/

/-- Ticks its own tree at the first visit, and answers as this does. -/
def insisting : Callback Nat Unit Status :=
  .look fun _ visits => .remember (· + 1) (if visits = 0 then .tickTree 0 1 .done else .done .success)

/-- A tree with this callback. -/
def insistent (limits : { l : Limits // l.Valid }) : System Nat Unit where
  trees := #[{ name := "insistent", root := .action insisting, limits }]

/-- The default limits without a stack. -/
def stackless : { l : Limits // l.Valid } := ⟨{ stackCapacity := none }, by decide⟩

/-- The answers of one tick, the visits that were made, and whether a call was refused. -/
def insistentRun (limits : { l : Limits // l.Valid }) : Run (Store Unit) Nat Unit (List Status × Nat × Bool) := do
  let answers ← (insistent limits).serve .plain [(0, .tick 1 none)]
  let after ← get
  return (answers, after.memory, after.journal.toList.any (·.refusesCall))

/-- No call is refused, and still the stack decides: with it the tick inside the tick is refused, and without it
the callback is run again. -/
theorem reentered : ∃ n n',
    (insistent stackless).Twins (insistent ⟨{}, Limits.default_valid⟩) ∧
    (∀ tree, ((insistent stackless).limitsOf tree).Covers ((insistent ⟨{}, Limits.default_valid⟩).limitsOf tree)) ∧
    (insistent stackless).Discreet Context.unguarded (fun _ => True) ∧
    (insistent ⟨{}, Limits.default_valid⟩).serve .plain [(0, .tick 1 none)] errandStart = .ok [.failure] n ∧
    n.memory = 1 ∧ (∀ d ∈ n.journal.toList, ∀ o, d ≠ .refused o) ∧
    (insistent stackless).serve .plain [(0, .tick 1 none)] errandStart = .ok [.success] n' ∧ n'.memory = 2 := by
  obtain ⟨_, ran⟩ := Run.ok_of_answer (a := insistentRun ⟨{}, Limits.default_valid⟩) (m := errandStart)
    (x := ([.failure], 1, false)) (by decide +kernel)
  obtain ⟨_, ran'⟩ := Run.ok_of_answer (a := insistentRun stackless) (m := errandStart) (x := ([.success], 2, false))
    (by decide +kernel)
  simp only [insistentRun, Run.bind_eq_ok, Run.get_eq_ok, Run.pure_eq_ok, Prod.mk.injEq] at ran ran'
  obtain ⟨_, n, served, _, _, ⟨rfl, rfl⟩, ⟨rfl, visits, told⟩, rfl⟩ := ran
  obtain ⟨_, n', served', _, _, ⟨rfl, rfl⟩, ⟨rfl, visits', -⟩, rfl⟩ := ran'
  refine ⟨n, n', by simp [System.Twins, insistent], fun tree => ?_, ?_, served, visits, fun d hd o same => ?_, served',
    visits'⟩
  · rcases tree with _ | tree
    · exact ⟨UInt64.le_refl _, fun _ none => by cases none⟩
    · simp only [System.limitsOf, insistent]
      exact ⟨UInt64.le_refl _, fun k same => ⟨k, same, UInt64.le_refl _⟩⟩
  · refine System.forall_nodes fun tree h => ?_
    simp only [insistent, List.mem_toArray, List.mem_cons, List.not_mem_nil, or_false] at h
    subst h
    refine .leaf (fun c visits => ⟨rfl, ?_⟩) rfl
    dsimp only
    split
    · exact fun _ => trivial
    · trivial
  · have refused := List.any_eq_false.mp told d hd
    rw [same] at refused
    exact refused rfl

end BehaviorTree
