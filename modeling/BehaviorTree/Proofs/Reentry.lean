/-
  BehaviorTree.Proofs.Reentry: a tree that is ticked inside its own tick.

  A callback may start a tick of the very tree whose tick it runs in. If the tree has a call stack,
  that one is in use, and the tick inside is refused: it fails, it is counted and reported, and
  nothing else happens (`refuse`). So it is at whatever node the callback is, however deep in calls
  and overlays, and through however many ticks of other trees it comes back to the tree: a tick
  goes as if the hosts of all callbacks in it refused the trees whose ticks are in progress
  outright, without a look at the store (`ticks_inside_refused`).

  The stack is all that tells that a tick is in progress. A tree without one runs again
  (`knocked_again`).
-/

import BehaviorTree.Proofs.Leeway

namespace BehaviorTree

variable {μ σ : Type}

namespace System

variable (sys : System μ σ)

/-- The tree's ticks are guarded by its call stack. -/
def Guarded (tree : TreeId) : Prop := (sys.limitsOf tree).stackCapacity.isSome = true

instance (tree : TreeId) : Decidable (sys.Guarded tree) := inferInstanceAs (Decidable (_ = true))

/-- A tick of the tree is in progress, after this. -/
def within (tree : TreeId) (inside : List TreeId) : List TreeId := if sys.Guarded tree then tree :: inside else inside

/-- The tick fails. It is counted and reported, and nothing else happens. -/
def refuse (tree : TreeId) : Run (Store σ) μ σ Status := fun m =>
  .ok .failure
    { m with
      runs := m.runs.onProgress tree fun p => { p with ticks := p.ticks + 1 }
      journal := m.journal.push (.reentrantTick (sys.nameOf tree)) }

/-- How callbacks tick and reset trees inside ticks of these trees. -/
def hostInside : (nesting : Nat) → (inside : List TreeId) → Host (Store σ) μ σ
  | 0, _ => ⟨fun _ _ => throw .nestingLimit, fun tree fire => sys.reset .plain tree fire⟩
  | nesting + 1, inside =>
    ⟨fun tree delta =>
      if tree ∈ inside then sys.refuse tree
      else sys.tickWith .plain (hostInside nesting (sys.within tree inside)) tree delta none,
      fun tree fire => sys.reset .plain tree fire⟩

end System

/-! ## Trees in use -/

/-- The machines are the same. Ticks of these trees are in progress, and a tick is so deep. -/
structure Engaged (inside : List TreeId) (w : Descent) (m m' : Machine (Store σ) μ σ) : Prop where
  same : m = m'
  busy : ∀ tree ∈ inside, (m.runs.progress tree).busy = true
  descent : w.Holds m.context

namespace Engaged

variable {sys : System μ σ} {inside : List TreeId} {w : Descent} {m m' n : Machine (Store σ) μ σ}

theorem progress_onProgress_ne (s : Store σ) {tree other : TreeId} (f : Progress → Progress) (apart : tree ≠ other) :
    (s.onProgress tree f).progress other = s.progress other := by
  rw [Store.progress_eq, Store.progress_eq, Store.trees_onProgress_ne s f apart]

theorem progress_onProgress_same (s : Store σ) (tree : TreeId) (f : Progress → Progress) :
    (s.onProgress tree f).progress tree = f (s.progress tree) := by
  rw [Store.progress_eq, Store.trees_onProgress, Option.getD_some]

/-- The trees stay marked where marks are kept. -/
theorem busy_onProgress {s : Store σ} {f : Progress → Progress} (tree : TreeId) (keeps : ∀ p, (f p).busy = p.busy)
    {other : TreeId} (busy : (s.progress other).busy = true) : ((s.onProgress tree f).progress other).busy = true := by
  by_cases same : tree = other
  · subst same
    rw [progress_onProgress_same, keeps]
    exact busy
  · rwa [progress_onProgress_ne s f same]

theorem context (h : Engaged inside w m m') {v : Descent} {f : Context σ → Context σ} (there : v.Holds (f m.context)) :
    Engaged inside v (m.onContext f) (m'.onContext f) := ⟨congrArg (·.onContext f) h.same, h.busy, there⟩

theorem runs (h : Engaged inside w m m') {f : Store σ → Store σ}
    (keeps : ∀ tree ∈ inside, ((f m.runs).progress tree).busy = true) :
    Engaged inside w (m.onRuns f) (m'.onRuns f) := ⟨congrArg (·.onRuns f) h.same, keeps, h.descent⟩

/-- Events change neither the store nor how deep the tick is. -/
theorem trace (h : Engaged inside w m m') (tag : String) (x y : UInt64) :
    Ended (Engaged inside w) (fun n n' => ∃ v, Engaged inside v n n') (Run.trace tag x y m) (Run.trace tag x y m') := by
  obtain ⟨rfl, busy, descent⟩ := h
  obtain ⟨_, _, ran⟩ | ⟨fault, -, ran⟩ := Run.trace_spec tag x y m <;> rw [ran]
  · exact .ok () ⟨rfl, busy, descent.depth, descent.maxDepth, descent.inside⟩
  · exact .error fault ⟨w, rfl, busy, descent.depth, descent.maxDepth, descent.inside⟩

/-- What does not touch the depth of the tick nor its limit. -/
theorem of_eq {c c' : Context σ} (h : w.Holds c) (depth : c'.depth = c.depth) (maxDepth : c'.maxDepth = c.maxDepth) :
    w.Holds c' := ⟨depth.trans h.depth, maxDepth ▸ h.maxDepth, h.inside⟩

end Engaged

/-- Callbacks look at whatever they like. -/
theorem System.indiscreet (sys : System μ σ) : sys.Discreet id fun _ => True := by
  have anything : ∀ {α : Type} (body : Callback μ σ α), body.Discreet id fun _ => True := by
    intro α body
    induction body with
    | done => trivial
    | look next ih => exact fun c x => ⟨rfl, ih c x⟩
    | remember _ _ ih | setGlobal _ _ _ _ ih | trace _ _ _ _ ih | requestReturn _ _ ih | resetTree _ _ _ ih => exact ih
    | edit _ _ _ ih => exact ⟨trivial, ih⟩
    | takeReturn _ ih | takeOverflow _ ih | tickTree _ _ _ ih => exact ih
  intro site node _
  cases node
  case action | custom | scope => exact anything _
  case condition | waitUntil | guard => exact fun _ _ => rfl
  all_goals trivial

theorem System.as_deep (sys : System μ σ) (tree : TreeId) :
    (sys.limitsOf tree).maxCallDepth.toNat ≤ (sys.limitsOf tree).maxCallDepth.toNat := Nat.le_refl _

/-- Two runs of a system, inside ticks of these trees. -/
def Concord.inside (sys : System μ σ) (inside : List TreeId) : Concord sys sys where
  Index := Descent
  rel := Engaged inside
  fine _ := True
  call := Descent.call
  overlay i := i
  fine_of_push _ := trivial
  depth h := h.same ▸ rfl
  delta h := h.same ▸ rfl
  request h := h.same ▸ rfl
  state h := h.same ▸ rfl
  setRequest _ h := h.context (Engaged.of_eq h.descent rfl rfl)
  setState _ h := h.context (Engaged.of_eq h.descent rfl rfl)
  recordOverflow _ h := h.context (Engaged.of_eq h.descent rfl rfl)
  report d h := ⟨congrArg (·.report d) h.same, h.busy, h.descent⟩
  trace tag x y h := h.trace tag x y
  pushed _ h := h.context (Engaged.of_eq h.descent rfl rfl)
  innermost h := h.same ▸ rfl
  popped h := h.context (Engaged.of_eq h.descent rfl rfl)
  entered _ h entered := by
    obtain ⟨rfl, busy, descent⟩ := h
    exact ⟨_, entered, rfl, busy, descent.enter entered⟩
  refused _ h refused := .inl (h.same ▸ refused)
  left h := h.context h.descent.leave
  twins := .refl sys
  deeper := sys.as_deep
  see := id
  may _ := True
  discreet := sys.indiscreet
  memory h := h.same ▸ rfl
  seen h := h.same ▸ rfl
  overflow h := h.same ▸ rfl
  store h := h.same ▸ rfl
  withMemory x h := ⟨congrArg (·.withMemory x) h.same, h.busy, h.descent⟩
  clearOverflow h := h.context (Engaged.of_eq h.descent rfl rfl)
  edited _ _ h := h.context (Engaged.of_eq h.descent rfl rfl)
  setGlobal _ _ _ h := h.context (Engaged.of_eq h.descent rfl rfl)
  onStore {i m m'} f aside h := h.runs fun tree among => by
    have same := congrArg Store.trees (aside m.runs m.runs.trees)
    rw [Store.progress_eq, show (f m.runs).trees = m.runs.trees from same, ← Store.progress_eq]
    exact h.busy tree among
  noteOverflow tree o h := h.runs fun _ among =>
    Engaged.busy_onProgress (f := ({ · with overflow := o })) tree (fun _ => rfl) (h.busy _ among)
  levels := Descent.levels
  levels_pos h := h.descent.levels_pos
  levels_call := Descent.levels_call
  levels_overlay _ := rfl
  fresh _ tree := .start (sys.limitsOf tree)
  levels_fresh _ _ := Nat.le_refl _
  freshened _ _ _ _ h := h.context ⟨rfl, Nat.le_refl _, Nat.zero_le _⟩
  around i c c' := c = c' ∧ i.Holds c
  surrounded h := ⟨h.same ▸ rfl, h.descent⟩
  returned around h := by
    obtain ⟨rfl, descent⟩ := around
    exact h.context (Engaged.of_eq descent rfl rfl)

/-! ## Ticks inside ticks -/

namespace System

variable {sys : System μ σ} {inside : List TreeId} {w : Descent} {tree : TreeId} {delta : Float32} {state : Option σ}
  {host host' : Host (Store σ) μ σ}

/-- The tick of a tree that is in use. -/
theorem tickWith_busy {m : Machine (Store σ) μ σ} (guarded : sys.Guarded tree) (busy : (m.runs.progress tree).busy = true) :
    sys.tickWith .plain host tree delta state m = sys.refuse tree m := by
  have stacked : (sys.limitsOf tree).stackCapacity.isNone = false := by
    rw [Option.isNone_eq_false_iff]
    exact guarded
  rw [tickWith_apply]
  unfold tickAfter
  rw [stacked, busy]
  rfl

/-- Both runs go on after first parts that ended alike. -/
theorem ended_bind {α β : Type} {rel rel' broken broken' : Machine (Store σ) μ σ → Machine (Store σ) μ σ → Prop}
    {a b : Run (Store σ) μ σ α} {f g : α → Run (Store σ) μ σ β} {m k : Machine (Store σ) μ σ}
    (first : Ended rel broken (a m) (b k)) (rest : ∀ x n n', rel n n' → Ended rel' broken' (f x n) (g x n'))
    (breaks : ∀ n n', broken n n' → broken' n n') : Ended rel' broken' ((a >>= f) m) ((b >>= g) k) := by
  show Ended _ _ (EStateM.bind a f m) (EStateM.bind b g k)
  unfold EStateM.bind
  generalize a m = x at first
  generalize b k = y at first
  cases first with
  | ok x related => exact rest x _ _ related
  | error e related => exact .error e (breaks _ _ related)

/-- Ticks go alike inside other ticks if they do inside one more. -/
theorem tickWith_inside (fresh : tree ∉ inside) (hosts : (Concord.inside sys (sys.within tree inside)).Hosts host host') :
    (Concord.inside sys inside).Paired w w (sys.tickWith .plain host tree delta state)
      (sys.tickWith .plain host' tree delta state) := by
  refine ⟨fun _ _ => trivial, fun m m' h _ => ?_⟩
  obtain ⟨rfl, busy, descent⟩ := h
  have ticked : ∀ tick, (Concord.inside sys (sys.within tree inside)).Paired w w
      (sys.tickFresh .plain host tree tick delta state) (sys.tickFresh .plain host' tree tick delta state) :=
    fun tick => (Concord.inside sys _).tickFresh hosts tree tick delta state
  rw [tickWith_apply, tickWith_apply]
  let before := m.runs.progress tree
  have counted : Engaged inside w (m.onRuns (·.onProgress tree ({ · with ticks := before.ticks + 1 })))
      (m.onRuns (·.onProgress tree ({ · with ticks := before.ticks + 1 }))) :=
    ⟨rfl, fun t among => Engaged.busy_onProgress (f := ({ · with ticks := before.ticks + 1 })) tree (fun _ => rfl)
      (busy t among), descent⟩
  change Ended _ _ (sys.tickAfter .plain before host tree delta state _)
    (sys.tickAfter .plain before host' tree delta state _)
  generalize m.onRuns (·.onProgress tree ({ · with ticks := before.ticks + 1 })) = n at counted
  unfold tickAfter
  by_cases guarded : sys.Guarded tree
  case neg =>
    have bare : (sys.limitsOf tree).stackCapacity.isNone = true := by
      simpa [System.Guarded] using guarded
    rw [if_pos bare, if_pos bare]
    rw [within, if_neg guarded] at ticked
    exact (ticked _).agree _ _ counted trivial
  have stacked : ¬ (sys.limitsOf tree).stackCapacity.isNone = true := by
    simpa [System.Guarded, Option.isSome_iff_ne_none] using guarded
  rw [if_neg stacked, if_neg stacked]
  by_cases inUse : before.busy = true
  · rw [if_pos inUse, if_pos inUse]
    exact .ok _ ⟨rfl, counted.busy, counted.descent⟩
  rw [if_neg inUse, if_neg inUse]
  have marked : Engaged (sys.within tree inside) w (n.onRuns (·.onProgress tree ({ · with busy := true })))
      (n.onRuns (·.onProgress tree ({ · with busy := true }))) := by
    refine ⟨rfl, fun t among => ?_, counted.descent⟩
    rw [within, if_pos guarded] at among
    rcases List.mem_cons.mp among with rfl | among
    · exact congrArg Progress.busy (Engaged.progress_onProgress_same n.runs t _)
    · have apart : tree ≠ t := fun same => fresh (same ▸ among)
      exact (congrArg Progress.busy (Engaged.progress_onProgress_ne n.runs _ apart)).trans (counted.busy t among)
  -- The marks of the trees around this one are still there when its own is taken back.
  let release (status : Status) : Run (Store σ) μ σ Status := do
    Stage.plain.modifyStore (·.onProgress tree ({ · with busy := false }))
    return status
  have unmarked : ∀ status k k', Engaged (sys.within tree inside) w k k' →
      Ended (Engaged inside w) (fun n n' => ∃ v, Engaged inside v n n') (release status k) (release status k') := by
    rintro status k _ ⟨rfl, held, descent⟩
    refine .ok status ⟨rfl, fun t among => ?_, descent⟩
    have apart : tree ≠ t := fun same => fresh (same ▸ among)
    refine (congrArg Progress.busy (Engaged.progress_onProgress_ne k.runs _ apart)).trans (held t ?_)
    rw [within, if_pos guarded]
    exact List.mem_cons_of_mem _ among
  refine ended_bind (m := n.onRuns _) (k := n.onRuns _) ((ticked _).agree _ _ marked trivial) unmarked ?_
  rintro k _ ⟨v, rfl, held, descent⟩
  refine ⟨v, rfl, fun t among => held t ?_, descent⟩
  rw [within, if_pos guarded]
  exact List.mem_cons_of_mem _ among

/-- Inside ticks of guarded trees callbacks may as well be refused ticks of these outright. -/
theorem hosts_inside (nesting : Nat) (guards : ∀ t ∈ inside, sys.Guarded t) :
    (Concord.inside sys inside).Hosts (sys.nestedHost .plain nesting) (sys.hostInside nesting inside) := by
  induction nesting generalizing inside with
  | zero => exact ⟨fun _ _ _ => .throw _, fun k tree fire => (Concord.inside sys inside).resetAt k tree 0 fire⟩
  | succ nesting ih =>
    refine ⟨fun k tree delta => ?_, fun k tree fire => (Concord.inside sys inside).resetAt k tree 0 fire⟩
    show (Concord.inside sys inside).Paired k k (sys.tickWith .plain (sys.nestedHost .plain nesting) tree delta none)
      (if tree ∈ inside then _ else _)
    by_cases among : tree ∈ inside
    · rw [if_pos among]
      refine ⟨fun _ _ => trivial, fun m m' h _ => ?_⟩
      obtain ⟨rfl, busy, descent⟩ := h
      rw [tickWith_busy (guards tree among) (busy tree among)]
      exact .ok _ ⟨rfl, fun t here => Engaged.busy_onProgress (f := fun p => { p with ticks := p.ticks + 1 }) tree
        (fun _ => rfl) (busy t here), descent⟩
    · rw [if_neg among]
      refine tickWith_inside among (ih fun t here => ?_)
      unfold within at here
      split at here
      · rcases List.mem_cons.mp here with rfl | here
        · assumption
        · exact guards t here
      · exact guards t here

end System

/-- A tick inside a tick of the same tree, which has a call stack, is refused, wherever the callback is that starts it
and through whatever ticks of other trees: the tick in progress goes as if its callbacks were refused the tree
outright. What refusing does is to fail, to count the tick, and to report it. The context stays as it is, with the
board and the call stack in it, and so do the memory and the run states of all nodes, and what is known of all trees
but for this count. -/
theorem ticks_inside_refused (sys : System μ σ) (tree : TreeId) (guarded : sys.Guarded tree) (delta : Float32)
    (state : Option σ) (m : Machine (Store σ) μ σ) :
    sys.tick .plain tree delta state m =
        sys.tickWith .plain (sys.hostInside System.nestingBound [tree]) tree delta state m ∧
      ∀ n, ∃ n', sys.refuse tree n = .ok .failure n' ∧ n'.context = n.context ∧ n'.memory = n.memory ∧
        n'.heard = n.heard ∧ n'.journal = n.journal.push (.reentrantTick (sys.nameOf tree)) ∧
        n'.runs.apart = n.runs.apart ∧
        (n'.runs.progress tree = { n.runs.progress tree with ticks := (n.runs.progress tree).ticks + 1 }) ∧
        ∀ other, tree ≠ other → n'.runs.progress other = n.runs.progress other := by
  have around : sys.within tree [] = [tree] := if_pos guarded
  constructor
  · have hosts : (Concord.inside sys (sys.within tree [])).Hosts (sys.nestedHost .plain System.nestingBound)
        (sys.hostInside System.nestingBound [tree]) := by
      rw [around]
      exact System.hosts_inside _ (by simpa using guarded)
    have together : (Concord.inside sys []).Paired (.ofContext m.context) (.ofContext m.context)
        (sys.tickWith .plain (sys.nestedHost .plain System.nestingBound) tree delta state)
        (sys.tickWith .plain (sys.hostInside System.nestingBound [tree]) tree delta state) :=
      System.tickWith_inside List.not_mem_nil hosts
    have came := together.agree m m ⟨rfl, nofun, Descent.holds_ofContext m.context⟩ trivial
    show sys.tickWith .plain (sys.nestedHost .plain System.nestingBound) tree delta state m = _
    generalize sys.tickWith .plain (sys.nestedHost .plain System.nestingBound) tree delta state m = x at came
    generalize sys.tickWith .plain (sys.hostInside System.nestingBound [tree]) tree delta state m = y at came
    cases came with
    | ok x same => rw [same.same]
    | error e same =>
      obtain ⟨_, same⟩ := same
      rw [same.same]
  · exact fun n => ⟨_, rfl, rfl, rfl, rfl, rfl, rfl, Engaged.progress_onProgress_same n.runs tree _,
      fun other apart => Engaged.progress_onProgress_ne n.runs _ apart⟩

/-! ## A tick that goes on, and one that does not -/

/-- The first time it ticks the tree that it is in, and notes the answer. -/
def knock : Callback (List Status) Unit Status :=
  .look fun _ noted =>
    if noted.isEmpty then
      .remember (fun _ => [.running]) (.tickTree 0 1 fun answer => .remember (answer :: ·) (.done .success))
    else .remember (.success :: ·) (.done .success)

/-- Knocks under an overlay, and pauses. -/
def knocking (limits : { l : Limits // l.Valid }) : System (List Status) Unit where
  trees := #[{ name := "door", root := .localScope (.sequence [.action knock, .pause]), limits }]

/-- Nothing was noted yet. -/
def knockingStart : Machine (Store Unit) (List Status) Unit := { context := {}, memory := [], runs := {} }

/-- The answer of one tick, and what was noted. -/
def knockingRun (limits : { l : Limits // l.Valid }) : Run (Store Unit) (List Status) Unit (Status × List Status) := do
  let answer ← (knocking limits).tick .plain 0 1 none
  return (answer, (← get).memory)

/-- With a stack the tick inside fails, and the pause begins. -/
theorem knock_refused : ∃ n, n.memory = [.failure, .running] ∧
    (knocking ⟨{}, Limits.default_valid⟩).tickWith .plain
      ((knocking ⟨{}, Limits.default_valid⟩).hostInside System.nestingBound [0]) 0 1 none knockingStart =
      .ok .running n := by
  obtain ⟨_, ran⟩ := Run.ok_of_answer (a := knockingRun ⟨{}, Limits.default_valid⟩) (m := knockingStart)
    (x := (.running, [.failure, .running])) (by decide +kernel)
  simp only [knockingRun, Run.bind_eq_ok, Run.get_eq_ok, Run.pure_eq_ok, Prod.mk.injEq] at ran
  obtain ⟨_, n, ticked, _, _, ⟨rfl, rfl⟩, ⟨rfl, noted⟩, rfl⟩ := ran
  refine ⟨n, noted, ?_⟩
  rw [← (ticks_inside_refused (knocking ⟨{}, Limits.default_valid⟩) 0 (by decide) 1 none knockingStart).1]
  exact ticked

/-- Without one the tick inside runs the nodes again, and leaves the pause begun, so that the tick around it ends. -/
theorem knocked_again : ∃ n, (knocking stackless).tick .plain 0 1 none knockingStart = .ok .success n ∧
    n.memory = [.running, .success, .running] := by
  obtain ⟨_, ran⟩ := Run.ok_of_answer (a := knockingRun stackless) (m := knockingStart)
    (x := (.success, [.running, .success, .running])) (by decide +kernel)
  simp only [knockingRun, Run.bind_eq_ok, Run.get_eq_ok, Run.pure_eq_ok, Prod.mk.injEq] at ran
  obtain ⟨_, n, ticked, _, _, ⟨rfl, rfl⟩, ⟨rfl, noted⟩, rfl⟩ := ran
  exact ⟨n, ticked, noted⟩

end BehaviorTree
