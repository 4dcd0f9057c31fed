/-
  BehaviorTree.Proofs.Walks.Calls: the ticks of conditions and of calls, told by deeds.

  A condition comes to its answer in one deed. A call looks up its tree and fails at once,
  or enters it; then the root of the tree is ticked one call deeper, inside the call. What
  is done around that tick, telling, counting the tree as running, putting the state of the
  caller aside, touches neither slots nor the recursion guard (`Brackets`).
-/

import BehaviorTree.Proofs.Lockstep.Calls
import BehaviorTree.Proofs.Walks

namespace BehaviorTree

variable {μ σ α β : Type} {sys : System μ σ} {takes : Prop} {limit : Nat} {p : Place} {path : List Place}
  {m m₁ m' : Machine (Recorded μ σ) μ σ} {s : Spot} {st : Status}

theorem Slot.recalled_none {slot : Slot σ} {every : Duration} {delta : Float32} (untimed : ¬ 0 < every.length) :
    slot.recalled every delta = none := by
  unfold recalled
  split
  · exact if_neg fun h => untimed h.1
  · rfl

theorem Context.enter_bounded {c entered : Context σ} {name : String} (h : c.enter name = .ok entered) :
    c.depth + 1 ≤ c.maxDepth := by
  unfold enter at h
  split at h
  · cases h
  · omega

namespace System

variable (sys takes limit) in
/-- The tick of a node, from the machine that entered it up to its answer. -/
def Starts (p : Place) (path : List Place) (a : Run (Recorded μ σ) μ σ Status) : Prop :=
  ∀ m, sys.Sits limit (.within (p :: path)) m → Enters p m →
    sys.Comes takes (.within (p :: path)) m (.leaving (p :: path)) (a m)

/-! ## Conditions -/

/-- What a condition recalls; it adds to the time since then. -/
theorem keptAnswer_recalls {every : Duration} (timed : 0 < every.length) (m : Machine (Recorded μ σ) μ σ) :
    match (m.runs.store.slot p).recalled every m.context.delta with
    | none => Behaviour.keptAnswer (Stage.recording.cell p.site) every p.depth m = .ok none m
    | some answer => ∃ since m',
      Behaviour.keptAnswer (Stage.recording.cell p.site) every p.depth m = .ok (some answer) m' ∧
        Wrote p (.answered answer since) m m' ∧ m'.memory = m.memory := by
  have read : (Stage.recording.cell p.site).read p.depth m = .ok (m.runs.store.slot p) m := rfl
  unfold Behaviour.keptAnswer
  rw [Run.bind_ok read]
  generalize m.runs.store.slot p = slot
  cases slot with
  | answered answer since =>
    dsimp only
    rw [Run.bind_ok (Run.delta_eq_ok.mpr ⟨rfl, rfl⟩)]
    by_cases due : every.length ≤ since + m.context.delta
    · simp only [Slot.recalled, timed, due, if_true, not_true, and_false, if_false]
      rfl
    · simp only [Slot.recalled, timed, due, not_false_eq_true, and_self, if_true, if_false]
      exact ⟨_, _, rfl, .set m p (.answered answer (since + m.context.delta)), rfl⟩
  | _ => rfl

/-- What a condition comes to. -/
theorem condition_answers (holds : Predicate μ σ) (every : Duration) (depth : m.context.depth = p.depth) :
    ∃ st m', (Behaviour.condition (Stage.recording.cell p.site) holds every).tick m = .ok st m' ∧
      Answers p holds every m m' st := by
  have tick : (Behaviour.condition (Stage.recording.cell p.site) holds every).tick m = _ :=
    Run.bind_ok (Run.depth_eq_ok.mpr ⟨depth, rfl⟩)
  rw [tick]
  dsimp only
  by_cases timed : 0 < every.length
  · have recalls := keptAnswer_recalls (p := p) timed m
    rw [if_pos timed]
    split at recalls
    · rename_i none
      rw [Run.bind_ok recalls]
      have wrote := Wrote.set (m.withMemory (holds m.context m.memory).2) p (.answered (holds m.context m.memory).1 0)
      refine ⟨_, _, rfl, ⟨wrote.elsewhere, wrote.bounded, rfl⟩, rfl, ?_, ?_, ?_⟩
      · intro i hi
        cases wrote.here.symm.trans hi
      · rw [none]
        rfl
      · rw [none]
        rfl
    · rename_i answer some
      obtain ⟨since, m', kept, wrote, memory⟩ := recalls
      rw [Run.bind_ok kept]
      refine ⟨_, _, rfl, wrote.toNear, wrote.context, ?_, ?_, ?_⟩
      · intro i hi
        cases wrote.here.symm.trans hi
      · rw [some]
        rfl
      · rw [some]
        exact memory
  · rw [if_neg timed]
    have none : (m.runs.store.slot p).recalled every m.context.delta = none := Slot.recalled_none timed
    refine ⟨_, _, rfl, ⟨fun _ _ => rfl, id, rfl⟩, rfl, fun _ => id, ?_, ?_⟩
    · rw [none]
      rfl
    · rw [none]
      rfl

theorem Starts.condition {holds : Predicate μ σ} {every : Duration}
    (here : sys.nodeAt p.site = some (.condition holds every)) :
    sys.Starts takes limit p path (Behaviour.condition (Stage.recording.cell p.site) holds every).tick := by
  intro m sits enters
  obtain ⟨st, m', ok, answers⟩ := condition_answers holds every sits.depth
  rw [ok]
  exact .ok (Deed.answered here enters answers).deeds

/-! ## Looking up a tree -/

variable (sys) in
theorem resolve_finds (source : Source μ) (m : Machine (Recorded μ σ) μ σ) :
    ∃ m', sys.resolve .recording source m = .ok (sys.found (Recorded.scene m) source) m' ∧ Aside False m m' ∧
      m'.context = m.context := by
  match source with
  | .fixed (.strong _) => exact ⟨m, rfl, .refl m, rfl⟩
  | .fixed (.weak _) => exact ⟨m, rfl, .refl m, rfl⟩
  | .provided provide =>
    exact ⟨m.withMemory (provide m.memory).2, rfl, ⟨⟨rfl, rfl, rfl⟩, .inl rfl, fun _ => rfl, rfl, rfl⟩, rfl⟩

theorem stateFor_ok (makeState : Option (StateMaker μ σ)) (m : Machine (Recorded μ σ) μ σ) :
    ∃ state m', Behaviour.stateFor makeState m = .ok state m' ∧ Aside False m m' ∧ m'.context = m.context := by
  cases makeState with
  | none => exact ⟨none, m, rfl, .refl m, rfl⟩
  | some make =>
    exact ⟨_, m.withMemory _, rfl, ⟨⟨rfl, rfl, rfl⟩, .inl rfl, fun _ => rfl, rfl, rfl⟩, rfl⟩

variable (sys) in
/-- The tree that a call runs is looked up and kept, or there is none. -/
theorem callTarget_finds (source : Source μ) (makeState : Option (StateMaker μ σ))
    (depth : m.context.depth = p.depth) :
    match sys.target p.site source (Recorded.scene m) with
    | none => ∃ m', Behaviour.callTarget (Stage.recording.cell p.site) (sys.resolve .recording source) makeState
        p.depth m = .ok none m' ∧ Aside False m m'
    | some tree => ∃ state fresh m', Behaviour.callTarget (Stage.recording.cell p.site)
        (sys.resolve .recording source) makeState p.depth m = .ok (some (tree, state, fresh)) m' ∧
        m'.context = m.context ∧ Near p m m' ∧ ∃ own, m'.runs.store.slot p = .call tree own := by
  have read : (Stage.recording.cell p.site).read p.depth m = .ok (m.runs.store.slot p) m := rfl
  have same : (Recorded.scene m).store.slot ⟨p.site, (Recorded.scene m).context.depth⟩ = m.runs.store.slot p :=
    congrArg (fun d => m.runs.store.slot ⟨p.site, d⟩) depth
  unfold Behaviour.callTarget target
  rw [Run.bind_ok read, same]
  cases hs : m.runs.store.slot p with
  | call tree state => exact ⟨state, false, m, rfl, rfl, .refl m, state, hs⟩
  | _ =>
    obtain ⟨m₁, found, aside, context⟩ := resolve_finds sys source m
    dsimp only
    rw [Run.bind_ok found]
    cases sys.found (Recorded.scene m) source with
    | none =>
      exact ⟨_, rfl, ⟨⟨aside.depth, aside.maxDepth, aside.stack⟩, aside.overflow, aside.slots, aside.height,
        aside.history⟩⟩
    | some tree =>
      obtain ⟨state, m₂, made, aside', context'⟩ := stateFor_ok makeState m₁
      dsimp only
      rw [Run.bind_ok made]
      have wrote := Wrote.set m₂ p (.call tree state)
      exact ⟨state, true, _, rfl, context'.trans context, (aside.near.trans aside'.near).trans wrote.toNear, state,
        wrote.here⟩

/-! ## Entering and leaving it -/

/-- The second run with something aside before it and after it. -/
def Brackets (b a : Run (Recorded μ σ) μ σ α) : Prop :=
  ∀ m, ∃ m₁, Aside False m m₁ ∧ match a m₁ with
    | .ok x m₂ => ∃ m₃, b m = .ok x m₃ ∧ Aside False m₂ m₃
    | .error e m₂ => b m = .error e m₂

theorem Brackets.trans {a b c : Run (Recorded μ σ) μ σ α} (h : Brackets c b) (k : Brackets b a) : Brackets c a := by
  intro m
  obtain ⟨m₁, aside, outer⟩ := h m
  obtain ⟨m₂, aside', inner⟩ := k m₁
  refine ⟨m₂, aside.trans aside', ?_⟩
  generalize a m₂ = r at inner
  cases r with
  | ok x m₃ =>
    obtain ⟨m₄, ok, aside₁⟩ := inner
    rw [ok] at outer
    obtain ⟨m₅, ok', aside₂⟩ := outer
    exact ⟨m₅, ok', aside₁.trans aside₂⟩
  | error e m₃ =>
    dsimp only at inner
    rw [inner] at outer
    exact outer

theorem Brackets.refl (a : Run (Recorded μ σ) μ σ α) : Brackets a a := by
  intro m
  refine ⟨m, .refl m, ?_⟩
  cases a m with
  | ok x m' => exact ⟨m', rfl, .refl m'⟩
  | error e m' => rfl

theorem Brackets.of_aside {b a : Run (Recorded μ σ) μ σ α}
    (before : Machine (Recorded μ σ) μ σ → Machine (Recorded μ σ) μ σ)
    (after : Machine (Recorded μ σ) μ σ → Machine (Recorded μ σ) μ σ → Machine (Recorded μ σ) μ σ)
    (runs : ∀ m, b m = match a (before m) with
      | .ok x n => .ok x (after m n)
      | .error e n => .error e n)
    (first : ∀ m, Aside False m (before m)) (last : ∀ m n, Aside False n (after m n)) : Brackets b a := by
  intro m
  refine ⟨before m, first m, ?_⟩
  rw [runs]
  cases a (before m) with
  | ok x n => exact ⟨_, rfl, last m n⟩
  | error e n => rfl

theorem Brackets.inUse {tree : TreeId} {a : Run (Recorded μ σ) μ σ α} :
    Brackets (System.inUse .recording tree a) a := by
  refine .of_aside (fun m => m.onRuns (Stage.recording.onStore fun s => { s with running := tree :: s.running }))
    (fun _ n => n.onRuns (Stage.recording.onStore fun s => { s with running := s.running.tail }))
    (fun m => ?_) ?_ ?_
  · show EStateM.bind a _ (m.onRuns (Stage.recording.onStore _)) = _
    unfold EStateM.bind
    cases a _ <;> rfl
  · exact fun _ => ⟨⟨rfl, rfl, rfl⟩, .inl rfl, fun _ => rfl, rfl, rfl⟩
  · exact fun _ _ => ⟨⟨rfl, rfl, rfl⟩, .inl rfl, fun _ => rfl, rfl, rfl⟩

theorem Brackets.withState {state : Option σ} {a : Run (Recorded μ σ) μ σ α} : Brackets (Run.withState state a) a := by
  refine .of_aside (fun m => { m with context := { m.context with state } })
    (fun m n => { n with context := { n.context with state := m.context.state } }) (fun m => ?_) ?_ ?_
  · show EStateM.bind a _ { m with context := { m.context with state } } = _
    unfold EStateM.bind
    cases a _ <;> rfl
  · exact fun _ => ⟨⟨rfl, rfl, rfl⟩, .inl rfl, fun _ => rfl, rfl, rfl⟩
  · exact fun _ _ => ⟨⟨rfl, rfl, rfl⟩, .inl rfl, fun _ => rfl, rfl, rfl⟩

variable (sys takes limit) in
/-- The tick of a tree's root, so many calls deep: of no node, where no tree has the number. -/
inductive Rooted (d : Nat) (tree : TreeId) (tick : Run (Recorded μ σ) μ σ Status) : Prop
  | void : sys.trees[tree]? = none → Brackets tick (pure .failure) → Rooted d tree tick
  | root {inner : Behaviour (Recorded μ σ) μ σ} : (∃ t, sys.trees[tree]? = some t) →
      Brackets tick (Stage.recording.watch [tree] inner).tick →
      (∀ path, sys.Starts takes limit ⟨[tree], d⟩ path inner.tick) → Rooted d tree tick

theorem Rooted.within {d : Nat} {tree : TreeId} {tick body : Run (Recorded μ σ) μ σ Status} (h : Brackets body tick)
    (rooted : sys.Rooted takes limit d tree tick) : sys.Rooted takes limit d tree body := by
  cases rooted with
  | void missing runs => exact .void missing (h.trans runs)
  | root present runs starts => exact .root present (h.trans runs) starts

/-! ## Inside one deed -/

/-- Something aside in the middle of a deed. -/
theorem Comes.aside {a : Run (Recorded μ σ) μ σ α} {f : α → Run (Recorded μ σ) μ σ β} {u : β → Spot}
    (h : Incidental False a) (broken : ∀ n, Aside False m₁ n → sys.Broken m n)
    (rest : ∀ x n, Aside False m₁ n → sys.Comes takes s m u (f x n)) : sys.Comes takes s m u ((a >>= f) m₁) := by
  have happened := h m₁
  show sys.Comes takes s m u (EStateM.bind a f m₁)
  unfold EStateM.bind
  generalize a m₁ = r at happened
  cases r with
  | ok x n => exact rest x n happened
  | error e n => exact .error happened.1 .refl (broken n happened.2)

theorem Near.broken {source : Source μ} {makeState : Option (StateMaker μ σ)}
    (here : sys.nodeAt p.site = some (.call source makeState)) (near : Near p m m')
    (sort : ∀ i, m'.runs.store.slot p ≠ .child i) : sys.Broken m m' where
  slots q := by
    by_cases same : q = p
    · exact .inr (same ▸ ⟨source, makeState, here⟩)
    · exact .inl (near.elsewhere q same)
  followable k := near.followable k fun _ i _ hs => absurd hs (sort i)
  history := near.history

theorem Incidental.bind {a : Run (Recorded μ σ) μ σ α} {f : α → Run (Recorded μ σ) μ σ β} (first : Incidental takes a)
    (rest : ∀ x, Incidental takes (f x)) : Incidental takes (a >>= f) := by
  intro m
  have happened := first m
  show match EStateM.bind a f m with
    | .ok _ m' => Aside takes m m'
    | .error e m' => e.Raised ∧ Aside takes m m'
  unfold EStateM.bind
  generalize a m = r at happened
  cases r with
  | error e n => exact happened
  | ok x n =>
    have next := rest x n
    dsimp only
    generalize f x n = r at next
    cases r with
    | ok y n' => exact happened.trans next
    | error e n' => exact ⟨next.1, happened.trans next.2⟩

theorem Incidental.announceCall {name : String} {fresh : Bool} {d : Nat} :
    Incidental takes (Behaviour.announceCall (ρ := Recorded μ σ) (μ := μ) (σ := σ) name fresh d) := by
  unfold Behaviour.announceCall
  split
  · exact Incidental.report.bind fun _ => .trace
  · exact .of_ok fun m => ⟨_, m, rfl, .refl m⟩

/-- Leaving a call puts the recursion guard back where it stood before. -/
theorem SameGuard.left {name : String} {n : Machine (Recorded μ σ) μ σ}
    (entered : m.context.enter name = .ok m₁.context)
    (h : SameGuard m₁ n) : n.context.leave.depth = m.context.depth ∧ n.context.leave.maxDepth = m.context.maxDepth ∧
      n.context.leave.stack = m.context.stack := by
  rw [← Context.leave_enter entered]
  refine ⟨congrArg (· - 1) h.depth, h.maxDepth, ?_⟩
  show n.context.stack.map _ = m₁.context.stack.map _
  rw [h.stack]

/-- The root of a called tree was left, and so is the call. -/
theorem Returns.of_aside {tree : TreeId} {n : Machine (Recorded μ σ) μ σ}
    (h : Aside False (Recorded.add (.left [tree] st (Recorded.scene m)) m) n) :
    Returns tree st m { n with context := n.context.leave } where
  depth := congrArg (· - 1) h.depth
  maxDepth := h.maxDepth
  stack := by
    show n.context.stack.map _ = m.context.stack.map _
    rw [h.stack, Recorded.add_context]
  overflow := h.overflow.resolve_right id
  slots := h.slots
  height := h.height
  history := h.history

/-- A call was admitted, but the number that it found names no tree. -/
theorem Fails.of_void {source : Source μ} {tree : TreeId} {own : Option σ} {n : Machine (Recorded μ σ) μ σ}
    (target : sys.target p.site source (Recorded.scene m) = some tree)
    (entered : m.context.enter (sys.nameOf tree) = .ok m₁.context) (missing : sys.trees[tree]? = none)
    (near : Near p m m₁) (kept : m₁.runs.store.slot p = .call tree own) (h : Aside False m₁ n) :
    sys.Fails p source m { n with context := n.context.leave } := by
  obtain ⟨depth, maxDepth, stack⟩ := h.toSameGuard.left entered
  have away : Near p n { n with context := n.context.leave } := ⟨fun _ _ => rfl, id, rfl⟩
  refine .void target entered missing ⟨depth, maxDepth, stack⟩ ?_ (near.trans (h.near.trans away))
    ⟨own, (h.slots p).trans kept⟩
  rw [← Context.leave_enter entered]
  exact h.overflow.resolve_right id

section Call

variable {source : Source μ} {makeState : Option (StateMaker μ σ)} {tree : TreeId} {name : String}
  (here : sys.nodeAt p.site = some (.call source makeState))
include here

/-- A call whose tree has answered is forgotten, if that is the end of its run. -/
theorem Walks.finishCall (st : Status) :
    sys.Walks takes limit (.leaving (p :: path) st)
      (Behaviour.finishCall (Stage.recording.cell p.site) name p.depth st) fun _ => .leaving (p :: path) st := by
  refine .ite (fun terminal m _ => ?_) fun _ => .stay _
  refine Comes.aside .report (fun _ => Aside.broken) fun _ m₁ told => ?_
  refine Comes.aside .trace (fun _ traced => (told.trans traced).broken) fun _ m₂ traced => ?_
  have aside := told.trans traced
  have wrote := Wrote.reset m₂ p
  have forgets : Forgets p m (m₂.onRuns ((Stage.recording.cell p.site).reset · p.depth)) :=
    ⟨⟨aside.depth, aside.maxDepth, aside.stack⟩, aside.near.trans wrote.toNear, aside.overflow.resolve_right id,
      wrote.here⟩
  exact .ok (Deed.forgot here terminal forgets).deeds

/-- A call that the recursion guard refuses. -/
theorem Comes.refused {o : Overflow} (enters : Enters p m)
    (target : sys.target p.site source (Recorded.scene m) = some tree)
    (refused : m.context.enter (sys.nameOf tree) = .error o) (context : m₁.context = m.context) (near : Near p m m₁)
    (sort : ∀ i, m₁.runs.store.slot p ≠ .child i) :
    sys.Comes takes (.within (p :: path)) m (.leaving (p :: path))
      ((Run.refuse o >>= fun _ => (Stage.recording.cell p.site).forget p.depth >>= fun _ =>
        pure Status.failure) m₁) := by
  have broken : ∀ n, Aside False m₁ n → sys.Broken m n := fun n h =>
    (near.trans h.near).broken here fun i hs => sort i ((h.slots p).symm.trans hs)
  simp only [Run.refuse, bind_assoc]
  refine Comes.aside .report broken fun _ m₂ told => ?_
  refine Comes.aside .trace (fun _ traced => broken _ (told.trans traced)) fun _ m₃ traced => ?_
  have aside := told.trans traced
  let n : Machine (Recorded μ σ) μ σ := { m₃ with context := m₃.context.recordOverflow o }
  have wrote := Wrote.reset n p
  have fails : sys.Fails p source m (n.onRuns ((Stage.recording.cell p.site).reset · p.depth)) := by
    have recorded : Near p m₃ n := ⟨fun _ _ => rfl, id, rfl⟩
    have near' := near.trans (aside.near.trans (recorded.trans wrote.toNear))
    refine .refused target refused ⟨?_, ?_, ?_⟩ ?_ near' wrote.here
    · exact aside.depth.trans (by rw [context])
    · exact aside.maxDepth.trans (by rw [context])
    · exact aside.stack.trans (by rw [context])
    · show some (m₃.context.overflow.getD o) = _
      rw [aside.overflow.resolve_right id, context]
  exact .ok (Deed.failed here enters fails).deeds

/-- A call that is admitted. -/
theorem Comes.admitted {body : Run (Recorded μ σ) μ σ Status} {fresh : Bool}
    (sits : sys.Sits limit (.within (p :: path)) m) (enters : Enters p m)
    (target : sys.target p.site source (Recorded.scene m) = some tree)
    (entered : m.context.enter (sys.nameOf tree) = .ok m₁.context) (near : Near p m m₁)
    (kept : ∃ own, m₁.runs.store.slot p = .call tree own)
    (rooted : sys.Rooted takes limit (p.depth + 1) tree body) :
    sys.Comes takes (.within (p :: path)) m (.leaving (p :: path))
      ((Behaviour.announceCall name fresh p.depth >>= fun _ => body >>= fun st => Run.onContext (·.leave) >>= fun _ =>
        Behaviour.finishCall (Stage.recording.cell p.site) name p.depth st >>= fun _ => pure st) m₁) := by
  obtain ⟨own, kept⟩ := kept
  have still : ∀ {n}, Aside False m₁ n → n.runs.store.slot p = .call tree own := fun h => (h.slots p).trans kept
  refine Comes.aside .announceCall
    (fun n h => (near.trans h.near).broken here fun i hs => by cases (still h).symm.trans hs)
    fun _ m₂ told => ?_
  -- the call is left and forgotten, once its tree has answered
  have ends : ∀ {st n},
      sys.Deeds takes (.within (p :: path)) m (.leaving (p :: path) st) { n with context := n.context.leave } →
      sys.Comes takes (.within (p :: path)) m (.leaving (p :: path))
        ((Run.onContext (·.leave) >>= fun _ =>
          Behaviour.finishCall (Stage.recording.cell p.site) name p.depth st >>= fun _ => pure st) n) := by
    intro st n deeds
    exact .after deeds (Walks.bind (Walks.finishCall here st) (fun _ => .pure st) _ (deeds.sits sits))
  cases rooted with
  | void missing runs =>
    obtain ⟨m₃, before, m₄, ran, after⟩ := runs m₂
    have fails := Fails.of_void target entered missing near kept ((told.trans before).trans after)
    rw [Run.bind_ok ran]
    exact ends (Deed.failed here enters fails).deeds
  | @root inner present runs starts =>
    obtain ⟨m₃, before, ran⟩ := runs m₂
    rw [recording_tick] at ran
    have aside := told.trans before
    have calls : sys.Calls p source tree m m₃ := by
      refine ⟨near.trans aside.near, target, ⟨m₁.context, entered, ?_⟩, own, still aside⟩
      exact ⟨aside.depth, aside.maxDepth, aside.stack, aside.overflow.resolve_right id⟩
    have called := (Deed.called here enters present calls : sys.Deed takes (.within (p :: path)) m _ _).deeds
    have came := starts (p :: path) _ (called.sits sits) List.getLast?_concat
    cases answered : inner.tick (Recorded.add (.entered [tree] (Recorded.scene m₃)) m₃) with
    | ok st m₄ =>
      rw [answered] at ran came
      obtain ⟨m₅, ran, after⟩ := ran
      rw [Run.bind_ok ran]
      cases came with
      | ok deeds => exact ends ((called.trans deeds).step (.returned here (.of_aside after)))
    | error e m₄ =>
      rw [answered] at ran came
      cases came with
      | error raised deeds broken =>
        show sys.Comes takes _ m _ (EStateM.bind body _ m₂)
        unfold EStateM.bind
        rw [ran]
        exact .error raised (called.trans deeds) broken

/-- The tick of a call, of trees whose roots are told by deeds. -/
theorem Starts.call {callees : TreeId → Callee (Recorded μ σ) μ σ}
    (names : ∀ tree, (callees tree).name = sys.nameOf tree)
    (rooted : ∀ tree, p.depth + 1 ≤ limit →
      sys.Rooted takes limit (p.depth + 1) tree (callees tree).root.tick) :
    sys.Starts takes limit p path
      (Behaviour.call (Stage.recording.cell p.site) (sys.resolve .recording source) makeState callees).tick := by
  intro m sits enters
  have depth : m.context.depth = p.depth := sits.depth
  have tick :
      (Behaviour.call (Stage.recording.cell p.site) (sys.resolve .recording source) makeState callees).tick m = _ :=
    Run.bind_ok (Run.depth_eq_ok.mpr ⟨depth, rfl⟩)
  rw [tick]
  have finds := callTarget_finds sys source makeState depth
  split at finds
  · rename_i missing
    obtain ⟨m₁, found, aside⟩ := finds
    rw [Run.bind_ok found]
    exact .ok (Deed.failed here enters (.missing missing aside)).deeds
  · rename_i tree target
    obtain ⟨state, fresh, m₁, found, context, near, own, kept⟩ := finds
    rw [Run.bind_ok found]
    dsimp only
    rw [names]
    cases entered : m.context.enter (sys.nameOf tree) with
    | error o =>
      rw [Run.enter_bind_error (context ▸ entered)]
      exact .refused here enters target entered context near fun i hs => by cases kept.symm.trans hs
    | ok c =>
      rw [Run.enter_bind_ok (context ▸ entered)]
      have admitted : p.depth + 1 ≤ limit := by
        rw [← depth, ← sits.maxDepth]
        exact Context.enter_bounded entered
      dsimp only [Behaviour.runCallee]
      rw [names]
      let n : Machine (Recorded μ σ) μ σ := { m₁ with context := c }
      have inside : Near p m n := ⟨near.elsewhere, near.bounded, near.history⟩
      split
      · exact .admitted here sits enters target entered inside ⟨own, kept⟩ ((rooted tree admitted).within .withState)
      · exact .admitted here sits enters target entered inside ⟨own, kept⟩ (rooted tree admitted)

end Call

end System

end BehaviorTree
