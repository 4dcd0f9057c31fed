/-
  BehaviorTree.Proofs.Ticks.Single: ticks of leaves and of nodes with one child.

  Each of them keeps the rule from `AtWork`: the slot it leaves records its child exactly
  when the child is left running.
-/

import BehaviorTree.Proofs.AtWork

namespace BehaviorTree

variable {ρ μ σ : Type}

open Behaviour (noted)

namespace Setting

variable {S : Setting ρ μ σ} {site : Address} {node child : Node μ σ} {b : Behaviour ρ μ σ} {d : Nat}
  {m m' : Machine ρ μ σ} {st : Status}

/-! ## Leaves -/

theorem no_child (hn : S.sys.nodeAt site = some node) (leaf : node.children = [])
    (calls : ∀ source makeState, node ≠ .call source makeState) (c : Place) : ¬ S.sys.Child ⟨site, d⟩ c := by
  intro hc
  obtain ⟨i, hi, -⟩ := hc.of_node hn calls
  simp [leaf] at hi

theorem ticks_action {host : Host ρ μ σ} {body : Callback μ σ Status} (hn : S.sys.nodeAt site = some (.action body)) :
    S.Ticks site (.action host body) := by
  intro d m st m' h ok
  have still := Still.of_stays (S := S) (Callback.Mild.stays (S.mild _ _ hn) ok)
  refine ((AtWork.start h).still still).rested (fun c hc => absurd hc (no_child hn rfl (by simp) c)) (fun _ => ?_) ?_
  · exact (still.slots _).trans ((h.sound _ .refl).fits _ hn)
  · exact fun pending => .inr ((still.calm h.calm).resolve_right fun none => by simp [none] at pending)

theorem ticks_earlyReturn {v : Verdict} (hn : S.sys.nodeAt site = some (.earlyReturn v)) :
    S.Ticks site (.earlyReturn v) := by
  intro d m st m' h ok
  obtain ⟨rfl, alike⟩ := Behaviour.earlyReturn_ok ok
  have idle : (S.store m').slot ⟨site, d⟩ = .idle := by
    rw [store, alike.runs]
    exact (h.sound _ .refl).fits _ hn
  have moves : S.Moves ⟨site, d⟩ m m' := by
    refine ⟨fun q _ => ?_, alike.depth, fun g => ?_, ?_, ?_, fun q => ?_⟩
    · rw [store, store, alike.runs]
    · exact g.congr alike.depth alike.maxDepth alike.stack
    · rw [store, store, alike.runs]
      exact id
    · rw [alike.runs]
      exact id
    · rw [alike.runs]
      exact id
  have leaf : ∀ c, ¬ S.sys.Child ⟨site, d⟩ c := no_child hn rfl (by simp)
  exact {
    moves
    sound := sound_of_vacant (fun _ => idle) (fun c hc => absurd hc (leaf c)) fun c hc => absurd hc (leaf c)
    vacant := fun _ => vacant_of_children (fun _ => idle) fun c hc => absurd hc (leaf c)
    returning := fun _ => .inl (by simp) }

theorem ticks_condition {holds : Predicate μ σ} {every : Duration}
    (hn : S.sys.nodeAt site = some (.condition holds every)) :
    S.Ticks site (.condition (S.stage.cell site) holds every) := by
  intro d m st m' h ok
  obtain ⟨terminal, x, ok⟩ := Behaviour.condition_ok ok
  obtain rfl : m.context.depth = d := h.depth
  have w := (AtWork.start h).still (.of_memory m x)
  have none : ∀ c, S.sys.Child ⟨site, m.context.depth⟩ c → ¬ S.sys.Records (S.store m) ⟨site, m.context.depth⟩ c :=
    fun c hc => absurd hc (no_child hn rfl (by simp) c)
  rcases ok with rfl | ⟨slot, rfl⟩
  · exact w.rested none (fun hc => absurd hn (hc _ _)) fun _ => .inl terminal
  · exact (w.set slot).rested none (fun hc => absurd hn (hc _ _)) fun _ => .inl terminal

/-- A leaf that keeps something as long as it is running. -/
theorem ticks_timed {B : Behaviour ρ μ σ} (hn : S.sys.nodeAt site = some node) (leaf : node.children = [])
    (calls : ∀ source makeState, node ≠ .call source makeState)
    (fits : ∀ slot admits, node.Fits (σ := σ) slot admits)
    (tick : Behaviour.HoldsWhileRunning (S.stage.cell site) B) :
    S.Ticks site B := by
  intro d m st m' h ok
  obtain rfl : m.context.depth = d := h.depth
  obtain ⟨x, ⟨rfl, rfl⟩ | ⟨rfl, slot, rfl⟩⟩ := tick m st m' ok
  all_goals have w := (AtWork.start h).still (.of_memory m x)
  · exact w.reset.rested (fun c hc => absurd hc (no_child hn leaf calls c)) (fun _ => slot_reset _ _) fun _ => .inl rfl
  · exact (w.set slot).waiting hn (fits _ _) (fun c hc => absurd hc (no_child hn leaf calls c)) h.calm

/-! ## One child, whose end is noted -/

/-- A node that notes whether it left its child running. A request to return early that the child
leaves ends the node too. -/
theorem ticks_noted {B : Behaviour ρ μ σ} (hn : S.sys.nodeAt site = some node) (one : node.children = [child])
    (runs : ∀ slot, node.Runs (σ := σ) slot 0 ↔ slot = .started)
    (fits : ∀ slot admits, node.Fits (σ := σ) slot admits ↔ slot = .idle ∨ slot = .started)
    (spec : S.Exits (0 :: site) b)
    (tick : Behaviour.NotesChild (S.stage.cell site) b B) :
    S.Ticks site B := by
  intro d m st m' h ok
  obtain rfl : m.context.depth = d := h.depth
  have hc : S.sys.Child ⟨site, m.context.depth⟩ (Place.inside ⟨site, m.context.depth⟩ 0) := .inside hn (by simp [one])
  rcases tick m st m' ok with ⟨fresh, rfl, x, rfl⟩ | ⟨x, s, m₁, e, ticked, he, rfl, running, returning⟩
  · have idle := ((fits _ _).mp ((h.sound _ .refl).fits _ hn)).resolve_right fresh
    refine ((AtWork.start h).still (.of_memory m x)).rested (fun c hc hr => ?_) (fun _ => idle) fun _ => .inl rfl
    obtain rfl := hc.only hn one
    exact fresh ((runs _).mp (hr.runs hn))
  · have w := (AtWork.start h).still (.of_memory m x)
    have ended := spec _ _ _ _ (w.ready hc rfl h.calm) ticked
    obtain ⟨busy, rest⟩ := w.after hc ended.moves ended.sound
    obtain rfl : e = m.context.depth := he.elim id fun he => he.trans busy.depth
    by_cases hs : s = .running
    · subst hs
      rw [running rfl]
      refine (busy.set .started).waiting hn ?_ (fun c hc _ => ?_) ended.calm
      · rw [slot_set, fits]
        exact .inr rfl
      · obtain rfl := hc.only hn one
        refine .inside hn ?_
        rw [slot_set, runs]
    · have terminal := Status.isTerminal_iff.mpr hs
      have : noted (σ := σ) s = .idle := by simp_all [noted, Status.isTerminal]
      rw [this]
      refine ((rest (ended.vacant terminal)).set .idle).rested (fun c hc k => k.2 (hc.only hn one))
        (fun _ => slot_set _ _ _) ?_
      exact fun pending => .inl (returning pending terminal)

theorem ticks_invert (hn : S.sys.nodeAt site = some (.invert child)) (spec : S.Exits (0 :: site) b) :
    S.Ticks site (.invert (S.stage.cell site) b) := by
  exact ticks_noted hn rfl (by simp [Node.Runs]) (by simp [Node.Fits]) spec Behaviour.invert_notesChild

theorem ticks_force {v : Verdict} (hn : S.sys.nodeAt site = some (.force v child)) (spec : S.Exits (0 :: site) b) :
    S.Ticks site (.force (S.stage.cell site) v b) := by
  exact ticks_noted hn rfl (by simp [Node.Runs]) (by simp [Node.Fits]) spec Behaviour.force_notesChild

theorem ticks_repeatUntil {v : Verdict} (hn : S.sys.nodeAt site = some (.repeatUntil v child))
    (spec : S.Exits (0 :: site) b) : S.Ticks site (.repeatUntil (S.stage.cell site) v b) := by
  exact ticks_noted hn rfl (by simp [Node.Runs]) (by simp [Node.Fits]) spec Behaviour.repeatUntil_notesChild

theorem ticks_guard {holds : Predicate μ σ} (hn : S.sys.nodeAt site = some (.guard holds child))
    (spec : S.Exits (0 :: site) b) : S.Ticks site (.guard (S.stage.cell site) holds b) := by
  exact ticks_noted hn rfl (by simp [Node.Runs]) (by simp [Node.Fits]) spec Behaviour.guard_notesChild

/-! ## One child, again and again -/

theorem ticks_iterate {goOn : Verdict} {spent : UInt32 → Bool} (hn : S.sys.nodeAt site = some node)
    (one : node.children = [child]) (drops : node.Drops)
    (runs : ∀ slot, node.Runs (σ := σ) slot 0 ↔ ∃ count, slot = .iterations count true)
    (fits : ∀ slot admits, node.Fits (σ := σ) slot admits) (spec : S.Exits (0 :: site) b) :
    S.Ticks site (.iterate (S.stage.cell site) goOn spent b) := by
  intro d m st m' h ok
  obtain rfl : m.context.depth = d := h.depth
  have hc : S.sys.Child ⟨site, m.context.depth⟩ (Place.inside ⟨site, m.context.depth⟩ 0) := .inside hn (by simp [one])
  obtain ⟨s, m₁, ticked, outcome⟩ := Behaviour.iterate_ok ok
  have w := AtWork.start h
  have ended := spec _ _ _ _ (w.ready hc rfl h.calm) ticked
  obtain ⟨busy, rest⟩ := w.after hc ended.moves ended.sound
  rcases outcome with ⟨vacated, rfl, rfl⟩ | ⟨calm, rfl, n, rfl⟩
  · have vacant := vacated.elim (ended.dropped (System.dropped_inside hn drops 0)) ended.vacant
    exact (rest vacant).reset.rested (fun c hc k => k.2 (hc.only hn one)) (fun _ => slot_reset _ _) ended.returning
  · have calm : S.Calm m₁ := .inr (by simpa using calm)
    by_cases hs : s = .running
    · subst hs
      refine (busy.set _).waiting hn (fits _ _) (fun c hc _ => ?_) calm
      obtain rfl := hc.only hn one
      refine .inside hn ?_
      rw [slot_set, runs]
      exact ⟨n, rfl⟩
    · refine ((rest (ended.vacant (Status.isTerminal_iff.mpr hs))).set _).waiting hn (fits _ _) (fun c hc k => ?_) calm
      exact absurd (hc.only hn one) k.2

/-! ## One child, and time -/

theorem ticks_timeout {duration : Duration} (hn : S.sys.nodeAt site = some (.timeout duration child))
    (spec : S.Works (0 :: site) b) : S.Ticks site (.timeout (S.stage.cell site) duration b) := by
  intro d m st m' h ok
  obtain rfl : m.context.depth = d := h.depth
  have hc : S.sys.Child ⟨site, m.context.depth⟩ (Place.inside ⟨site, m.context.depth⟩ 0) :=
    .inside hn (by simp [Node.children])
  obtain ⟨s, m₁, ticked, outcome⟩ := Behaviour.timeout_ok ok
  have w := AtWork.start h
  have ended := spec.tick _ _ _ _ (w.ready hc rfl h.calm) ticked
  obtain ⟨busy, rest⟩ := w.after hc ended.moves ended.sound
  rcases outcome with ⟨terminal, rfl, rfl⟩ | ⟨rfl, rfl, aborted⟩ | ⟨rfl, rfl, t, rfl⟩
  · exact (rest (ended.vacant terminal)).reset.rested (fun c hc k => k.2 (hc.only hn rfl)) (fun _ => slot_reset _ _)
      fun _ => .inl terminal
  · obtain ⟨m₂, l, reset, L⟩ := (busy.reset.leaving (slot_reset _ _) true).reset hc (.inr rfl) spec.reset trivial
    cases reset.symm.trans aborted
    exact (busy.reset.abandoned L).rested (fun c hc k => k.2 (hc.only hn rfl)) (fun _ => L.idle) fun _ => .inl rfl
  · refine (busy.set _).waiting hn trivial (fun c hc _ => ?_) ended.calm
    obtain rfl := hc.only hn rfl
    refine .inside hn ⟨t, ?_⟩
    rw [slot_set]

theorem ticks_delay {duration : Duration} (hn : S.sys.nodeAt site = some (.delay duration child))
    (spec : S.Exits (0 :: site) b) : S.Ticks site (.delay (S.stage.cell site) duration b) := by
  intro d m st m' h ok
  obtain rfl : m.context.depth = d := h.depth
  have hc : S.sys.Child ⟨site, m.context.depth⟩ (Place.inside ⟨site, m.context.depth⟩ 0) :=
    .inside hn (by simp [Node.children])
  have w := AtWork.start h
  -- before the release nothing is recorded, so the child is vacant
  have unreleased : (S.store m).slot ⟨site, m.context.depth⟩ ≠ .released →
      ∀ c, S.sys.Child ⟨site, m.context.depth⟩ c → ¬ S.sys.Records (S.store m) ⟨site, m.context.depth⟩ c := by
    intro hne c hc hr
    obtain rfl := hc.only hn rfl
    exact hne (hr.runs hn)
  rcases Behaviour.delay_ok ok with ⟨waits, rfl⟩ | ⟨m₀, m₁, released, ticked, outcome⟩
  · rcases Behaviour.release_ok waits with ⟨hf, -⟩ | ⟨hne, t, rfl⟩
    · cases hf
    · exact (w.set _).waiting hn trivial (fun c hc hr => absurd hr (unreleased hne c hc)) h.calm
  obtain ⟨w₀, calm₀, slot₀⟩ :
      S.AtWork ⟨site, m.context.depth⟩ m m₀ (S.sys.Records (S.store m) ⟨site, m.context.depth⟩) ∧
      S.Calm m₀ ∧ (S.store m₀).slot ⟨site, m.context.depth⟩ = .released := by
    rcases Behaviour.release_ok released with ⟨-, hs, rfl⟩ | ⟨-, t, rfl⟩
    · exact ⟨w, h.calm, hs⟩
    · exact ⟨w.set _, h.calm, slot_set _ ⟨site, m.context.depth⟩ _⟩
  have ended := spec _ _ _ _ (w₀.ready hc rfl calm₀) ticked
  obtain ⟨busy, rest⟩ := w₀.after hc ended.moves ended.sound
  rcases outcome with ⟨terminal, rfl⟩ | ⟨rfl, rfl⟩
  · exact (rest (ended.vacant terminal)).reset.rested (fun c hc k => k.2 (hc.only hn rfl)) (fun _ => slot_reset _ _)
      fun _ => .inl terminal
  · refine busy.waiting hn trivial (fun c hc' _ => ?_) ended.calm
    obtain rfl := hc'.only hn rfl
    exact .inside hn ((ended.moves.own_slot hc).trans slot₀)

/-! ## One child, bracketed -/

theorem ticks_localScope (hn : S.sys.nodeAt site = some (.localScope child)) (spec : S.Exits (0 :: site) b) :
    S.Ticks site (.localScope (S.stage.cell site) b) := by
  intro d m st m' h ok
  obtain rfl : m.context.depth = d := h.depth
  have hc : S.sys.Child ⟨site, m.context.depth⟩ (Place.inside ⟨site, m.context.depth⟩ 0) :=
    .inside hn (by simp [Node.children])
  obtain ⟨m₀, m₁, m₂, pushed, ticked, popped, outcome⟩ := Behaviour.localScope_ok ok
  have w := (AtWork.start h).reset.still (.of_alike pushed)
  have ended := spec _ _ _ _ (w.ready hc rfl (h.calm.imp_right pushed.request.trans)) ticked
  obtain ⟨busy, rest⟩ := w.after hc ended.moves ended.sound
  have idle : (S.store m₂).slot ⟨site, m.context.depth⟩ = .idle := by
    rw [(Still.of_alike popped).slots, ended.moves.own_slot hc, (Still.of_alike pushed).slots]
    exact slot_reset _ ⟨site, m.context.depth⟩
  rcases outcome with ⟨rfl, board, rfl⟩ | ⟨terminal, rfl⟩
  · refine ((busy.still (.of_alike popped)).set _).waiting hn trivial (fun c hc _ => ?_)
      (ended.calm.imp_right popped.request.trans)
    obtain rfl := hc.only hn rfl
    refine .inside hn ⟨board, ?_⟩
    rw [slot_set]
  · exact ((rest (ended.vacant terminal)).still (.of_alike popped)).rested (fun c hc k => k.2 (hc.only hn rfl))
      (fun _ => idle) fun _ => .inl terminal

theorem ticks_scope {host : Host ρ μ σ} {hooks : Hooks μ σ} (hn : S.sys.nodeAt site = some (.scope hooks child))
    (spec : S.Works (0 :: site) b) : S.Ticks site (.scope (S.stage.cell site) host hooks b) := by
  intro d m st m' h ok
  obtain rfl : m.context.depth = d := h.depth
  have hc : S.sys.Child ⟨site, m.context.depth⟩ (Place.inside ⟨site, m.context.depth⟩ 0) :=
    .inside hn (by simp [Node.children])
  obtain ⟨m₀, ticked, m₁, m₂, opened, tick, settled, closed⟩ := Behaviour.scope_ok ok
  obtain ⟨w, calm, started⟩ :
      S.AtWork ⟨site, m.context.depth⟩ m m₀ (S.sys.Records (S.store m) ⟨site, m.context.depth⟩) ∧
        S.Calm m₀ ∧ (S.store m₀).slot ⟨site, m.context.depth⟩ = .started := by
    rcases Behaviour.openScope_ok opened with ⟨hs, rfl⟩ | ⟨n, traced, entered⟩
    · exact ⟨AtWork.start h, h.calm, hs⟩
    · have still := (Still.of_alike (S := S) traced).trans (.of_stays (Callback.Mild.stays (S.mild _ _ hn) entered))
      refine ⟨((AtWork.start h).set _).still still, still.calm h.calm, ?_⟩
      rw [still.slots]
      exact slot_set _ ⟨site, m.context.depth⟩ _
  have ended := spec.tick _ _ _ _ (w.ready hc rfl calm) tick
  obtain ⟨busy, rest⟩ := w.after hc ended.moves ended.sound
  -- a request that came up is gone, and with it a child that was still running
  obtain ⟨w₂, calm₂, started₂⟩ : S.AtWork ⟨site, m.context.depth⟩ m m₂ (fun _ => st = .running) ∧
      m₂.context.returnRequest = none ∧ (S.store m₂).slot ⟨site, m.context.depth⟩ = .started := by
    have started₁ := (ended.moves.own_slot hc).trans started
    rcases Behaviour.settleReturn_ok settled with ⟨calm₁, rfl, rfl⟩ | ⟨-, n, reported, outcome⟩
    · refine ⟨?_, calm₁, started₁⟩
      by_cases running : st = .running
      · exact busy.mono fun _ _ _ => running
      · exact (rest (ended.vacant (Status.isTerminal_iff.mpr running))).mono fun c hc k => absurd (hc.only hn rfl) k.2
    have still : S.Still m₁ n := .of_stays ((Machine.Stays.cleared m₁).trans (.of_alike reported))
    rcases outcome with ⟨rfl, abandoned⟩ | ⟨terminal, rfl⟩
    · have w₁ := busy.still still
      obtain ⟨n', reset, gone⟩ := spec.reset n m.context.depth true w₁.bounded w₁.tidy (w₁.sound _ hc) trivial
      cases reset.symm.trans abandoned
      refine ⟨((w₁.after hc gone.moves gone.sound).2 gone.vacant).mono fun c hc k => absurd (hc.only hn rfl) k.2,
        (congrArg Context.returnRequest gone.context).trans reported.request, ?_⟩
      exact (gone.moves.own_slot hc).trans ((still.slots _).trans started₁)
    · exact ⟨((rest (ended.vacant terminal)).still still).mono fun c hc k => absurd (hc.only hn rfl) k.2,
        reported.request, (still.slots _).trans started₁⟩
  rcases Behaviour.closeScope_ok closed with ⟨rfl, rfl⟩ | ⟨terminal, n, traced, rfl⟩
  · refine w₂.waiting hn (.inr started₂) (fun c hc _ => ?_) (.inr calm₂)
    obtain rfl := hc.only hn rfl
    exact .inside hn started₂
  · have closing := (Still.of_alike (S := S) traced).trans (.of_memory n (hooks.onExit st n.memory))
    refine (w₂.reset.still closing).rested (fun c hc running => ?_) (fun _ => ?_) fun _ => .inl terminal
    · cases running ▸ terminal
    · rw [closing.slots]
      exact slot_reset _ ⟨site, m.context.depth⟩

end Setting

end BehaviorTree
