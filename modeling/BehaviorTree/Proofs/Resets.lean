/-
  BehaviorTree.Proofs.Resets: the resets of all nodes.

  Each behaviour's reset, taken alone, follows the node's record (`Runs`). An induction over
  the nodes of a tree and one over the levels of calls put them together: from a sound
  place every reset succeeds and leaves nothing (`resets_root`, `resets_at`).
-/

import BehaviorTree.Proofs.Abandon

namespace BehaviorTree

variable {ρ μ σ : Type}

/-! ## Each node from a sound place -/

namespace Setting

variable {S : Setting ρ μ σ} {deep : (height depth : Nat) → Prop} {site : Address} {node child : Node μ σ}
  {b : Behaviour ρ μ σ} {bs : List (Behaviour ρ μ σ)}

/-- A node that never has a run below it only forgets. -/
theorem resets_leaf {tick : Nat → Run ρ μ σ Status} (hn : S.sys.nodeAt site = some node) (leaf : node.children = [])
    (calls : ∀ source makeState, node ≠ .call source makeState) :
    S.Resets deep site ((S.stage.cell site).leaf tick) := by
  intro m depth fire bounded tidy sound _
  have none : ∀ x, ¬ S.sys.Child ⟨site, depth⟩ x := by
    intro x hx
    obtain ⟨i, hi, -⟩ := hx.of_node hn calls
    simp [leaf] at hi
  have plain : ¬ S.sys.Unfinished (S.store m) ⟨site, depth⟩ :=
    System.not_unfinished hn fun hooks child scope => by simp [scope, Node.children] at leaf
  exact ⟨_, rfl, .taken (p := ⟨site, depth⟩) bounded tidy sound (fun x hx => absurd hx (none x)) plain⟩

/-- A node that remembers nothing has nothing to forget. -/
theorem resets_nothing {tick : Run ρ μ σ Status} (hn : S.sys.nodeAt site = some node) (leaf : node.children = [])
    (calls : ∀ source makeState, node ≠ .call source makeState)
    (idle : ∀ slot admits, node.Fits (σ := σ) slot admits → slot = .idle) :
    S.Resets deep site (.ofTick tick) := by
  intro m depth fire bounded tidy sound _
  refine ⟨m, rfl, .nothing sound (vacant_of_children (fun _ => idle _ _ ((sound _ .refl).fits node hn)) ?_)⟩
  intro x hx
  obtain ⟨i, hi, -⟩ := hx.of_node hn calls
  simp [leaf] at hi

/-- The nodes that note whether they left their child running. -/
theorem resets_started {tick : Run ρ μ σ Status} (hn : S.sys.nodeAt site = some node) (one : node.children = [child])
    (plain : ∀ hooks child, node ≠ .scope hooks child) (spec : S.Resets deep (0 :: site) b)
    (runs : ∀ slot, node.Runs (σ := σ) slot 0 ↔ slot = .started)
    (fits : ∀ slot admits, node.Fits (σ := σ) slot admits → slot = .idle ∨ slot = .started) :
    S.Resets deep site ⟨tick, (S.stage.cell site).resetStarted b⟩ := by
  refine resets_one hn one plain spec (fun m depth fire hr => ?_) fun m depth fire hr hf => .inr ?_
  · refine (Cell.resetStarted_apply ..).trans ?_
    rw [S.get_eq _ ⟨site, depth⟩, (runs _).mp hr]
  · have idle := (fits _ _ hf).resolve_right fun k => hr ((runs _).mpr k)
    refine ⟨idle, (Cell.resetStarted_apply ..).trans ?_⟩
    rw [S.get_eq _ ⟨site, depth⟩, idle]

/-- The nodes that count the runs of their child. -/
theorem resets_iteration {tick : Run ρ μ σ Status} (hn : S.sys.nodeAt site = some node) (one : node.children = [child])
    (plain : ∀ hooks child, node ≠ .scope hooks child) (spec : S.Resets deep (0 :: site) b)
    (runs : ∀ slot, node.Runs (σ := σ) slot 0 ↔ ∃ count, slot = .iterations count true) :
    S.Resets deep site ⟨tick, (S.stage.cell site).resetIteration b⟩ := by
  refine resets_one hn one plain spec (fun m depth fire hr => ?_) fun m depth fire hr _ => .inl ?_
  all_goals
    refine (Cell.resetIteration_apply ..).trans ?_
    rw [S.get_eq _ ⟨site, depth⟩]
    rw [runs] at hr
  · obtain ⟨count, hr⟩ := hr
    rw [hr]
  · split
    · exact absurd ⟨_, ‹_›⟩ hr
    · rfl

theorem resets_timeout {duration : Duration} (hn : S.sys.nodeAt site = some (.timeout duration child))
    (spec : S.Resets deep (0 :: site) b) : S.Resets deep site (.timeout (S.stage.cell site) duration b) := by
  refine resets_one hn rfl (by simp) spec (fun m depth fire hr => ?_) fun m depth fire hr _ => .inl ?_
  all_goals
    refine (Behaviour.timeout_reset_apply ..).trans ?_
    rw [S.get_eq _ ⟨site, depth⟩]
  · obtain ⟨time, hr⟩ := hr
    rw [hr]
  · split
    · exact absurd ⟨_, ‹_›⟩ hr
    · rfl

theorem resets_delay {duration : Duration} (hn : S.sys.nodeAt site = some (.delay duration child))
    (spec : S.Resets deep (0 :: site) b) : S.Resets deep site (.delay (S.stage.cell site) duration b) := by
  refine resets_one hn rfl (by simp) spec (fun m depth fire hr => ?_) fun m depth fire hr _ => .inl ?_
  all_goals
    refine (Behaviour.delay_reset_apply ..).trans ?_
    rw [S.get_eq _ ⟨site, depth⟩]
  · rw [show (S.store m).slot ⟨site, depth⟩ = .released from hr]
  · split
    · exact absurd ‹_› hr
    · rfl

theorem resets_localScope (hn : S.sys.nodeAt site = some (.localScope child)) (spec : S.Resets deep (0 :: site) b) :
    S.Resets deep site (.localScope (S.stage.cell site) b) := by
  refine resets_one hn rfl (by simp) spec (fun m depth fire hr => ?_) fun m depth fire hr _ => .inl ?_
  all_goals
    refine (Behaviour.localScope_reset_apply ..).trans ?_
    rw [S.get_eq _ ⟨site, depth⟩]
  · obtain ⟨board, hr⟩ := hr
    rw [hr]
  · split
    · exact absurd ⟨_, ‹_›⟩ hr
    · rfl

/-- Once all that is inside a scope is listed, the scope itself is the last. -/
theorem Leaving.lists_scope {p : Place} {fire : Bool} {base m : Machine ρ μ σ} {todo : Place → Prop} {l : List Place}
    {s : Store σ} (L : S.Leaving p fire base m todo l) (done : ∀ c, S.sys.Child p c → ¬ todo c)
    (same : ∀ c, S.sys.Child p c → ∀ q, S.sys.Below c q → (S.store base).slot q = s.slot q)
    (unfinished : S.sys.Unfinished s p) : S.sys.Lists (S.Counts m.runs) s p (l ++ [p]) := by
  constructor
  case only =>
    intro q hq
    rcases List.mem_append.mp hq with hq | hq
    · obtain ⟨c, hc, -, below, hu⟩ := L.only q hq
      exact ⟨hc.below.trans below, hu.congr (same c hc q below).symm⟩
    · obtain rfl := List.mem_singleton.mp hq
      exact ⟨.refl, unfinished⟩
  case all =>
    intro q hq hu counts
    rcases hq.eq_or_child with rfl | ⟨c, hc, below⟩
    · exact List.mem_append_right _ (List.mem_singleton_self _)
    · exact List.mem_append_left _ (L.all c q hc (done c hc) below (hu.congr (same c hc q below)) counts)
  case nodup =>
    refine List.nodup_append.mpr ⟨L.nodup, by simp, fun q hq r hr he => ?_⟩
    obtain ⟨c, hc, -, hq, -⟩ := L.only q hq
    obtain rfl : r = p := by simpa using hr
    exact hc.not_below (he ▸ hq)
  case inner_first =>
    refine List.pairwise_append.mpr ⟨L.inner_first, by simp, fun q hq r hr hqr => ?_⟩
    obtain ⟨c, hc, -, hq, -⟩ := L.only q hq
    obtain rfl : r = p := by simpa using hr
    exact hc.not_below (hq.trans hqr)

/-- A scope is told after what is inside it. -/
theorem resets_scope {host : Host ρ μ σ} {hooks : Hooks μ σ} (hn : S.sys.nodeAt site = some (.scope hooks child))
    (spec : S.Resets deep (0 :: site) b) : S.Resets deep site (.scope (S.stage.cell site) host hooks b) := by
  intro m depth fire bounded tidy sound hd
  have hc : S.sys.Child ⟨site, depth⟩ (Place.inside ⟨site, depth⟩ 0) := .inside hn (by simp [Node.children])
  have only : ∀ x, S.sys.Child ⟨site, depth⟩ x → x = Place.inside ⟨site, depth⟩ 0 := fun x hx => hx.only hn rfl
  have own := S.store_reset m ⟨site, depth⟩
  have fits := (sound _ .refl).fits _ hn
  simp only [Node.Fits] at fits
  rcases fits with idle | started
  · refine ⟨m, (Behaviour.scope_reset_apply ..).trans ?_, .nothing sound ?_⟩
    · rw [S.get_eq _ ⟨site, depth⟩, idle]
    · refine vacant_of_children (fun _ => idle) fun x hx => (sound _ .refl).rest x hx fun k => ?_
      obtain rfl := only x hx
      have := k.runs hn
      simp [Node.Runs, idle] at this
  · have recorded : S.sys.Records (S.store m) ⟨site, depth⟩ (Place.inside ⟨site, depth⟩ 0) := .inside hn started
    obtain ⟨m₁, l, ok, L⟩ := (Leaving.take fire bounded tidy sound).reset hc recorded spec
      (by rw [own]; exact hd)
    have quiet := Still.of_memory (S := S) m₁ (if fire then hooks.onExit .running m₁.memory else m₁.memory)
    have done : ∀ x, S.sys.Child ⟨site, depth⟩ x →
        ¬ (S.sys.Records (S.store m) ⟨site, depth⟩ x ∧ x ≠ Place.inside ⟨site, depth⟩ 0) :=
      fun x hx k => k.2 (only x hx)
    have elsewhere : ∀ x, S.sys.Child ⟨site, depth⟩ x → ∀ q, S.sys.Below x q →
        (S.store (m.onRuns ((S.stage.cell site).reset · depth))).slot q = (S.store m).slot q := by
      intro x hx q hq
      rw [own, Store.slot_reset, if_neg]
      intro same
      subst same
      exact hx.not_below hq
    have lists := L.lists_scope done elsewhere ⟨⟨hooks, child, hn⟩, started⟩
    refine ⟨m₁.withMemory (if fire then hooks.onExit .running m₁.memory else m₁.memory), ?_, ?_⟩
    · refine (Behaviour.scope_reset_apply ..).trans ?_
      rw [S.get_eq _ ⟨site, depth⟩, started]
      refine (Run.bind_ok ok).trans ?_
      cases fire <;> rfl
    · refine ⟨((S.moves_reset m ⟨site, depth⟩).trans L.moves).trans (quiet.moves _), L.context, ?_,
        (L.all_sound done).congr quiet.fewer fun q _ => quiet.slots q,
        (L.all_vacant done).congr quiet.fewer fun q _ => quiet.slots q, _, lists, ?_⟩
      · rw [quiet.height, L.height, own, Store.height_reset]
      · rw [Machine.withMemory_memory, L.memory]
        cases fire
        · rfl
        · simp [System.abandonAll, System.onAbandon, hn]

/-- The behaviours of a node's children, each with resets that empty what is below it. -/
def ResetsAll (S : Setting ρ μ σ) (deep : (height depth : Nat) → Prop) (site : Address) (bs : List (Behaviour ρ μ σ)) :
    Prop := ∀ i b, bs[i]? = some b → S.Resets deep (i :: site) b

/-- The nodes that run one of their children at a time. -/
theorem resets_child {tick : Run ρ μ σ Status} (hn : S.sys.nodeAt site = some node)
    (calls : ∀ source makeState, node ≠ .call source makeState) (plain : ∀ hooks child, node ≠ .scope hooks child)
    (count : bs.length = node.children.length) (specs : S.ResetsAll deep site bs)
    (runs : ∀ slot i, node.Runs (σ := σ) slot i ↔ slot = .child i)
    (fits : ∀ slot admits, node.Fits (σ := σ) slot admits →
      slot = .idle ∨ ∃ i, slot = .child i ∧ i < node.children.length) :
    S.Resets deep site ⟨tick, (S.stage.cell site).resetChild bs⟩ := by
  intro m depth fire bounded tidy sound hd
  have plain : ¬ S.sys.Unfinished (S.store m) ⟨site, depth⟩ := System.not_unfinished hn plain
  have recorded : ∀ x, S.sys.Child ⟨site, depth⟩ x → S.sys.Records (S.store m) ⟨site, depth⟩ x →
      ∃ i, x = Place.inside ⟨site, depth⟩ i ∧ (S.store m).slot ⟨site, depth⟩ = .child i := by
    intro x hx hr
    obtain ⟨i, -, rfl⟩ := hx.of_node hn calls
    exact ⟨i, rfl, (runs _ _).mp (hr.runs hn)⟩
  by_cases running : ∃ i, (S.store m).slot ⟨site, depth⟩ = .child i
  · obtain ⟨i, hi⟩ := running
    have bound : i < node.children.length := by
      rcases fits _ _ ((sound _ .refl).fits node hn) with idle | ⟨j, hj, bound⟩
      · cases hi.symm.trans idle
      · cases hi.symm.trans hj
        exact bound
    obtain ⟨b, hb⟩ : ∃ b, bs[i]? = some b := ⟨_, List.getElem?_eq_getElem (count ▸ bound)⟩
    have only : ∀ x, S.sys.Child ⟨site, depth⟩ x → S.sys.Records (S.store m) ⟨site, depth⟩ x →
        x = Place.inside ⟨site, depth⟩ i := by
      intro x hx hr
      obtain ⟨j, rfl, hj⟩ := recorded x hx hr
      cases hi.symm.trans hj
      rfl
    obtain ⟨m', ok, h⟩ := Abandoned.taken_one fire bounded tidy sound (.inside hn bound)
      (.inside hn ((runs _ _).mpr hi)) only plain (specs i b hb) hd
    refine ⟨m', (Cell.resetChild_apply ..).trans ?_, h⟩
    rw [S.get_eq _ ⟨site, depth⟩, hi]
    simp only [hb]
    exact ok
  · refine ⟨_, (Cell.resetChild_apply ..).trans ?_,
      .taken (p := ⟨site, depth⟩) bounded tidy sound (fun x hx hr => ?_) plain⟩
    · rw [S.get_eq _ ⟨site, depth⟩]
      split
      · exact absurd ⟨_, ‹_›⟩ running
      · rfl
    · obtain ⟨i, -, hi⟩ := recorded x hx hr
      exact running ⟨i, hi⟩

/-- Abandoning the running ones among tracked children, the first of which is child number `k`. -/
theorem Leaving.abort {p : Place} {fire : Bool} {base : Machine ρ μ σ} (deep : (height depth : Nat) → Prop)
    (tracked : List (Behaviour.Tracked ρ μ σ))
    {m : Machine ρ μ σ} {todo : Place → Prop} {l : List Place} (k : Nat) (L : S.Leaving p fire base m todo l)
    (hd : deep (S.store base).height p.depth)
    (child : ∀ j, j < tracked.length → S.sys.Child p (p.inside (k + j)))
    (specs : ∀ j b, tracked[j]? = some b → S.Resets deep ((k + j) :: p.site) b.1)
    (todos : ∀ c, S.sys.Child p c → (todo c ↔ ∃ j, c = p.inside (k + j) ∧ tracked[j]?.map (·.2) = some .running)) :
    ∃ m' l', Behaviour.abort p.depth fire tracked m = .ok () m' ∧ S.Leaving p fire base m' (fun _ => False) l' := by
  induction tracked generalizing m todo l k with
  | nil =>
    refine ⟨m, l, rfl, L.todo_congr fun c hc => ?_⟩
    rw [todos c hc]
    simp
  | cons first rest ih =>
    obtain ⟨b, state⟩ := first
    have later : ∀ j, j < rest.length → S.sys.Child p (p.inside (k + 1 + j)) := by
      intro j hj
      have := child (j + 1) (by simpa using hj)
      rwa [← Nat.add_assoc, Nat.add_right_comm] at this
    have laterSpecs : ∀ j b, rest[j]? = some b → S.Resets deep ((k + 1 + j) :: p.site) b.1 := by
      intro j b hb
      have := specs (j + 1) b (by simpa using hb)
      rwa [← Nat.add_assoc, Nat.add_right_comm] at this
    have shift : ∀ {c}, (∃ j, c = p.inside (k + (j + 1)) ∧ ((b, state) :: rest)[j + 1]?.map (·.2) = some .running) ↔
        ∃ j, c = p.inside (k + 1 + j) ∧ rest[j]?.map (·.2) = some .running := by
      intro c
      refine exists_congr fun j => ?_
      rw [← Nat.add_assoc, Nat.add_right_comm, List.getElem?_cons_succ]
    have here : S.sys.Child p (p.inside k) := child 0 (by simp)
    by_cases running : state = .running
    · subst running
      obtain ⟨m₁, l₁, ok, L₁⟩ := L.reset here ((todos _ here).mpr ⟨0, rfl, rfl⟩) (specs 0 _ rfl) hd
      obtain ⟨m', l', ok', L'⟩ := ih (k + 1) L₁ later laterSpecs fun c hc => by
        rw [todos c hc, ← shift]
        constructor
        · intro found
          obtain ⟨⟨_ | j, rfl, hj⟩, hne⟩ := found
          · exact absurd rfl hne
          · exact ⟨j, rfl, hj⟩
        · intro found
          obtain ⟨j, rfl, hj⟩ := found
          refine ⟨⟨j + 1, rfl, hj⟩, fun e => ?_⟩
          have := Place.inside_injective e
          omega
      refine ⟨m', l', ?_, L'⟩
      simp only [Behaviour.abort]
      exact (Run.bind_ok ok).trans ok'
    · obtain ⟨m', l', ok', L'⟩ := ih (k + 1) L later laterSpecs fun c hc => by
        rw [todos c hc, ← shift]
        constructor
        · intro found
          obtain ⟨_ | j, rfl, hj⟩ := found
          · simp only [List.getElem?_cons_zero, Option.map_some, Option.some.injEq] at hj
            exact absurd hj running
          · exact ⟨j, rfl, hj⟩
        · intro found
          obtain ⟨j, rfl, hj⟩ := found
          exact ⟨j + 1, rfl, hj⟩
      refine ⟨m', l', ?_, L'⟩
      cases state with
      | running => exact absurd rfl running
      | _ => simp only [Behaviour.abort]; exact ok'

/-- The nodes that run their children side by side. -/
theorem resets_tracked {tick : Run ρ μ σ Status} (hn : S.sys.nodeAt site = some node)
    (calls : ∀ source makeState, node ≠ .call source makeState) (plain : ∀ hooks child, node ≠ .scope hooks child)
    (count : bs.length = node.children.length) (specs : S.ResetsAll deep site bs)
    (runs : ∀ slot i, node.Runs (σ := σ) slot i ↔ ∃ states, slot = .children states ∧ states[i]? = some .running)
    (fits : ∀ slot admits, node.Fits (σ := σ) slot admits →
      ∀ states, slot = .children states → states.length = node.children.length) :
    S.Resets deep site ⟨tick, Behaviour.resetTracked (S.stage.cell site) bs⟩ := by
  intro m depth fire bounded tidy sound hd
  have plain : ¬ S.sys.Unfinished (S.store m) ⟨site, depth⟩ := System.not_unfinished hn plain
  have own := S.store_reset m ⟨site, depth⟩
  by_cases running : ∃ states, (S.store m).slot ⟨site, depth⟩ = .children states
  · obtain ⟨states, hs⟩ := running
    have length := fits _ _ ((sound _ .refl).fits node hn) states hs
    have size : (bs.zip states).length = node.children.length := by simp [count, length]
    have state : ∀ j : Nat, (bs.zip states)[j]?.map (fun t : Behaviour.Tracked ρ μ σ => t.2) = states[j]? := by
      intro j
      rw [← List.getElem?_map]
      exact congrArg (·[j]?) (List.map_snd_zip (by omega))
    obtain ⟨m', l, ok, L⟩ := (Leaving.take fire bounded tidy sound).abort deep (bs.zip states) 0
      (by rw [own]; exact hd) (fun j hj => by rw [Nat.zero_add]; exact .inside hn (size ▸ hj))
      (fun j b hb => by
        rw [Nat.zero_add]
        exact specs j b.1 (by rw [List.getElem?_zip_eq_some] at hb; exact hb.1))
      (fun c hc => by
        obtain ⟨i, -, rfl⟩ := hc.of_node hn calls
        constructor
        · intro hr
          obtain ⟨states', hs', hi⟩ := (runs _ _).mp (hr.runs hn)
          cases hs.symm.trans hs'
          exact ⟨i, by simp, by rw [state, hi]⟩
        · intro found
          obtain ⟨j, he, hj⟩ := found
          obtain rfl : i = j := by simpa using Place.inside_injective he
          exact .inside hn ((runs _ _).mpr ⟨states, hs, by rw [← state, hj]⟩))
    refine ⟨m', (Behaviour.resetTracked_apply ..).trans ?_, L.finish (fun _ _ => id) plain⟩
    rw [S.get_eq _ ⟨site, depth⟩, hs]
    exact ok
  · refine ⟨_, (Behaviour.resetTracked_apply ..).trans ?_,
      .taken (p := ⟨site, depth⟩) bounded tidy sound (fun x hx hr => ?_) plain⟩
    · rw [S.get_eq _ ⟨site, depth⟩]
      split
      · exact absurd ⟨_, ‹_›⟩ running
      · rfl
    · obtain ⟨i, -, rfl⟩ := hx.of_node hn calls
      obtain ⟨states, hs, -⟩ := (runs _ _).mp (hr.runs hn)
      exact running ⟨states, hs⟩

/-! ## Calls, and all nodes -/

/-- What `deep` allows one call further down, below something that is remembered. -/
def Deeper (deep : (height depth : Nat) → Prop) (height depth : Nat) : Prop :=
  ∃ d, depth = d + 1 ∧ d < height ∧ deep height d

/-- A call hands the reset on to the tree that it was running. -/
theorem resets_call {source : Source μ} {makeState : Option (StateMaker μ σ)} {resolve : Run ρ μ σ (Option TreeId)}
    {callee : TreeId → Callee ρ μ σ} (hn : S.sys.nodeAt site = some (.call source makeState))
    (specs : ∀ tree, S.Resets (Deeper deep) [tree] (callee tree).root) :
    S.Resets deep site (.call (S.stage.cell site) resolve makeState callee) := by
  intro m depth fire bounded tidy sound hd
  have plain : ¬ S.sys.Unfinished (S.store m) ⟨site, depth⟩ := System.not_unfinished hn nofun
  have recorded : ∀ x, S.sys.Records (S.store m) ⟨site, depth⟩ x →
      ∃ tree state, x = Place.callee ⟨site, depth⟩ tree ∧ (S.store m).slot ⟨site, depth⟩ = .call tree state := by
    intro x hr
    cases hr with
    | inside h hi =>
      obtain rfl := Option.some.inj (hn.symm.trans h)
      exact absurd hi id
    | called _ hs => exact ⟨_, _, rfl, hs⟩
  by_cases running : ∃ tree state, (S.store m).slot ⟨site, depth⟩ = .call tree state
  · obtain ⟨tree, state, hs⟩ := running
    have names : source.Names tree := by
      rcases (sound _ .refl).fits _ hn with idle | ⟨tree', state', hs', names, -⟩
      · cases hs.symm.trans idle
      · cases hs.symm.trans hs'
        exact names
    have only : ∀ x, S.sys.Child ⟨site, depth⟩ x → S.sys.Records (S.store m) ⟨site, depth⟩ x →
        x = Place.callee ⟨site, depth⟩ tree := by
      intro x _ hr
      obtain ⟨tree', state', rfl, hs'⟩ := recorded x hr
      cases hs.symm.trans hs'
      rfl
    obtain ⟨m', ok, h⟩ := Abandoned.taken_one fire bounded tidy sound (.called hn names) (.called hn hs)
      only plain (specs tree) ⟨depth, rfl, bounded ⟨site, depth⟩ (by simp [hs]), hd⟩
    refine ⟨m', (Behaviour.call_reset_apply ..).trans ?_, h⟩
    rw [S.get_eq _ ⟨site, depth⟩, hs]
    exact ok
  · refine ⟨_, (Behaviour.call_reset_apply ..).trans ?_,
      .taken (p := ⟨site, depth⟩) bounded tidy sound (fun x _ hr => ?_) plain⟩
    · rw [S.get_eq _ ⟨site, depth⟩]
      split
      · exact absurd ⟨_, _, ‹_›⟩ running
      · rfl
    · obtain ⟨tree, state, -, hs⟩ := recorded x hr
      exact running ⟨tree, state, hs⟩

/-- The resets of a node, in any surroundings whose called trees have such resets. -/
theorem resets_node {links : Links ρ μ σ} (cells : links.cell = S.stage.cell) (watches : links.watch = S.stage.watch)
    (watched : ∀ site b, S.Resets deep site b → S.Resets deep site (S.stage.watch site b))
    (callees : ∀ tree, S.Resets (Deeper deep) [tree] (links.callee tree).root) (node : Node μ σ) :
    ∀ site, S.sys.nodeAt site = some node → S.Resets deep site (node.behaviour links site) := by
  intro site hn
  induction hn using System.nodeAt_upward with
  | step site node hn below =>
  have among : S.ResetsAll deep site (Node.behaviours links site 0 node.children) :=
    Node.forall_behaviours_getElem? below
  rw [Node.behaviour.eq_def, watches]
  refine watched _ _ ?_
  rw [cells]
  cases node
  case action body => exact resets_nothing hn rfl (by simp) (by simp [Node.Fits])
  case custom => exact absurd (S.mild _ _ hn) id
  case earlyReturn => exact resets_nothing hn rfl (by simp) (by simp [Node.Fits])
  case condition | waitUntil | wait | pause => exact resets_leaf hn rfl (by simp)
  case invert child | force child | guard child | repeatUntil child =>
    exact resets_started hn rfl (by simp) (below 0 child rfl) (by simp [Node.Runs]) (by simp [Node.Fits])
  case repeatTimes child | retry child =>
    exact resets_iteration hn rfl (by simp) (below 0 child rfl) (by simp [Node.Runs])
  case timeout child => exact resets_timeout hn (below 0 child rfl)
  case delay child => exact resets_delay hn (below 0 child rfl)
  case scope child => exact resets_scope hn (below 0 child rfl)
  case localScope child => exact resets_localScope hn (below 0 child rfl)
  case sequence | selector | reactiveSequence | reactiveSelector | selectOne =>
    exact resets_child hn (by simp) (by simp) (by simp [Node.children]) among (by simp [Node.Runs])
      (by simp [Node.Fits, Node.children])
  case parallel | join | race =>
    refine resets_tracked hn (by simp) (by simp) (by simp [Node.children]) among (by simp [Node.Runs]) ?_
    intro slot admits fits states' hs
    rcases fits with rfl | ⟨states, rfl, length, -⟩
    · cases hs
    · cases hs
      exact length
  case call => exact resets_call hn callees

/-- The resets of a root. A number that names no tree stands for a root without a slot. -/
theorem resets_rootOf (links : Links ρ μ σ)
    (cells : links.cell = S.stage.cell) (watches : links.watch = S.stage.watch)
    (watched : ∀ site b, S.Resets deep site b → S.Resets deep site (S.stage.watch site b))
    (callees : ∀ tree, S.Resets (Deeper deep) [tree] (links.callee tree).root) (tree : TreeId) :
    S.Resets deep [tree] (S.sys.rootOf links tree) := by
  unfold System.rootOf
  split
  · rename_i t ht
    exact resets_node cells watches watched callees t.root [tree] (S.sys.nodeAt_root ht)
  · rename_i ht
    have none := S.sys.nodeAt_missing ht
    intro m depth fire bounded tidy sound _
    refine ⟨m, rfl, .nothing sound (vacant_of_children (fun _ => (sound _ .refl).bare none) fun x hx => ?_)⟩
    cases hx with
    | inside h _ => cases none.symm.trans h
    | called h _ => cases none.symm.trans h

/-! ## Levels -/

variable (S) in
/-- What the stage does around a node leaves its resets what they are. -/
def KeepsResets : Prop := ∀ deep site b, S.Resets deep site b → S.Resets deep site (S.stage.watch site b)

/-- So many levels are enough for everything that is remembered. -/
def Reaching (levels height depth : Nat) : Prop := height + 1 ≤ depth + levels ∧ 1 ≤ levels

theorem resets_root (watched : S.KeepsResets) (levels : Nat) (tree : TreeId) (tick : Run ρ μ σ Status) :
    S.Resets (Reaching levels) [tree] ⟨tick, S.sys.resetRoot S.stage levels tree⟩ := by
  induction levels generalizing tree tick with
  | zero =>
    intro m depth fire _ _ _ reached
    obtain ⟨-, h⟩ := reached
    omega
  | succ levels ih =>
    refine resets_rootOf (S.sys.resetLinks S.stage (S.sys.resetRoot S.stage levels)) rfl rfl
      (watched _) (fun tree => ?_) tree
    intro m depth fire bounded tidy sound found
    obtain ⟨d, rfl, hd, reach, -⟩ := found
    exact ih tree _ m (d + 1) fire bounded tidy sound ⟨by omega, by omega⟩

/-- The reset of a root, with as many levels as the store is high. -/
theorem resets_at (watched : S.KeepsResets) (deep : (height depth : Nat) → Prop) (tree : TreeId)
    (tick : Run ρ μ σ Status) : S.Resets deep [tree] ⟨tick, S.sys.resetAt S.stage tree⟩ := by
  intro m depth fire bounded tidy sound _
  exact resets_root watched ((S.store m).height - depth + 1) tree tick m depth fire bounded tidy sound
    ⟨by omega, by omega⟩

end Setting

end BehaviorTree
