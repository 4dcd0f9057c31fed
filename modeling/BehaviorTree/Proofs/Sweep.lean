/-
  BehaviorTree.Proofs.Sweep: what a reset comes to, in whatever state it finds the trees.

  A reset goes from a place to the children recorded there, and to those recorded at them
  (`Leads`), whatever else is remembered. It forgets on its way, so that it passes each
  place once. What it passed leads nowhere any more, and nothing else is touched (`Swept`).
  All it needs is that the records can be followed (`Followable`): a recorded child is
  there, and the height of the store is above all calls.
-/

import BehaviorTree.Proofs.History
import BehaviorTree.Proofs.Passage
import BehaviorTree.Proofs.Resets
import BehaviorTree.Proofs.Unwinding

namespace BehaviorTree

variable {μ σ : Type}

/-- The run at a place is abandoned. -/
def Moment.Abandons (p : Place) : Moment μ σ → Prop
  | abandoned site depth _ _ => ⟨site, depth⟩ = p
  | _ => False

/-- A moment that is written down leaves the cells alone. -/
theorem Recorded.get_add (x : Moment μ σ) (m : Machine (Recorded μ σ) μ σ) (site : Address) (depth : Nat) :
    (Stage.recording.cell site).get (add x m).runs depth = m.runs.store.slot ⟨site, depth⟩ := rfl

namespace System

variable (sys : System μ σ) (s : Store σ)

/-- A child that is recorded is there, and the height is above all that is remembered. -/
structure Followable : Prop where
  bounded : s.Bounded
  inside : ∀ p node i, sys.nodeAt p.site = some node → s.slot p = .child i → i < node.children.length

/-- From one place to another by what the nodes record. -/
def Leads : Place → Place → Prop := Relation.ReflTransGen (sys.Records s)

/-- The place leads nowhere, and a condition there has no answer. -/
structure Cleared (p : Place) : Prop where
  ends : ∀ c, ¬ sys.Records s p c
  silent : ¬ sys.Counted p → s.slot p = .idle

/-- A reset at `p` in the middle, with the children in `todo` still to be reset. Slots are forgotten or
kept as they were; a forgotten one was led to, has been told, and what it led to is cleared. -/
structure Swept (p : Place) (todo : Place → Prop) (m m' : Machine (Recorded μ σ) μ σ) : Prop where
  context : m'.context = m.context
  height : m'.runs.store.height = m.runs.store.height
  fades : ∀ q, m'.runs.store.slot q = m.runs.store.slot q ∨ m'.runs.store.slot q = .idle
  history : ∃ xs, m'.runs.history = m.runs.history ++ xs ∧ (∀ x ∈ xs, ∃ q, x.Abandons q) ∧
    ∀ q, m'.runs.store.slot q ≠ m.runs.store.slot q → ∃ x ∈ xs, x.Abandons q
  only : ∀ q, m'.runs.store.slot q ≠ m.runs.store.slot q → sys.Leads m.runs.store p q
  onward : ∀ q c, m'.runs.store.slot q ≠ m.runs.store.slot q → sys.Records m.runs.store q c →
    sys.Cleared m'.runs.store c ∨ q = p ∧ todo c
  here : sys.Cleared m'.runs.store p

/-- The resets of the node at an address succeed and sweep, at the depths and heights of the store that
`deep` allows. The node has noted already that its run is abandoned. -/
def Sweeps (deep : (height depth : Nat) → Prop) (site : Address) (b : Behaviour (Recorded μ σ) μ σ) : Prop :=
  ∀ m depth fire, sys.Followable m.runs.store → deep m.runs.store.height depth →
    ∃ m', b.reset depth fire (Recorded.add (.abandoned site depth fire (Recorded.scene m)) m) = .ok () m' ∧
      sys.Swept ⟨site, depth⟩ (fun _ => False) m m'

/-- The same for the root of a tree, with what happens around it. -/
def SweepsRoot (deep : (height depth : Nat) → Prop) (tree : TreeId) (b : Behaviour (Recorded μ σ) μ σ) : Prop :=
  ∀ m depth fire, sys.Followable m.runs.store → deep m.runs.store.height depth →
    ∃ m', b.reset depth fire m = .ok () m' ∧ sys.Swept ⟨[tree], depth⟩ (fun _ => False) m m'

variable {sys s} {s' : Store σ} {p q c : Place} {todo todo' : Place → Prop} {m m₁ m' : Machine (Recorded μ σ) μ σ}
  {deep : (height depth : Nat) → Prop} {site : Address} {fire : Bool} {depth : Nat}

/-! ## Forgetting leads nowhere -/

theorem records_of_faded (same : s'.slot p = s.slot p ∨ s'.slot p = .idle) (h : sys.Records s' p c) :
    sys.Records s p c ∧ s'.slot p = s.slot p := by
  rcases same with same | idle
  · exact ⟨h.congr same.symm, same⟩
  · cases h with
    | inside hn hr =>
      rw [idle] at hr
      rename_i node i
      cases node <;> simp [Node.Runs] at hr
    | called hn hs => cases idle.symm.trans hs

theorem Leads.of_faded (fades : ∀ q, s'.slot q = s.slot q ∨ s'.slot q = .idle) (h : sys.Leads s' p q) :
    sys.Leads s p q :=
  Relation.ReflTransGen.mono (fun q _ hr => (records_of_faded (fades q) hr).1) _ _ h

theorem Cleared.of_faded (same : s'.slot p = s.slot p ∨ s'.slot p = .idle) (h : sys.Cleared s p) :
    sys.Cleared s' p where
  ends c k := h.ends c (records_of_faded same k).1
  silent uncounted := same.elim (fun same => same.trans (h.silent uncounted)) id

theorem Cleared.of_idle (idle : s.slot p = .idle) : sys.Cleared s p where
  ends c k := by
    cases k with
    | inside hn hr =>
      rw [idle] at hr
      rename_i node i
      cases node <;> simp [Node.Runs] at hr
    | called hn hs => cases idle.symm.trans hs
  silent _ := idle

/-- Where there is no node nothing is recorded. -/
theorem Cleared.of_none (none : sys.nodeAt p.site = none) : sys.Cleared s p where
  ends c k := by
    cases k with
    | inside hn _ => cases none.symm.trans hn
    | called hn _ => cases none.symm.trans hn
  silent uncounted := absurd (fun holds every h => by cases none.symm.trans h) uncounted

theorem Followable.of_faded (h : sys.Followable s) (fades : ∀ q, s'.slot q = s.slot q ∨ s'.slot q = .idle)
    (height : s'.height = s.height) : sys.Followable s' where
  bounded q hq := by
    rcases fades q with same | idle
    · rw [height]
      exact h.bounded q (same ▸ hq)
    · exact absurd idle hq
  inside q node i hn hs := by
    rcases fades q with same | idle
    · exact h.inside q node i hn (same.symm.trans hs)
    · cases idle.symm.trans hs

/-! ## Going from child to child -/

namespace Swept

theorem followable (h : sys.Swept p todo m m') (k : sys.Followable m.runs.store) : sys.Followable m'.runs.store :=
  k.of_faded h.fades h.height

theorem weaken (h : sys.Swept p todo m m') (k : ∀ c, todo c → todo' c) : sys.Swept p todo' m m' :=
  { h with onward := fun q c changed hr => (h.onward q c changed hr).imp_right (.imp_right (k c)) }

/-- No recorded child is left to be reset. -/
theorem done (h : sys.Swept p todo m m')
    (none : ∀ c, sys.Records m.runs.store p c → todo c → sys.nodeAt c.site = none) :
    sys.Swept p (fun _ => False) m m' where
  context := h.context
  height := h.height
  fades := h.fades
  history := h.history
  only := h.only
  onward q c changed hr := by
    rcases h.onward q c changed hr with cleared | ⟨rfl, ht⟩
    · exact .inl cleared
    · exact .inl (.of_none (none c hr ht))
  here := h.here

/-- Nothing leads on from the place: there is nothing to forget. -/
theorem nothing (h : sys.Cleared m.runs.store ⟨site, depth⟩) :
    sys.Swept ⟨site, depth⟩ todo m (Recorded.add (.abandoned site depth fire (Recorded.scene m)) m) where
  context := rfl
  height := rfl
  fades _ := .inl rfl
  history := ⟨[_], rfl, fun _ hx => ⟨⟨site, depth⟩, List.mem_singleton.mp hx ▸ rfl⟩,
    fun _ changed => absurd rfl changed⟩
  only _ changed := absurd rfl changed
  onward _ _ changed := absurd rfl changed
  here := h

variable (sys) in
/-- The slot of the place is forgotten: the children that it recorded are still to be reset. -/
theorem take (m : Machine (Recorded μ σ) μ σ) (site : Address) (depth : Nat) (fire : Bool) :
    sys.Swept ⟨site, depth⟩ (fun _ => True) m
      ((Recorded.add (.abandoned site depth fire (Recorded.scene m)) m).onRuns
        ((Stage.recording.cell site).reset · depth)) := by
  let p : Place := ⟨site, depth⟩
  have slot : ∀ q, ((Store.cell site).reset m.runs.store depth).slot q = if p = q then .idle else m.runs.store.slot q :=
    m.runs.store.slot_reset p
  have changed : ∀ q, ((Store.cell site).reset m.runs.store depth).slot q ≠ m.runs.store.slot q → q = p := by
    intro q hq
    rw [slot] at hq
    by_cases same : p = q
    · exact same.symm
    · exact absurd (if_neg same) hq
  refine ⟨rfl, m.runs.store.height_reset p, fun q => ?_, ⟨[_], rfl, ?_, ?_⟩, ?_, ?_, .of_idle ?_⟩
  · show ((Store.cell site).reset m.runs.store depth).slot q = _ ∨ _
    by_cases same : q = p
    · subst same
      exact .inr ((slot p).trans (if_pos rfl))
    · exact .inl (not_imp_comm.mp (changed q) same)
  · exact fun x hx => ⟨p, List.mem_singleton.mp hx ▸ rfl⟩
  · exact fun q hq => ⟨_, List.mem_singleton_self _, (changed q hq).symm⟩
  · exact fun q hq => changed q hq ▸ .refl
  · exact fun q c hq _ => .inr ⟨changed q hq, trivial⟩
  · exact (slot p).trans (if_pos rfl)

/-- One more of the recorded children is reset. -/
theorem step (h : sys.Swept p todo m m₁) (recorded : sys.Records m.runs.store p c)
    (k : sys.Swept c (fun _ => False) m₁ m') : sys.Swept p (fun x => todo x ∧ x ≠ c) m m' := by
  -- a slot that differs at the end was forgotten in the first part, or found as it was and forgotten in the second
  have either : ∀ q, m'.runs.store.slot q ≠ m.runs.store.slot q → m₁.runs.store.slot q ≠ m.runs.store.slot q ∨
      m₁.runs.store.slot q = m.runs.store.slot q ∧ m'.runs.store.slot q ≠ m₁.runs.store.slot q := by
    intro q changed
    by_cases same : m₁.runs.store.slot q = m.runs.store.slot q
    · exact .inr ⟨same, fun e => changed (e.trans same)⟩
    · exact .inl same
  constructor
  case context => exact k.context.trans h.context
  case height => exact k.height.trans h.height
  case fades =>
    intro q
    rcases k.fades q with same | idle
    · rw [same]
      exact h.fades q
    · exact .inr idle
  case history =>
    obtain ⟨xs, hx, told, covered⟩ := h.history
    obtain ⟨ys, hy, told', covered'⟩ := k.history
    refine ⟨xs ++ ys, by rw [hy, hx, List.append_assoc], fun x hx => ?_, fun q changed => ?_⟩
    · exact (List.mem_append.mp hx).elim (told x) (told' x)
    · rcases either q changed with first | ⟨-, second⟩
      · obtain ⟨x, hx, h⟩ := covered q first
        exact ⟨x, List.mem_append_left _ hx, h⟩
      · obtain ⟨x, hx, h⟩ := covered' q second
        exact ⟨x, List.mem_append_right _ hx, h⟩
  case only =>
    intro q changed
    rcases either q changed with first | ⟨-, second⟩
    · exact h.only q first
    · exact .head recorded ((k.only q second).of_faded h.fades)
  case onward =>
    intro q x changed hr
    rcases either q changed with first | ⟨same, second⟩
    · rcases h.onward q x first hr with cleared | ⟨rfl, ht⟩
      · exact .inl (cleared.of_faded (k.fades x))
      · by_cases hx : x = c
        · exact .inl (hx ▸ k.here)
        · exact .inr ⟨rfl, ht, hx⟩
    · exact (k.onward q x second (hr.congr same)).imp_right fun e => absurd e.2 id
  case here => exact h.here.of_faded (k.fades p)

/-- All that the place leads to is cleared. -/
theorem cleared (h : sys.Swept p (fun _ => False) m m') (leads : sys.Leads m.runs.store p q) :
    sys.Cleared m'.runs.store q := by
  induction leads with
  | refl => exact h.here
  | @tail r _ _ hr ih =>
    -- a place that is cleared and had a record was forgotten
    have changed : m'.runs.store.slot r ≠ m.runs.store.slot r := fun same => ih.ends _ (hr.congr same)
    exact (h.onward r _ changed hr).resolve_right fun e => e.2

/-- The recorded child is reset, at a place whose slot was forgotten. -/
theorem reset {b : Behaviour (Recorded μ σ) μ σ} (h : sys.Swept p todo m m₁) (followable : sys.Followable m.runs.store)
    (recorded : sys.Records m.runs.store p c) (spec : sys.Sweeps deep c.site b)
    (hd : deep m.runs.store.height c.depth) (fire : Bool) :
    ∃ m', (Stage.recording.watch c.site b).reset c.depth fire m₁ = .ok () m' ∧
      sys.Swept p (fun x => todo x ∧ x ≠ c) m m' := by
  obtain ⟨m', ok, swept⟩ := spec m₁ c.depth fire (h.followable followable) (h.height ▸ hd)
  exact ⟨m', ok, h.step recorded swept⟩

/-- Memory is not looked at. -/
theorem withMemory (h : sys.Swept p todo m m') (x : μ) : sys.Swept p todo m (m'.withMemory x) :=
  ⟨h.context, h.height, h.fades, h.history, h.only, h.onward, h.here⟩

end Swept

/-! ## Each node -/

variable {node child : Node μ σ} {b B : Behaviour (Recorded μ σ) μ σ} {bs : List (Behaviour (Recorded μ σ) μ σ)}

/-- Beyond the last child there is no node. -/
theorem nodeAt_beyond {i : Nat} (hn : sys.nodeAt site = some node) (h : node.children.length ≤ i) :
    sys.nodeAt (i :: site) = none := by
  rw [sys.nodeAt_cons (sys.nodeAt_ne_nil hn), hn]
  exact List.getElem?_eq_none h

/-- A leaf that forgets. -/
theorem sweeps_leaf {tick : Nat → Run (Recorded μ σ) μ σ Status} (hn : sys.nodeAt site = some node)
    (leaf : ∀ slot i, ¬ node.Runs (σ := σ) slot i) (calls : ∀ source makeState, node ≠ .call source makeState) :
    sys.Sweeps deep site ((Stage.recording.cell site).leaf tick) := by
  intro m depth fire _ _
  refine ⟨_, rfl, (Swept.take sys m site depth fire).done fun c hr _ => ?_⟩
  cases hr with
  | inside h hi => exact absurd (Option.some.inj (hn.symm.trans h) ▸ hi) (leaf _ _)
  | called h _ => exact absurd (Option.some.inj (hn.symm.trans h)) (calls _ _)

/-- A node that records nothing, and has nothing to forget. -/
theorem sweeps_nothing {B : Behaviour (Recorded μ σ) μ σ} (hn : sys.nodeAt site = some node)
    (leaf : ∀ slot i, ¬ node.Runs (σ := σ) slot i) (calls : ∀ source makeState, node ≠ .call source makeState)
    (counted : ∀ holds every, node ≠ .condition holds every)
    (reset : ∀ depth fire m, ∃ x, B.reset depth fire m = .ok () (m.withMemory x)) : sys.Sweeps deep site B := by
  intro m depth fire _ _
  obtain ⟨x, ok⟩ := reset depth fire (Recorded.add (.abandoned site depth fire (Recorded.scene m)) m)
  refine ⟨_, ok, (Swept.nothing ⟨fun c hr => ?_, fun k => absurd (fun holds every h => ?_) k⟩).withMemory x⟩
  · cases hr with
    | inside h hi => exact leaf _ _ (Option.some.inj (hn.symm.trans h) ▸ hi)
    | called h _ => exact calls _ _ (Option.some.inj (hn.symm.trans h))
  · exact counted holds every (Option.some.inj (hn.symm.trans h))

/-- A node with one child follows its record. -/
theorem sweeps_one (hn : sys.nodeAt site = some node) (one : node.children = [child])
    (same : ∀ slot i, node.Runs (σ := σ) slot i ↔ node.Runs slot 0) (spec : sys.Sweeps deep (0 :: site) b)
    (running : ∀ m depth fire, node.Runs (m.runs.store.slot ⟨site, depth⟩) 0 → ∃ f : μ → μ, ∀ m',
      (Stage.recording.watch (0 :: site) b).reset depth fire (m.onRuns ((Stage.recording.cell site).reset · depth)) =
        .ok () m' → B.reset depth fire m = .ok () (m'.withMemory (f m'.memory)))
    (otherwise : ∀ m depth fire, ¬ node.Runs (m.runs.store.slot ⟨site, depth⟩) 0 →
      B.reset depth fire m = .ok () (m.onRuns ((Stage.recording.cell site).reset · depth)) ∨
        B.reset depth fire m = .ok () m) : sys.Sweeps deep site B := by
  intro m depth fire followable hd
  have only : ∀ c, sys.Records m.runs.store ⟨site, depth⟩ c →
      node.Runs (m.runs.store.slot ⟨site, depth⟩) 0 ∧
        (c ≠ Place.inside ⟨site, depth⟩ 0 → sys.nodeAt c.site = none) := by
    intro c hr
    cases hr with
    | @inside _ i h hi =>
      obtain rfl := Option.some.inj (hn.symm.trans h)
      refine ⟨(same _ i).mp hi, fun other => ?_⟩
      cases i with
      | zero => exact absurd rfl other
      | succ i => exact nodeAt_beyond hn (by simp [one])
    | called h _ =>
      obtain rfl := Option.some.inj (hn.symm.trans h)
      cases one
  by_cases hr : node.Runs (m.runs.store.slot ⟨site, depth⟩) 0
  · obtain ⟨f, ok⟩ := running (Recorded.add (.abandoned site depth fire (Recorded.scene m)) m) depth fire hr
    obtain ⟨m', reset, swept⟩ := (Swept.take sys m site depth fire).reset followable
      (c := Place.inside ⟨site, depth⟩ 0) (.inside hn hr) spec hd fire
    exact ⟨_, ok m' reset, (swept.done fun c hr k => (only c hr).2 k.2).withMemory _⟩
  · rcases otherwise (Recorded.add (.abandoned site depth fire (Recorded.scene m)) m) depth fire hr with ok | ok
    · exact ⟨_, ok, (Swept.take sys m site depth fire).done fun c k _ => absurd (only c k).1 hr⟩
    · refine ⟨_, ok, .nothing ⟨fun c k => hr (only c k).1, fun k => absurd (fun holds every h => ?_) k⟩⟩
      obtain rfl := Option.some.inj (hn.symm.trans h)
      cases one

/-- The nodes that note whether they left their child running. -/
theorem sweeps_started {tick : Run (Recorded μ σ) μ σ Status} (hn : sys.nodeAt site = some node)
    (one : node.children = [child]) (runs : ∀ slot i, node.Runs (σ := σ) slot i ↔ slot = .started)
    (spec : sys.Sweeps deep (0 :: site) b) :
    sys.Sweeps deep site
      ⟨tick, (Stage.recording.cell site).resetStarted (Stage.recording.watch (0 :: site) b)⟩ := by
  refine sweeps_one hn one (by simp [runs]) spec (fun m depth fire hr => ⟨id, fun m' ok => ?_⟩)
    fun m depth fire hr => .inr ?_
  all_goals
    refine (Cell.resetStarted_apply ..).trans ?_
    rw [runs] at hr
  · rw [show (Stage.recording.cell site).get m.runs depth = .started from hr]
    exact ok
  · split
    · exact absurd ‹_› hr
    · rfl

/-- The nodes that count the runs of their child. -/
theorem sweeps_iteration {tick : Run (Recorded μ σ) μ σ Status} (hn : sys.nodeAt site = some node)
    (one : node.children = [child])
    (runs : ∀ slot i, node.Runs (σ := σ) slot i ↔ ∃ count, slot = .iterations count true)
    (spec : sys.Sweeps deep (0 :: site) b) :
    sys.Sweeps deep site
      ⟨tick, (Stage.recording.cell site).resetIteration (Stage.recording.watch (0 :: site) b)⟩ := by
  refine sweeps_one hn one (by simp [runs]) spec (fun m depth fire hr => ⟨id, fun m' ok => ?_⟩)
    fun m depth fire hr => .inl ?_
  all_goals
    refine (Cell.resetIteration_apply ..).trans ?_
    rw [runs] at hr
  · obtain ⟨count, hr⟩ := hr
    rw [show (Stage.recording.cell site).get m.runs depth = .iterations count true from hr]
    exact ok
  · split
    · exact absurd ⟨_, ‹_›⟩ hr
    · rfl

theorem sweeps_timeout {duration : Duration} (hn : sys.nodeAt site = some (.timeout duration child))
    (spec : sys.Sweeps deep (0 :: site) b) :
    sys.Sweeps deep site
      (.timeout (Stage.recording.cell site) duration (Stage.recording.watch (0 :: site) b)) := by
  refine sweeps_one hn rfl (by simp [Node.Runs]) spec (fun m depth fire hr => ⟨id, fun m' ok => ?_⟩)
    fun m depth fire hr => .inl ?_
  all_goals refine (Behaviour.timeout_reset_apply ..).trans ?_
  · obtain ⟨time, hr⟩ := hr
    rw [show (Stage.recording.cell site).get m.runs depth = .elapsed time from hr]
    exact ok
  · split
    · exact absurd ⟨_, ‹_›⟩ hr
    · rfl

theorem sweeps_delay {duration : Duration} (hn : sys.nodeAt site = some (.delay duration child))
    (spec : sys.Sweeps deep (0 :: site) b) :
    sys.Sweeps deep site (.delay (Stage.recording.cell site) duration (Stage.recording.watch (0 :: site) b)) := by
  refine sweeps_one hn rfl (by simp [Node.Runs]) spec (fun m depth fire hr => ⟨id, fun m' ok => ?_⟩)
    fun m depth fire hr => .inl ?_
  all_goals refine (Behaviour.delay_reset_apply ..).trans ?_
  · rw [show (Stage.recording.cell site).get m.runs depth = .released from hr]
    exact ok
  · split
    · exact absurd ‹_› hr
    · rfl

theorem sweeps_localScope (hn : sys.nodeAt site = some (.localScope child)) (spec : sys.Sweeps deep (0 :: site) b) :
    sys.Sweeps deep site (.localScope (Stage.recording.cell site) (Stage.recording.watch (0 :: site) b)) := by
  refine sweeps_one hn rfl (by simp [Node.Runs]) spec (fun m depth fire hr => ⟨id, fun m' ok => ?_⟩)
    fun m depth fire hr => .inl ?_
  all_goals refine (Behaviour.localScope_reset_apply ..).trans ?_
  · obtain ⟨board, hr⟩ := hr
    rw [show (Stage.recording.cell site).get m.runs depth = .overlay board from hr]
    exact ok
  · split
    · exact absurd ⟨_, ‹_›⟩ hr
    · rfl

/-- A scope is told in the end, which only the memory shows. -/
theorem sweeps_scope {host : Host (Recorded μ σ) μ σ} {hooks : Hooks μ σ}
    (hn : sys.nodeAt site = some (.scope hooks child)) (spec : sys.Sweeps deep (0 :: site) b) :
    sys.Sweeps deep site
      (.scope (Stage.recording.cell site) host hooks (Stage.recording.watch (0 :: site) b)) := by
  refine sweeps_one hn rfl (by simp [Node.Runs]) spec
    (fun m depth fire hr => ⟨if fire then hooks.onExit .running else id, fun m' ok => ?_⟩)
    fun m depth fire hr => .inr ?_
  all_goals refine (Behaviour.scope_reset_apply ..).trans ?_
  · rw [show (Stage.recording.cell site).get m.runs depth = .started from hr]
    refine (Run.bind_ok ok).trans ?_
    cases fire <;> rfl
  · split
    · exact absurd ‹_› hr
    · rfl

/-- The behaviours of a node's children: what happens around the children, and resets that sweep. -/
def SweepsAll (sys : System μ σ) (deep : (height depth : Nat) → Prop) (site : Address)
    (bs : List (Behaviour (Recorded μ σ) μ σ)) : Prop :=
  ∀ i b, bs[i]? = some b → ∃ inner, b = Stage.recording.watch (i :: site) inner ∧ sys.Sweeps deep (i :: site) inner

/-- The nodes that run one of their children at a time. -/
theorem sweeps_child {tick : Run (Recorded μ σ) μ σ Status} (hn : sys.nodeAt site = some node)
    (calls : ∀ source makeState, node ≠ .call source makeState) (count : bs.length = node.children.length)
    (runs : ∀ slot i, node.Runs (σ := σ) slot i ↔ slot = .child i) (specs : sys.SweepsAll deep site bs) :
    sys.Sweeps deep site ⟨tick, (Stage.recording.cell site).resetChild bs⟩ := by
  intro m depth fire followable hd
  have only : ∀ c, sys.Records m.runs.store ⟨site, depth⟩ c →
      ∃ i, c = Place.inside ⟨site, depth⟩ i ∧ m.runs.store.slot ⟨site, depth⟩ = .child i := by
    intro c hr
    cases hr with
    | @inside _ i h hi =>
      obtain rfl := Option.some.inj (hn.symm.trans h)
      exact ⟨i, rfl, (runs _ _).mp hi⟩
    | called h _ => exact absurd (Option.some.inj (hn.symm.trans h)) (calls _ _)
  by_cases running : ∃ i, m.runs.store.slot ⟨site, depth⟩ = .child i
  · obtain ⟨i, hi⟩ := running
    obtain ⟨b, hb⟩ : ∃ b, bs[i]? = some b :=
      ⟨_, List.getElem?_eq_getElem (count ▸ followable.inside ⟨site, depth⟩ node i hn hi)⟩
    obtain ⟨inner, rfl, spec⟩ := specs i b hb
    obtain ⟨m', ok, swept⟩ := (Swept.take sys m site depth fire).reset followable (c := Place.inside ⟨site, depth⟩ i)
      (.inside hn ((runs _ _).mpr hi)) spec hd fire
    refine ⟨m', (Cell.resetChild_apply ..).trans ?_, swept.done fun c hr k => ?_⟩
    · rw [Recorded.get_add, hi]
      simp only [hb]
      exact ok
    · obtain ⟨j, rfl, hj⟩ := only c hr
      cases hi.symm.trans hj
      exact absurd rfl k.2
  · refine ⟨_, (Cell.resetChild_apply ..).trans ?_, (Swept.take sys m site depth fire).done fun c hr _ => ?_⟩
    · split
      · exact absurd ⟨_, ‹_›⟩ running
      · rfl
    · obtain ⟨i, -, hi⟩ := only c hr
      exact absurd ⟨i, hi⟩ running

/-- Abandoning the running ones among tracked children, the first of which is child number `k`. -/
theorem Swept.abort (tracked : List (Behaviour.Tracked (Recorded μ σ) μ σ)) (k : Nat)
    (h : sys.Swept p todo m m₁) (followable : sys.Followable m.runs.store) (hd : deep m.runs.store.height p.depth)
    (recorded : ∀ j, tracked[j]?.map (·.2) = some .running → sys.Records m.runs.store p (p.inside (k + j)))
    (specs : ∀ j t, tracked[j]? = some t →
      ∃ inner, t.1 = Stage.recording.watch ((k + j) :: p.site) inner ∧ sys.Sweeps deep ((k + j) :: p.site) inner)
    (fire : Bool) : ∃ m', Behaviour.abort p.depth fire tracked m₁ = .ok () m' ∧
      sys.Swept p (fun c => todo c ∧ ∀ j, tracked[j]?.map (·.2) = some .running → c ≠ p.inside (k + j)) m m' := by
  induction tracked generalizing m₁ todo k with
  | nil => exact ⟨m₁, rfl, h.weaken fun c hc => ⟨hc, fun j hj => by simp at hj⟩⟩
  | cons first rest ih =>
    obtain ⟨b, state⟩ := first
    have shift : ∀ j, k + 1 + j = k + (j + 1) := fun j => by omega
    have later : ∀ j, rest[j]?.map (·.2) = some .running → sys.Records m.runs.store p (p.inside (k + 1 + j)) :=
      fun j hj => shift j ▸ recorded (j + 1) hj
    have laterSpecs : ∀ j t, rest[j]? = some t → ∃ inner, t.1 = Stage.recording.watch ((k + 1 + j) :: p.site) inner ∧
        sys.Sweeps deep ((k + 1 + j) :: p.site) inner := fun j t ht => shift j ▸ specs (j + 1) t ht
    by_cases running : state = .running
    · subst running
      obtain ⟨inner, rfl, spec⟩ := specs 0 _ rfl
      obtain ⟨m₂, ok, h₂⟩ := h.reset followable (recorded 0 rfl) spec hd fire
      obtain ⟨m', ok', h'⟩ := ih (k + 1) h₂ later laterSpecs
      refine ⟨m', ?_, h'.weaken fun c hc => ⟨hc.1.1, fun j hj => ?_⟩⟩
      · simp only [Behaviour.abort]
        exact (Run.bind_ok ok).trans ok'
      · cases j with
        | zero => exact hc.1.2
        | succ j => exact shift j ▸ hc.2 j hj
    · obtain ⟨m', ok', h'⟩ := ih (k + 1) h later laterSpecs
      refine ⟨m', ?_, h'.weaken fun c hc => ⟨hc.1, fun j hj => ?_⟩⟩
      · cases state with
        | running => exact absurd rfl running
        | _ => simp only [Behaviour.abort]; exact ok'
      · cases j with
        | zero => exact absurd (by simpa using hj) running
        | succ j => exact shift j ▸ hc.2 j hj

/-- The nodes that run their children side by side. -/
theorem sweeps_tracked {tick : Run (Recorded μ σ) μ σ Status} (hn : sys.nodeAt site = some node)
    (calls : ∀ source makeState, node ≠ .call source makeState) (count : bs.length = node.children.length)
    (runs : ∀ slot i, node.Runs (σ := σ) slot i ↔ ∃ states, slot = .children states ∧ states[i]? = some .running)
    (specs : sys.SweepsAll deep site bs) :
    sys.Sweeps deep site ⟨tick, Behaviour.resetTracked (Stage.recording.cell site) bs⟩ := by
  intro m depth fire followable hd
  have only : ∀ c, sys.Records m.runs.store ⟨site, depth⟩ c → ∃ i states, c = Place.inside ⟨site, depth⟩ i ∧
      m.runs.store.slot ⟨site, depth⟩ = .children states ∧ states[i]? = some .running := by
    intro c hr
    cases hr with
    | @inside _ i h hi =>
      obtain rfl := Option.some.inj (hn.symm.trans h)
      obtain ⟨states, hs, hi⟩ := (runs _ _).mp hi
      exact ⟨i, states, rfl, hs, hi⟩
    | called h _ => exact absurd (Option.some.inj (hn.symm.trans h)) (calls _ _)
  by_cases running : ∃ states, m.runs.store.slot ⟨site, depth⟩ = .children states
  · obtain ⟨states, hs⟩ := running
    have zipped : ∀ j : Nat, (bs.zip states)[j]?.map (·.2) = some .running → states[j]? = some .running := by
      intro j hj
      obtain ⟨⟨b, state⟩, ht, rfl⟩ := Option.map_eq_some_iff.mp hj
      exact (List.getElem?_zip_eq_some.mp ht).2
    obtain ⟨m', ok, swept⟩ := Swept.abort (p := ⟨site, depth⟩) (bs.zip states) 0 (Swept.take sys m site depth fire)
      followable hd (fun j hj => .inside hn ((runs _ _).mpr ⟨states, hs, by rw [Nat.zero_add]; exact zipped j hj⟩))
      (fun j t ht => by rw [Nat.zero_add]; exact specs j t.1 (List.getElem?_zip_eq_some.mp ht).1) fire
    refine ⟨m', (Behaviour.resetTracked_apply ..).trans ?_, swept.done fun c hr k => ?_⟩
    · rw [Recorded.get_add, hs]
      exact ok
    · -- what is recorded and was not reset lies beyond the children
      obtain ⟨i, states', rfl, hs', hi⟩ := only c hr
      cases hs.symm.trans hs'
      refine nodeAt_beyond hn (Nat.le_of_not_lt fun room => k.2 i ?_ (by rw [Nat.zero_add]))
      rw [← count] at room
      rw [(List.getElem?_zip_eq_some (z := (bs[i], .running))).mpr ⟨List.getElem?_eq_getElem room, hi⟩]
      rfl
  · refine ⟨_, (Behaviour.resetTracked_apply ..).trans ?_, (Swept.take sys m site depth fire).done fun c hr _ => ?_⟩
    · split
      · exact absurd ⟨_, ‹_›⟩ running
      · rfl
    · obtain ⟨_, states, -, hs, -⟩ := only c hr
      exact absurd ⟨states, hs⟩ running

/-- A call hands the reset on to the tree that it was running. -/
theorem sweeps_call {source : Source μ} {makeState : Option (StateMaker μ σ)}
    {resolve : Run (Recorded μ σ) μ σ (Option TreeId)} {callee : TreeId → Callee (Recorded μ σ) μ σ}
    (hn : sys.nodeAt site = some (.call source makeState))
    (specs : ∀ tree, sys.SweepsRoot (Setting.Deeper deep) tree (callee tree).root) :
    sys.Sweeps deep site (.call (Stage.recording.cell site) resolve makeState callee) := by
  intro m depth fire followable hd
  have only : ∀ c, sys.Records m.runs.store ⟨site, depth⟩ c → ∃ tree state, c = Place.callee ⟨site, depth⟩ tree ∧
      m.runs.store.slot ⟨site, depth⟩ = .call tree state := by
    intro c hr
    cases hr with
    | inside h hi =>
      obtain rfl := Option.some.inj (hn.symm.trans h)
      exact absurd hi id
    | called _ hs => exact ⟨_, _, rfl, hs⟩
  by_cases running : ∃ tree state, m.runs.store.slot ⟨site, depth⟩ = .call tree state
  · obtain ⟨tree, state, hs⟩ := running
    have took := Swept.take sys m site depth fire
    obtain ⟨m', ok, swept⟩ := specs tree _ (depth + 1) fire (took.followable followable)
      ⟨depth, rfl, followable.bounded ⟨site, depth⟩ (by simp [hs]), hd⟩
    refine ⟨m', (Behaviour.call_reset_apply ..).trans ?_, ?_⟩
    · rw [Recorded.get_add, hs]
      exact ok
    · refine (took.step (c := Place.callee ⟨site, depth⟩ tree) (.called hn hs) swept).done fun c hr k => ?_
      obtain ⟨tree', state', rfl, hs'⟩ := only c hr
      cases hs.symm.trans hs'
      exact absurd rfl k.2
  · refine ⟨_, (Behaviour.call_reset_apply ..).trans ?_, (Swept.take sys m site depth fire).done fun c hr _ => ?_⟩
    · split
      · exact absurd ⟨_, _, ‹_›⟩ running
      · rfl
    · obtain ⟨tree, state, -, hs⟩ := only c hr
      exact absurd ⟨tree, state, hs⟩ running

/-! ## All nodes, and whole trees -/

/-- The resets of a node, in any surroundings whose called trees have such resets. -/
theorem sweeps_node {links : Links (Recorded μ σ) μ σ} (cells : links.cell = Stage.recording.cell)
    (watches : links.watch = Stage.recording.watch)
    (callees : ∀ tree, sys.SweepsRoot (Setting.Deeper deep) tree (links.callee tree).root) (node : Node μ σ) :
    ∀ site, sys.nodeAt site = some node →
      ∃ inner, node.behaviour links site = Stage.recording.watch site inner ∧ sys.Sweeps deep site inner := by
  intro site hn
  induction hn using nodeAt_upward with
  | step site node hn below =>
  have among : sys.SweepsAll deep site (Node.behaviours links site 0 node.children) :=
    Node.forall_behaviours_getElem? below
  have count : (Node.behaviours links site 0 node.children).length = node.children.length :=
    Node.behaviours_length ..
  rw [Node.behaviour.eq_def, watches, cells]
  refine ⟨_, rfl, ?_⟩
  cases node
  case action | earlyReturn =>
    exact sweeps_nothing hn (by simp [Node.Runs]) (by simp) (by simp) fun _ _ m => ⟨m.memory, rfl⟩
  case custom => exact sweeps_nothing hn (by simp [Node.Runs]) (by simp) (by simp) fun _ _ m => ⟨_, rfl⟩
  case condition | waitUntil | wait | pause => exact sweeps_leaf hn (by simp [Node.Runs]) (by simp)
  case invert child | force child | guard child | repeatUntil child =>
    obtain ⟨inner, same, spec⟩ := below 0 child rfl
    dsimp only
    rw [same]
    exact sweeps_started hn rfl (by simp [Node.Runs]) spec
  case repeatTimes child | retry child =>
    obtain ⟨inner, same, spec⟩ := below 0 child rfl
    dsimp only
    rw [same]
    exact sweeps_iteration hn rfl (by simp [Node.Runs]) spec
  case timeout child =>
    obtain ⟨inner, same, spec⟩ := below 0 child rfl
    dsimp only
    rw [same]
    exact sweeps_timeout hn spec
  case delay child =>
    obtain ⟨inner, same, spec⟩ := below 0 child rfl
    dsimp only
    rw [same]
    exact sweeps_delay hn spec
  case scope child =>
    obtain ⟨inner, same, spec⟩ := below 0 child rfl
    dsimp only
    rw [same]
    exact sweeps_scope hn spec
  case localScope child =>
    obtain ⟨inner, same, spec⟩ := below 0 child rfl
    dsimp only
    rw [same]
    exact sweeps_localScope hn spec
  case sequence | selector | reactiveSequence | reactiveSelector | selectOne =>
    exact sweeps_child hn (by simp) count (by simp [Node.Runs]) among
  case parallel | join | race => exact sweeps_tracked hn (by simp) count (by simp [Node.Runs]) among
  case call => exact sweeps_call hn callees

/-- The reset of a root. A number that names no tree stands for a root that remembers nothing. -/
theorem sweeps_rootOf (links : Links (Recorded μ σ) μ σ) (cells : links.cell = Stage.recording.cell)
    (watches : links.watch = Stage.recording.watch)
    (callees : ∀ tree, sys.SweepsRoot (Setting.Deeper deep) tree (links.callee tree).root) (tree : TreeId) :
    sys.SweepsRoot deep tree (sys.rootOf links tree) := by
  intro m depth fire followable hd
  unfold System.rootOf
  split
  · rename_i t ht
    obtain ⟨inner, same, spec⟩ := sweeps_node cells watches callees t.root [tree] (sys.nodeAt_root ht)
    rw [same]
    exact spec m depth fire followable hd
  · rename_i ht
    have none := sys.nodeAt_missing ht
    exact ⟨m, rfl, rfl, rfl, fun _ => .inl rfl, ⟨[], by simp⟩, fun _ changed => absurd rfl changed,
      fun _ _ changed => absurd rfl changed, .of_none none⟩

theorem sweeps_resetRoot (levels : Nat) (tree : TreeId) (tick : Run (Recorded μ σ) μ σ Status) :
    sys.SweepsRoot (Setting.Reaching levels) tree ⟨tick, sys.resetRoot .recording levels tree⟩ := by
  induction levels generalizing tree tick with
  | zero =>
    intro m depth fire _ reached
    obtain ⟨-, h⟩ := reached
    omega
  | succ levels ih =>
    refine sweeps_rootOf (sys.resetLinks .recording (sys.resetRoot .recording levels)) rfl rfl
      (fun tree => ?_) tree
    intro m depth fire followable found
    obtain ⟨d, rfl, hd, reach, -⟩ := found
    exact ih tree _ m (d + 1) fire followable ⟨by omega, by omega⟩

/-- The reset of a root, with as many levels as the store is high: it never runs out of them. -/
theorem sweeps_resetAt (tree : TreeId) (tick : Run (Recorded μ σ) μ σ Status) :
    sys.SweepsRoot (fun _ _ => True) tree ⟨tick, sys.resetAt .recording tree⟩ := by
  intro m depth fire followable _
  exact sweeps_resetRoot (m.runs.store.height - depth + 1) tree tick m depth fire followable ⟨by omega, by omega⟩

end System

end BehaviorTree
