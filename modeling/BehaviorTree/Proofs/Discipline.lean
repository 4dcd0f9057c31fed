/-
  BehaviorTree.Proofs.Discipline: a node resets those children that are in a run.

  Every node keeps its own kind of record of which child is in the middle of a run. The record
  is right when it names exactly the children whose last tick at this depth left them running
  and which were not reset since (`Agrees`). It is right whenever a tick or a reset of the node
  begins and ends; in between, the children that are open are known from what was done
  (`AtWork`). Nodes that users define take part, with callbacks that leave the run of the trees
  alone.
-/

import BehaviorTree.Proofs.Guard
import BehaviorTree.Proofs.Residue
import BehaviorTree.Proofs.Spells
import BehaviorTree.Proofs.Tame

namespace BehaviorTree

variable {μ σ : Type}

/-- Callbacks neither ask for an early return nor tick or reset a tree; nodes may be users' own. -/
def Node.Docile : Node μ σ → Prop
  | .action body | .custom body _ => body.Tame
  | .scope hooks _ => hooks.onEnter.Tame
  | _ => True

/-- Every node is docile. -/
def System.Docile (sys : System μ σ) : Prop := ∀ site node, sys.nodeAt site = some node → node.Docile

/-- What the node finds in its slot is of use to it: states for all its children, or the tree of a call that was
admitted. -/
def Node.Finds (slot : Slot σ) (admits : Prop) : Node μ σ → Prop
  | .parallel _ children | .join _ children | .race children =>
    ∀ states, slot = .children states → states.length = children.length
  | .call source _ => ∀ tree state, slot = .call tree state → source.Names tree ∧ admits
  | _ => True

theorem Node.finds_idle (node : Node μ σ) (admits : Prop) : node.Finds .idle admits := by
  cases node <;> simp [Finds]

/-- A machine that writes down what happens. -/
abbrev Witnessed (μ σ : Type) := Machine (Recorded μ σ) μ σ

/-- The slots of the node at an address. -/
abbrev slots (site : Address) : Cell (Recorded μ σ) σ := (Stage.recording : Stage _ μ _).cell site

/-- A docile system with exclusive calls, and its tree that is ticked and reset from outside. -/
structure Regime (μ σ : Type) where
  sys : System μ σ
  exclusive : sys.Exclusive
  docile : sys.Docile
  top : TreeId

namespace Regime

variable (R : Regime μ σ)

/-- The limits of a tick. -/
def limits : Limits := R.sys.limitsOf R.top

/-- Where ticks and resets from outside begin. -/
def root : Place := ⟨[R.top], 0⟩

/-- A moment that may follow: only a node in a run is reset, and a node that was ticked has exactly those
children in a run that its slot records, none if it ended. -/
def Fair (before : List (Moment μ σ)) : Moment μ σ → Prop
  | .entered _ _ => True
  | .left site status scene => ∀ c, R.sys.Child ⟨site, scene.context.depth⟩ c →
    (Open before c ↔ R.sys.Records scene.store ⟨site, scene.context.depth⟩ c) ∧
    (status.isTerminal = true → ¬ Open before c)
  | .abandoned site depth _ _ => ⟨site, depth⟩ ≠ R.root → Open before ⟨site, depth⟩

/-- Every moment was a fair one. -/
def Lawful (history : List (Moment μ σ)) : Prop :=
  ∀ before x after, history = before ++ x :: after → R.Fair before x

/-- What the node at a place remembers agrees with what its children have seen. -/
structure Agrees (m : Witnessed μ σ) (p : Place) : Prop where
  finds : ∀ node, R.sys.nodeAt p.site = some node → node.Finds (m.runs.store.slot p) (R.limits.Admits p.depth)
  opens : ∀ c, R.sys.Child p c → (Open m.runs.history c ↔ R.sys.Records m.runs.store p c)

/-- Besides, no child is in a run unless the node is in one, which takes a node to be there. -/
structure Orderly (m : Witnessed μ σ) (p : Place) : Prop extends R.Agrees m p where
  closed : ¬ Open m.runs.history p → ∀ c, R.sys.Child p c → ¬ Open m.runs.history c
  bare : R.sys.nodeAt p.site = none → ¬ Open m.runs.history p

/-- Orderly at the place and all the way below. -/
def Sound (m : Witnessed μ σ) (p : Place) : Prop := ∀ q, R.sys.Below p q → R.Orderly m q

/-- Sound, but for whether the node itself is in a run. -/
structure Rested (m : Witnessed μ σ) (p : Place) : Prop where
  agrees : R.Agrees m p
  below : ∀ c, R.sys.Child p c → R.Sound m c

/-- Nothing happened at a place. -/
structure Unmoved (m m' : Witnessed μ σ) (q : Place) : Prop where
  slot : m'.runs.store.slot q = m.runs.store.slot q
  opens : Open m'.runs.history q ↔ Open m.runs.history q

/-- Work at a place and below it: nothing happens elsewhere. -/
structure Moves (p : Place) (m m' : Witnessed μ σ) : Prop where
  outside : ∀ q, ¬ R.sys.Below p q → Unmoved m m' q
  depth : m'.context.depth = m.context.depth
  guards : ∀ path, R.sys.Guards R.limits path m.context → R.sys.Guards R.limits path m'.context
  lawful : R.Lawful m.runs.history → R.Lawful m'.runs.history

/-- Nothing happens anywhere, so far as the runs of the nodes are concerned. -/
structure Still (m m' : Witnessed μ σ) : Prop where
  unmoved : ∀ q, Unmoved m m' q
  depth : m'.context.depth = m.context.depth
  guards : ∀ path, R.sys.Guards R.limits path m.context → R.sys.Guards R.limits path m'.context
  lawful : R.Lawful m.runs.history → R.Lawful m'.runs.history
  request : m'.context.returnRequest = m.context.returnRequest ∨ m'.context.returnRequest = none

variable {R} {p q c : Place} {m m₁ m' base : Witnessed μ σ} {history : List (Moment μ σ)} {busy busy' : Place → Prop}
  {slot : Slot σ} {st : Status} {node : Node μ σ}

/-! ## Fair moments -/

theorem lawful_nil : R.Lawful [] := BehaviorTree.Lawful.nil

theorem lawful_add {x : Moment μ σ} (h : R.Lawful history) (fair : R.Fair history x) : R.Lawful (history ++ [x]) :=
  BehaviorTree.Lawful.snoc h fair

/-! ## What is elsewhere does not matter -/

namespace Unmoved

theorem refl (m : Witnessed μ σ) (q : Place) : Unmoved m m q := ⟨rfl, .rfl⟩

theorem trans (h : Unmoved m m₁ q) (k : Unmoved m₁ m' q) : Unmoved m m' q :=
  ⟨k.slot.trans h.slot, k.opens.trans h.opens⟩

theorem of_runs (runs : m'.runs = m.runs) : Unmoved m m' q := ⟨by rw [runs], by rw [runs]⟩

end Unmoved

theorem records_congr (same : Unmoved m m' p) :
    R.sys.Records m'.runs.store p c ↔ R.sys.Records m.runs.store p c :=
  ⟨fun h => h.congr same.slot.symm, fun h => h.congr same.slot⟩

theorem Orderly.congr (h : R.Orderly m p) (same : ∀ q, R.sys.Below p q → Unmoved m m' q) : R.Orderly m' p where
  finds node hn := by
    rw [(same p .refl).slot]
    exact h.finds node hn
  opens c hc := by rw [(same c hc.below).opens, h.opens c hc, records_congr (same p .refl)]
  closed shut c hc := by
    rw [(same p .refl).opens] at shut
    rw [(same c hc.below).opens]
    exact h.closed shut c hc
  bare none := by
    rw [(same p .refl).opens]
    exact h.bare none

theorem Sound.congr (h : R.Sound m p) (same : ∀ q, R.sys.Below p q → Unmoved m m' q) : R.Sound m' p :=
  fun q hq => (h q hq).congr fun r hr => same r (hq.trans hr)

theorem Sound.child (h : R.Sound m p) (hc : R.sys.Child p c) : R.Sound m c := fun q hq => h q (hc.below.trans hq)

theorem Sound.rested (h : R.Sound m p) : R.Rested m p := ⟨(h p .refl).toAgrees, fun _ hc => h.child hc⟩

theorem Rested.sound (h : R.Rested m p)
    (closed : ¬ Open m.runs.history p → ∀ c, R.sys.Child p c → ¬ Open m.runs.history c)
    (bare : R.sys.nodeAt p.site = none → ¬ Open m.runs.history p) : R.Sound m p := by
  intro q hq
  rcases hq.eq_or_child with rfl | ⟨c, hc, hq⟩
  · exact { h.agrees with closed, bare }
  · exact h.below c hc q hq

/-- Only what is seen at the place itself differs. -/
theorem Rested.congr (h : R.Rested m p) (slot : m'.runs.store.slot p = m.runs.store.slot p)
    (same : ∀ q, q ≠ p → Unmoved m m' q) : R.Rested m' p where
  agrees := by
    refine ⟨fun node hn => ?_, fun c hc => ?_⟩
    · rw [slot]
      exact h.agrees.finds node hn
    · rw [(same c fun e => hc.not_below (e ▸ .refl)).opens, h.agrees.opens c hc]
      exact ⟨fun k => k.congr slot, fun k => k.congr slot.symm⟩
  below c hc := (h.below c hc).congr fun q hq => same q fun e => hc.not_below (e ▸ hq)

theorem Rested.still (h : R.Rested m p) (k : R.Still m m') : R.Rested m' p :=
  h.congr (k.unmoved p).slot fun q _ => k.unmoved q

/-! ## Work -/

namespace Still

theorem refl (m : Witnessed μ σ) : R.Still m m := ⟨.refl m, rfl, fun _ => id, id, .inl rfl⟩

theorem calm (h : R.Still m m') (calm : m.context.returnRequest = none) : m'.context.returnRequest = none :=
  h.request.elim (·.trans calm) id

theorem trans (h : R.Still m m₁) (k : R.Still m₁ m') : R.Still m m' where
  unmoved q := (h.unmoved q).trans (k.unmoved q)
  depth := k.depth.trans h.depth
  guards path := k.guards path ∘ h.guards path
  lawful := k.lawful ∘ h.lawful
  request := k.request.elim (fun same => h.request.imp same.trans same.trans) .inr

theorem of_stays (h : m.Stays False m') : R.Still m m' where
  unmoved _ := .of_runs h.runs
  depth := h.depth
  guards _ k := k.congr h.depth h.maxDepth h.stack
  lawful k := h.runs ▸ k
  request := h.request.imp_right (Or.resolve_right · id)

theorem of_alike (h : m.Alike m') : R.Still m m' := .of_stays (.of_alike h)

theorem of_memory (m : Witnessed μ σ) (x : μ) : R.Still m (m.withMemory x) := .of_stays (.withMemory m x)

/-- A change of the store beside the slots. -/
theorem of_store {f : Store σ → Store σ} (slots : ∀ s q, (f s).slot q = s.slot q) :
    R.Still m (m.onRuns (Stage.recording.onStore f)) :=
  ⟨fun q => ⟨slots _ q, .rfl⟩, rfl, fun _ => id, id, .inl rfl⟩

/-- Writing down that a node is entered. -/
theorem entered (site : Address) (m : Witnessed μ σ) : R.Still m (Recorded.add (.entered site (Recorded.scene m)) m) :=
  ⟨fun _ => ⟨rfl, open_entered⟩, rfl, fun _ => id, fun h => lawful_add h trivial, .inl rfl⟩

theorem moves (h : R.Still m m') : R.Moves p m m' := ⟨fun q _ => h.unmoved q, h.depth, h.guards, h.lawful⟩

end Still

namespace Moves

theorem refl (p : Place) (m : Witnessed μ σ) : R.Moves p m m := (Still.refl m).moves

theorem trans (h : R.Moves p m m₁) (k : R.Moves p m₁ m') : R.Moves p m m' where
  outside q hq := (h.outside q hq).trans (k.outside q hq)
  depth := k.depth.trans h.depth
  guards path := k.guards path ∘ h.guards path
  lawful := k.lawful ∘ h.lawful

/-- Work below a place is work at it. -/
theorem up (h : R.Moves c m m') (hc : R.sys.Child p c) : R.Moves p m m' :=
  { h with outside := fun q hq => h.outside q fun k => hq (hc.below.trans k) }

/-- The parent itself is left alone. -/
theorem parent (h : R.Moves c m m') (hc : R.sys.Child p c) : Unmoved m m' p := h.outside p hc.not_below

/-- Work below one child leaves the others alone. -/
theorem sibling (h : R.Moves c m m') (hc : R.sys.Child p c) {c' : Place} (hc' : R.sys.Child p c') (hne : c' ≠ c)
    {q : Place} (hq : R.sys.Below c' q) : Unmoved m m' q :=
  h.outside q (System.siblings_apart R.exclusive hc' hc hne hq)

end Moves

/-! ## How ticks and resets come out -/

/-- With a request to return early pending the tick has ended, and the request is for a terminal status. -/
def Asks (context : Context σ) (st : Status) : Prop :=
  ∀ request, context.returnRequest = some request → st.isTerminal = true ∧ request.isTerminal = true

namespace Asks

variable {context : Context σ} {s : Status}

theorem of_calm (calm : context.returnRequest = none) : Asks context st := fun request h => by simp [calm] at h

theorem ended (h : Asks context st) (pending : context.returnRequest.isSome = true) : st.isTerminal = true := by
  obtain ⟨request, asked⟩ := Option.isSome_iff_exists.mp pending
  exact (h request asked).1

theorem still {m m' : Witnessed μ σ} (h : Asks m.context s) (still : R.Still m m') : Asks m'.context s := by
  rcases still.request with same | none
  · exact fun request asked => h request (same ▸ asked)
  · exact .of_calm none

theorem mono (h : Asks context s)
    (ends : context.returnRequest.isSome = true → s.isTerminal = true → st.isTerminal = true) : Asks context st :=
  fun request asked => ⟨ends (by simp [asked]) (h request asked).1, (h request asked).2⟩

end Asks

variable (R) in
/-- A tick may start at a place. -/
structure Ready (p : Place) (m : Witnessed μ σ) : Prop where
  depth : m.context.depth = p.depth
  guards : ∃ path, R.sys.Guards R.limits path m.context
  calm : m.context.returnRequest = none

theorem Ready.still (h : R.Ready p m) (k : R.Still m m') : R.Ready p m' :=
  ⟨k.depth.trans h.depth, h.guards.imp k.guards, k.calm h.calm⟩

variable (R) in
/-- The work of a node that began at `base` is done: its slot agrees with its children again, and if it is `ended`
none of them is in a run. -/
structure Done (p : Place) (base : Witnessed μ σ) (ended : Prop) (m : Witnessed μ σ) : Prop extends R.Rested m p where
  moves : R.Moves p base m
  own : Open m.runs.history p ↔ Open base.runs.history p
  none : ended → ∀ c, R.sys.Child p c → ¬ Open m.runs.history c

variable (R) in
/-- A tick came out well, as its parent sees it. -/
structure Ticked (p : Place) (m : Witnessed μ σ) (st : Status) (m' : Witnessed μ σ) : Prop where
  moves : R.Moves p m m'
  sound : R.Sound m' p
  opens : Open m'.runs.history p ↔ st = .running
  asks : Asks m'.context st

variable (R) in
/-- A reset came out well, as its parent sees it. -/
structure Gone (p : Place) (m m' : Witnessed μ σ) : Prop where
  moves : R.Moves p m m'
  sound : R.Sound m' p
  closed : ¬ Open m'.runs.history p
  context : m'.context = m.context

variable (R) in
/-- The ticks of a node come out well, apart from what is written down about it. -/
def Ticks (site : Address) (b : Behaviour (Recorded μ σ) μ σ) : Prop :=
  ∀ d m st m', R.Ready ⟨site, d⟩ m → R.Rested m ⟨site, d⟩ → b.tick m = .ok st m' →
    R.Done ⟨site, d⟩ m (st.isTerminal = true) m' ∧ Asks m'.context st

variable (R) in
/-- The resets of a node come out well, apart from what is written down about it. -/
def Resets (site : Address) (b : Behaviour (Recorded μ σ) μ σ) : Prop :=
  ∀ d fire m m', R.Rested m ⟨site, d⟩ → b.reset d fire m = .ok () m' →
    R.Done ⟨site, d⟩ m True m' ∧ m'.context = m.context

variable (R) in
/-- Ticks come out well, and so do resets of a run that is open. -/
structure Works (site : Address) (b : Behaviour (Recorded μ σ) μ σ) : Prop where
  tick : ∀ d m st m', R.Ready ⟨site, d⟩ m → R.Sound m ⟨site, d⟩ → b.tick m = .ok st m' → R.Ticked ⟨site, d⟩ m st m'
  reset : ∀ d fire m m', R.Sound m ⟨site, d⟩ → (⟨site, d⟩ ≠ R.root → Open m.runs.history ⟨site, d⟩) →
    b.reset d fire m = .ok () m' → R.Gone ⟨site, d⟩ m m'

/-- What is written down about a node is fair when its ticks and resets come out well. -/
theorem works_recording {site : Address} {b : Behaviour (Recorded μ σ) μ σ} (hn : R.sys.nodeAt site = some node)
    (ticks : R.Ticks site b) (resets : R.Resets site b) : R.Works site (Stage.recording.watch site b) where
  tick d m st m' ready sound ok := by
    obtain ⟨m₁, ticked, rfl⟩ := recording_tick_ok ok
    have entered := Still.entered (R := R) site m
    obtain ⟨done, asks⟩ := ticks d _ st m₁ (ready.still entered) (sound.rested.still entered) ticked
    have depth : m₁.context.depth = d := done.moves.depth.trans ready.depth
    subst depth
    have fair : R.Fair m₁.runs.history (.left site st (Recorded.scene m₁)) := fun c hc =>
      ⟨done.agrees.opens c hc, fun terminal => done.none terminal c hc⟩
    have elsewhere : ∀ q, q ≠ ⟨site, m₁.context.depth⟩ →
        Unmoved m₁ (Recorded.add (.left site st (Recorded.scene m₁)) m₁) q :=
      fun q hq => ⟨rfl, open_left_elsewhere hq⟩
    have opens : Open (m₁.runs.history ++ [Moment.left site st (Recorded.scene m₁)]) ⟨site, m₁.context.depth⟩ ↔
        st = .running := open_left
    refine ⟨(entered.moves.trans done.moves).trans ⟨fun q hq => elsewhere q fun e => hq (e ▸ .refl), rfl,
      fun _ => id, fun h => lawful_add h fair⟩, ?_, opens, asks⟩
    have rested : R.Rested (Recorded.add (.left site st (Recorded.scene m₁)) m₁) ⟨site, m₁.context.depth⟩ :=
      done.toRested.congr rfl elsewhere
    refine rested.sound (fun closed c hc => ?_) fun bare => by cases hn.symm.trans bare
    rw [Recorded.add_history, opens] at closed
    rw [(elsewhere c fun e => hc.not_below (e ▸ .refl)).opens]
    exact done.none (Status.isTerminal_iff.mpr closed) c hc
  reset d fire m m' sound fair ok := by
    rw [recording_reset] at ok
    have elsewhere : ∀ q, q ≠ ⟨site, d⟩ →
        Unmoved m (Recorded.add (.abandoned site d fire (Recorded.scene m)) m) q :=
      fun q hq => ⟨rfl, open_abandoned_elsewhere hq⟩
    have closed : ¬ Open (m.runs.history ++ [Moment.abandoned site d fire (Recorded.scene m)]) ⟨site, d⟩ :=
      not_open_abandoned
    obtain ⟨done, context⟩ := resets d fire (Recorded.add (.abandoned site d fire (Recorded.scene m)) m) m'
      (sound.rested.congr rfl elsewhere) ok
    have moves : R.Moves ⟨site, d⟩ m (Recorded.add (.abandoned site d fire (Recorded.scene m)) m) :=
      ⟨fun q hq => elsewhere q fun e => hq (e ▸ .refl), rfl, fun _ => id, fun h => lawful_add h fair⟩
    refine ⟨moves.trans done.moves, ?_, fun opened => closed (done.own.mp opened), context⟩
    exact done.toRested.sound (fun _ c hc => done.none trivial c hc) fun bare => by cases hn.symm.trans bare

/-! ## The middle of work -/

variable (R) in
/-- The middle of work at `p` that began at `base`: the children in `busy` are those that are in a run. -/
structure AtWork (p : Place) (base m : Witnessed μ σ) (busy : Place → Prop) : Prop where
  moves : R.Moves p base m
  own : Open m.runs.history p ↔ Open base.runs.history p
  sound : ∀ c, R.sys.Child p c → R.Sound m c
  opens : ∀ c, R.sys.Child p c → (Open m.runs.history c ↔ busy c)

/-- At first the children in a run are those that the node records. -/
theorem Rested.start (h : R.Rested m p) : R.AtWork p m m (R.sys.Records m.runs.store p) :=
  ⟨.refl p m, .rfl, h.below, h.agrees.opens⟩

namespace AtWork

theorem congr (w : R.AtWork p base m busy) (h : ∀ c, R.sys.Child p c → (busy c ↔ busy' c)) : R.AtWork p base m busy' :=
  { w with opens := fun c hc => (w.opens c hc).trans (h c hc) }

theorem depth (w : R.AtWork p base m busy) (ready : R.Ready p base) : m.context.depth = p.depth :=
  w.moves.depth.trans ready.depth

/-- A child at the same depth may be ticked while no request to return early is pending. -/
theorem ready (w : R.AtWork p base m busy) (ready : R.Ready p base) (same : c.depth = p.depth)
    (calm : m.context.returnRequest = none) : R.Ready c m where
  depth := (w.depth ready).trans same.symm
  guards := ready.guards.imp fun path => w.moves.guards path
  calm := calm

/-- Work that leaves what is below the children alone. -/
theorem mine (w : R.AtWork p base m busy) (moves : R.Moves p m m₁) (same : ∀ q, q ≠ p → Unmoved m m₁ q)
    (own : Open m₁.runs.history p ↔ Open m.runs.history p) : R.AtWork p base m₁ busy where
  moves := w.moves.trans moves
  own := own.trans w.own
  sound c hc := (w.sound c hc).congr fun q hq => same q fun e => hc.not_below (e ▸ hq)
  opens c hc := (same c fun e => hc.not_below (e ▸ .refl)).opens.trans (w.opens c hc)

theorem still (w : R.AtWork p base m busy) (h : R.Still m m₁) : R.AtWork p base m₁ busy :=
  w.mine h.moves (fun q _ => h.unmoved q) (h.unmoved p).opens

/-- The node's own slot may be written. -/
theorem set (w : R.AtWork p base m busy) (slot : Slot σ) :
    R.AtWork p base (m.onRuns ((slots p.site).set · p.depth slot)) busy := by
  have same : ∀ q, q ≠ p → Unmoved m (m.onRuns ((slots p.site).set · p.depth slot)) q :=
    fun q hq => ⟨(Store.slot_set ..).trans (if_neg (Ne.symm hq)), .rfl⟩
  exact w.mine ⟨fun q hq => same q fun e => hq (e ▸ .refl), rfl, fun _ => id, id⟩ same .rfl

theorem reset (w : R.AtWork p base m busy) :
    R.AtWork p base (m.onRuns ((slots p.site).reset · p.depth)) busy := by
  have same : ∀ q, q ≠ p → Unmoved m (m.onRuns ((slots p.site).reset · p.depth)) q :=
    fun q hq => ⟨(Store.slot_reset ..).trans (if_neg (Ne.symm hq)), .rfl⟩
  exact w.mine ⟨fun q hq => same q fun e => hq (e ▸ .refl), rfl, fun _ => id, id⟩ same .rfl

/-- Work at a child: the other children are as they were. -/
theorem child (w : R.AtWork p base m busy) (hc : R.sys.Child p c) (moves : R.Moves c m m₁) (sound : R.Sound m₁ c)
    {stays : Prop} (opens : Open m₁.runs.history c ↔ stays) :
    R.AtWork p base m₁ fun x => x ≠ c ∧ busy x ∨ x = c ∧ stays where
  moves := w.moves.trans (moves.up hc)
  own := (moves.parent hc).opens.trans w.own
  sound x hx := by
    by_cases same : x = c
    · exact same ▸ sound
    · exact (w.sound x hx).congr fun q hq => moves.sibling hc hx same hq
  opens x hx := by
    by_cases same : x = c
    · subst same
      simp [opens]
    · simp [same, (moves.sibling hc hx same .refl).opens, w.opens x hx]

/-- A child that is ticked is in a run afterwards if it answers so. -/
theorem ticked (w : R.AtWork p base m busy) (hc : R.sys.Child p c) (h : R.Ticked c m st m₁) :
    R.AtWork p base m₁ fun x => x ≠ c ∧ busy x ∨ x = c ∧ st = .running :=
  w.child hc h.moves h.sound h.opens

/-- A child that is reset is in no run. -/
theorem gone (w : R.AtWork p base m busy) (hc : R.sys.Child p c) (h : R.Gone c m m₁) :
    R.AtWork p base m₁ fun x => x ≠ c ∧ busy x :=
  (w.child hc h.moves h.sound (iff_false_intro h.closed)).congr fun x _ => by simp

/-- The slot names the children in a run: the work is done. -/
theorem done (w : R.AtWork p base m busy)
    (finds : ∀ node, R.sys.nodeAt p.site = some node → node.Finds (m.runs.store.slot p) (R.limits.Admits p.depth))
    (recorded : ∀ c, R.sys.Child p c → (busy c ↔ R.sys.Records m.runs.store p c)) {ended : Prop}
    (none : ended → ∀ c, R.sys.Child p c → ¬ busy c) : R.Done p base ended m where
  agrees := ⟨finds, fun c hc => (w.opens c hc).trans (recorded c hc)⟩
  below := w.sound
  moves := w.moves
  own := w.own
  none h c hc := by
    rw [w.opens c hc]
    exact none h c hc

end AtWork

/-- An empty slot records nothing. -/
theorem not_records_idle (idle : m.runs.store.slot p = .idle) : ¬ R.sys.Records m.runs.store p c := by
  intro h
  cases h with
  | inside _ runs =>
    rename_i node i _
    rw [idle] at runs
    cases node <;> simp [Node.Runs] at runs
  | called _ call => cases idle.symm.trans call

/-- No child is in a run and nothing is remembered: the work is done. -/
theorem AtWork.rested (w : R.AtWork p base m busy) (none : ∀ c, R.sys.Child p c → ¬ busy c)
    (idle : m.runs.store.slot p = .idle) {ended : Prop} : R.Done p base ended m :=
  w.done (fun node _ => idle ▸ node.finds_idle _)
    (fun c hc => iff_of_false (none c hc) (not_records_idle idle)) fun _ => none

/-- Nothing happened: the work is done. -/
theorem Rested.unchanged (h : R.Rested m p) (still : R.Still m m') {ended : Prop}
    (none : ended → ∀ c, R.sys.Child p c → ¬ R.sys.Records m.runs.store p c) : R.Done p m ended m' :=
  (h.start.still still).done (fun node hn => (still.unmoved p).slot ▸ h.agrees.finds node hn)
    (fun _ _ => (records_congr (still.unmoved p)).symm) none

@[simp] theorem slot_set (m : Witnessed μ σ) (p : Place) (slot : Slot σ) :
    (m.onRuns ((slots p.site).set · p.depth slot)).runs.store.slot p = slot :=
  (Store.slot_set ..).trans (if_pos rfl)

@[simp] theorem slot_reset (m : Witnessed μ σ) (p : Place) :
    (m.onRuns ((slots p.site).reset · p.depth)).runs.store.slot p = .idle :=
  (Store.slot_reset ..).trans (if_pos rfl)

end Regime

end BehaviorTree
