/-
  BehaviorTree.Proofs.Deeds: what a run of the trees does, one thing after the other.

  A run is told as a sequence of deeds: a node is entered, it lets its callbacks do
  something, writes its slot, abandons a run, comes to an answer, is left. What a deed may do
  to the machine is said once, here; a property of all runs is then one case for each deed.
  `Spot` says where the run is between two deeds: inside the ticks of the places on a path,
  the innermost first.

  A condition and a call do the deciding part of their tick in one deed, told from the
  machine that entered them: nothing comes in between.
-/

import BehaviorTree.Proofs.Sweep

namespace BehaviorTree

variable {μ σ : Type}

/-! ## Where a run is -/

/-- Where a run is: inside the ticks of these places, the innermost first, or about to leave the innermost
one with an answer. -/
inductive Spot where
  | within (path : List Place)
  | leaving (path : List Place) (status : Status)

/-- How many calls deep the innermost of the places is. -/
def level : List Place → Nat
  | [] => 0
  | p :: _ => p.depth

/-- The places whose ticks are in progress. -/
def Spot.path : Spot → List Place
  | within path | leaving path _ => path

/-- A node whose tick is told in more than one deed. -/
def Node.Ordinary : Node μ σ → Prop
  | condition _ _ | call _ _ => False
  | _ => True

/-! ## What a condition and a call decide -/

/-- The answer that a condition keeps, while its interval lasts. -/
def Slot.recalled (every : Duration) (delta : Float32) : Slot σ → Option Bool
  | answered answer since => if 0 < every.length ∧ ¬ every.length ≤ since + delta then some answer else none
  | _ => none

namespace System

variable (sys : System μ σ)

/-- The tree that a call starts with, in a scene. -/
def found (scene : Scene μ σ) : Source μ → Option TreeId
  | .fixed (.strong tree) => some tree
  | .fixed (.weak tree) => if sys.alive scene.store tree then some tree else none
  | .provided provide => (provide scene.memory).1

/-- The tree that a call runs when it is entered in a scene: the one of the run in progress, or one that
it starts with. -/
def target (site : Address) (source : Source μ) (scene : Scene μ σ) : Option TreeId :=
  match scene.store.slot ⟨site, scene.context.depth⟩ with
  | .call tree _ => some tree
  | _ => sys.found scene source

/-- The place is entered, and nothing has happened since. -/
def Enters (p : Place) (m : Machine (Recorded μ σ) μ σ) : Prop :=
  m.runs.history.getLast? = some (.entered p.site (Recorded.scene m))

/-- A child of the innermost of the places, or the top of a tree. -/
def Under : List Place → Place → Prop
  | [], p => ∃ tree, p = ⟨[tree], 0⟩
  | q :: _, p => ∃ node i, sys.nodeAt q.site = some node ∧ node.Ordinary ∧ p = q.inside i

/-! ## Deeds -/

/-- The recursion guard stands where it stood. -/
structure SameGuard (m m' : Machine (Recorded μ σ) μ σ) : Prop where
  depth : m'.context.depth = m.context.depth
  maxDepth : m'.context.maxDepth = m.context.maxDepth
  stack : m'.context.stack = m.context.stack

/-- Nothing happens to the recursion guard or to a slot, and nothing is noted. The record of a refused call
may be taken away if `takes`. -/
structure Aside (takes : Prop) (m m' : Machine (Recorded μ σ) μ σ) : Prop extends SameGuard m m' where
  overflow : m'.context.overflow = m.context.overflow ∨ takes
  slots : ∀ q, m'.runs.store.slot q = m.runs.store.slot q
  height : m'.runs.store.height = m.runs.store.height
  history : m'.runs.history = m.runs.history

/-- No slot but the one of the place is written, and nothing is noted. -/
structure Near (p : Place) (m m' : Machine (Recorded μ σ) μ σ) : Prop where
  elsewhere : ∀ q, q ≠ p → m'.runs.store.slot q = m.runs.store.slot q
  bounded : m.runs.store.Bounded → m'.runs.store.Bounded
  history : m'.runs.history = m.runs.history

/-- The slot of a place is written, and nothing else happens. -/
structure Wrote (p : Place) (slot : Slot σ) (m m' : Machine (Recorded μ σ) μ σ) : Prop extends Near p m m' where
  context : m'.context = m.context
  here : m'.runs.store.slot p = slot

/-- A condition answers what it remembers, while that counts, and asks otherwise. -/
structure Answers (p : Place) (holds : Predicate μ σ) (every : Duration) (m m' : Machine (Recorded μ σ) μ σ)
    (st : Status) : Prop extends Near p m m' where
  context : m'.context = m.context
  here : ∀ i, m'.runs.store.slot p = .child i → m.runs.store.slot p = .child i
  status : st = .ofBool (((m.runs.store.slot p).recalled every m.context.delta).getD (holds m.context m.memory).1)
  memory : m'.memory = if ((m.runs.store.slot p).recalled every m.context.delta).isSome then m.memory
    else (holds m.context m.memory).2

/-- A call fails at once: it found no tree, or was refused, or the number that it found names no tree. -/
inductive Fails (p : Place) (source : Source μ) (m m' : Machine (Recorded μ σ) μ σ) : Prop
  | missing : sys.target p.site source (Recorded.scene m) = none → Aside False m m' → Fails p source m m'
  | refused {tree : TreeId} {o : Overflow} : sys.target p.site source (Recorded.scene m) = some tree →
      m.context.enter (sys.nameOf tree) = .error o → SameGuard m m' →
      m'.context.overflow = some (m.context.overflow.getD o) → Near p m m' → m'.runs.store.slot p = .idle →
      Fails p source m m'
  | void {tree : TreeId} {c : Context σ} : sys.target p.site source (Recorded.scene m) = some tree →
      m.context.enter (sys.nameOf tree) = .ok c → sys.trees[tree]? = none → SameGuard m m' →
      m'.context.overflow = m.context.overflow → Near p m m' → (∃ own, m'.runs.store.slot p = .call tree own) →
      Fails p source m m'

/-- A call enters a tree and keeps it. -/
structure Calls (p : Place) (source : Source μ) (tree : TreeId) (m m' : Machine (Recorded μ σ) μ σ) : Prop
    extends Near p m m' where
  target : sys.target p.site source (Recorded.scene m) = some tree
  entered : ∃ c, m.context.enter (sys.nameOf tree) = .ok c ∧ m'.context.depth = c.depth ∧
    m'.context.maxDepth = c.maxDepth ∧ m'.context.stack = c.stack ∧ m'.context.overflow = c.overflow
  here : ∃ state, m'.runs.store.slot p = .call tree state

/-- The root of a called tree is left, and the call with it. -/
structure Returns (tree : TreeId) (st : Status) (m m' : Machine (Recorded μ σ) μ σ) : Prop where
  depth : m'.context.depth = m.context.leave.depth
  maxDepth : m'.context.maxDepth = m.context.leave.maxDepth
  stack : m'.context.stack = m.context.leave.stack
  overflow : m'.context.overflow = m.context.leave.overflow
  slots : ∀ q, m'.runs.store.slot q = m.runs.store.slot q
  height : m'.runs.store.height = m.runs.store.height
  history : m'.runs.history = m.runs.history ++ [.left [tree] st (Recorded.scene m)]

/-- A call whose tree has ended is forgotten. -/
structure Forgets (p : Place) (m m' : Machine (Recorded μ σ) μ σ) : Prop extends SameGuard m m', Near p m m' where
  overflow : m'.context.overflow = m.context.overflow
  here : m'.runs.store.slot p = .idle

/-- What happens next in a run. -/
inductive Deed (takes : Prop) : Spot → Machine (Recorded μ σ) μ σ → Spot → Machine (Recorded μ σ) μ σ → Prop
  | entered {path : List Place} {p : Place} {m : Machine (Recorded μ σ) μ σ} : sys.Under path p →
      m.context.depth = p.depth →
      Deed takes (.within path) m (.within (p :: path)) (Recorded.add (.entered p.site (Recorded.scene m)) m)
  | aside {path : List Place} {p : Place} {node : Node μ σ} {m m' : Machine (Recorded μ σ) μ σ} :
      sys.nodeAt p.site = some node → node.Ordinary → Aside takes m m' →
      Deed takes (.within (p :: path)) m (.within (p :: path)) m'
  | wrote {path : List Place} {p : Place} {node : Node μ σ} {slot : Slot σ} {m m' : Machine (Recorded μ σ) μ σ} :
      sys.nodeAt p.site = some node → node.Ordinary → (∀ i, slot = .child i → i < node.children.length) →
      Wrote p slot m m' → Deed takes (.within (p :: path)) m (.within (p :: path)) m'
  | swept {path : List Place} {p q : Place} {node : Node μ σ} {m m' : Machine (Recorded μ σ) μ σ} :
      sys.nodeAt p.site = some node → node.Ordinary → sys.Swept q (fun _ => False) m m' →
      Deed takes (.within (p :: path)) m (.within (p :: path)) m'
  | ended {path : List Place} {p : Place} {node : Node μ σ} {m : Machine (Recorded μ σ) μ σ} (st : Status) :
      sys.nodeAt p.site = some node → node.Ordinary → Deed takes (.within (p :: path)) m (.leaving (p :: path) st) m
  | answered {path : List Place} {p : Place} {holds : Predicate μ σ} {every : Duration}
      {m m' : Machine (Recorded μ σ) μ σ} {st : Status} : sys.nodeAt p.site = some (.condition holds every) →
      Enters p m → Answers p holds every m m' st → Deed takes (.within (p :: path)) m (.leaving (p :: path) st) m'
  | failed {path : List Place} {p : Place} {source : Source μ} {makeState : Option (StateMaker μ σ)}
      {m m' : Machine (Recorded μ σ) μ σ} : sys.nodeAt p.site = some (.call source makeState) → Enters p m →
      sys.Fails p source m m' → Deed takes (.within (p :: path)) m (.leaving (p :: path) .failure) m'
  | called {path : List Place} {p : Place} {source : Source μ} {makeState : Option (StateMaker μ σ)} {tree : TreeId}
      {m m' : Machine (Recorded μ σ) μ σ} : sys.nodeAt p.site = some (.call source makeState) → Enters p m →
      (∃ t, sys.trees[tree]? = some t) → sys.Calls p source tree m m' →
      Deed takes (.within (p :: path)) m (.within (p.callee tree :: p :: path))
        (Recorded.add (.entered [tree] (Recorded.scene m')) m')
  | returned {path : List Place} {p : Place} {source : Source μ} {makeState : Option (StateMaker μ σ)} {tree : TreeId}
      {st : Status} {m m' : Machine (Recorded μ σ) μ σ} : sys.nodeAt p.site = some (.call source makeState) →
      Returns tree st m m' → Deed takes (.leaving (p.callee tree :: p :: path) st) m (.leaving (p :: path) st) m'
  | forgot {path : List Place} {p : Place} {source : Source μ} {makeState : Option (StateMaker μ σ)}
      {st : Status} {m m' : Machine (Recorded μ σ) μ σ} : sys.nodeAt p.site = some (.call source makeState) →
      st.isTerminal = true → Forgets p m m' → Deed takes (.leaving (p :: path) st) m (.leaving (p :: path) st) m'
  | left {path : List Place} {p : Place} {m : Machine (Recorded μ σ) μ σ} {st : Status} : sys.Under path p →
      Deed takes (.leaving (p :: path) st) m (.within path) (Recorded.add (.left p.site st (Recorded.scene m)) m)

/-- One deed after the other. -/
inductive Deeds (takes : Prop) (s : Spot) (m : Machine (Recorded μ σ) μ σ) :
    Spot → Machine (Recorded μ σ) μ σ → Prop
  | refl : Deeds takes s m s m
  | step {s₁ s₂ : Spot} {m₁ m₂ : Machine (Recorded μ σ) μ σ} : Deeds takes s m s₁ m₁ → sys.Deed takes s₁ m₁ s₂ m₂ →
      Deeds takes s m s₂ m₂

/-- A run broke off inside a deed: nothing is noted, and no slot is touched but those of calls. -/
structure Broken (m m' : Machine (Recorded μ σ) μ σ) : Prop where
  slots : ∀ q, m'.runs.store.slot q = m.runs.store.slot q ∨
    ∃ source makeState, sys.nodeAt q.site = some (.call source makeState)
  followable : sys.Followable m.runs.store → sys.Followable m'.runs.store
  history : m'.runs.history = m.runs.history

/-- How a machine fits the spot that a run is at. -/
structure Sits (limit : Nat) (s : Spot) (m : Machine (Recorded μ σ) μ σ) : Prop where
  depth : m.context.depth = level s.path
  maxDepth : m.context.maxDepth = limit
  followable : sys.Followable m.runs.store

variable {sys} {takes : Prop} {limit : Nat} {s s₁ s₂ : Spot} {p : Place} {slot : Slot σ} {node : Node μ σ}
  {m m₁ m₂ m' : Machine (Recorded μ σ) μ σ}

/-! ## Slots that are written -/

theorem SameGuard.refl (m : Machine (Recorded μ σ) μ σ) : SameGuard m m := ⟨rfl, rfl, rfl⟩

theorem SameGuard.trans (h : SameGuard m m₁) (k : SameGuard m₁ m') : SameGuard m m' :=
  ⟨k.depth.trans h.depth, k.maxDepth.trans h.maxDepth, k.stack.trans h.stack⟩

theorem Near.refl (m : Machine (Recorded μ σ) μ σ) : Near p m m := ⟨fun _ _ => rfl, id, rfl⟩

theorem Near.trans (h : Near p m m₁) (k : Near p m₁ m') : Near p m m' where
  elsewhere q hq := (k.elsewhere q hq).trans (h.elsewhere q hq)
  bounded := k.bounded ∘ h.bounded
  history := k.history.trans h.history

theorem Near.followable (h : Near p m m') (k : sys.Followable m.runs.store)
    (inside : ∀ node i, sys.nodeAt p.site = some node → m'.runs.store.slot p = .child i → i < node.children.length) :
    sys.Followable m'.runs.store where
  bounded := h.bounded k.bounded
  inside q node i hn hs := by
    by_cases same : q = p
    · subst same
      exact inside node i hn hs
    · exact k.inside q node i hn ((h.elsewhere q same).symm.trans hs)

theorem Near.forgets (h : Near p m m') (k : sys.Followable m.runs.store) (idle : m'.runs.store.slot p = .idle) :
    sys.Followable m'.runs.store :=
  h.followable k fun _ _ _ hs => by cases idle.symm.trans hs

theorem Aside.followable (h : Aside takes m m') (k : sys.Followable m.runs.store) : sys.Followable m'.runs.store :=
  k.of_faded (fun q => .inl (h.slots q)) h.height

theorem Aside.refl (m : Machine (Recorded μ σ) μ σ) : Aside takes m m :=
  ⟨.refl m, .inl rfl, fun _ => rfl, rfl, rfl⟩

theorem Aside.trans (h : Aside takes m m₁) (k : Aside takes m₁ m') : Aside takes m m' where
  toSameGuard := h.toSameGuard.trans k.toSameGuard
  overflow := by
    rcases k.overflow with same | may
    · rw [same]
      exact h.overflow
    · exact .inr may
  slots q := (k.slots q).trans (h.slots q)
  height := k.height.trans h.height
  history := k.history.trans h.history

theorem Aside.near (h : Aside takes m m') : Near p m m' where
  elsewhere q _ := h.slots q
  bounded k q hq := by
    rw [h.slots] at hq
    rw [h.height]
    exact k q hq
  history := h.history

/-- A slot that is written as the cells write. -/
theorem Wrote.set (m : Machine (Recorded μ σ) μ σ) (p : Place) (slot : Slot σ) :
    Wrote p slot m (m.onRuns ((Stage.recording.cell p.site).set · p.depth slot)) where
  context := rfl
  here := (m.runs.store.slot_set p p slot).trans (if_pos rfl)
  elsewhere q hq := (m.runs.store.slot_set p q slot).trans (if_neg (Ne.symm hq))
  bounded h := h.set slot
  history := rfl

theorem Wrote.reset (m : Machine (Recorded μ σ) μ σ) (p : Place) :
    Wrote p .idle m (m.onRuns ((Stage.recording.cell p.site).reset · p.depth)) where
  context := rfl
  here := (m.runs.store.slot_reset p p).trans (if_pos rfl)
  elsewhere q hq := (m.runs.store.slot_reset p q).trans (if_neg (Ne.symm hq))
  bounded h := h.reset
  history := rfl

/-! ## Every deed fits the spot that it comes to -/

theorem Under.depth {path : List Place} (h : sys.Under path p) : p.depth = level path := by
  cases path with
  | nil =>
    obtain ⟨tree, rfl⟩ := h
    rfl
  | cons q path =>
    obtain ⟨node, i, -, -, rfl⟩ := h
    rfl

theorem Deed.sits (h : sys.Sits limit s m) (deed : sys.Deed takes s m s₁ m₁) : sys.Sits limit s₁ m₁ := by
  have guard : ∀ {n}, SameGuard m n → n.context.depth = level s.path ∧ n.context.maxDepth = limit :=
    fun k => ⟨k.depth.trans h.depth, k.maxDepth.trans h.maxDepth⟩
  cases deed with
  | entered _ depth => exact ⟨depth, h.maxDepth, h.followable⟩
  | aside _ _ k => exact ⟨(guard k.toSameGuard).1, (guard k.toSameGuard).2, k.followable h.followable⟩
  | wrote hn _ inside k =>
    refine ⟨k.context ▸ h.depth, k.context ▸ h.maxDepth, k.toNear.followable h.followable fun node i hm hs => ?_⟩
    obtain rfl := Option.some.inj (hn.symm.trans hm)
    exact inside i (k.here.symm.trans hs)
  | swept _ _ k => exact ⟨k.context ▸ h.depth, k.context ▸ h.maxDepth, k.followable h.followable⟩
  | ended => exact ⟨h.depth, h.maxDepth, h.followable⟩
  | answered _ _ k =>
    exact ⟨k.context ▸ h.depth, k.context ▸ h.maxDepth,
      k.toNear.followable h.followable fun node i hm hs => h.followable.inside _ node i hm (k.here i hs)⟩
  | failed _ _ k =>
    cases k with
    | missing _ k => exact ⟨(guard k.toSameGuard).1, (guard k.toSameGuard).2, k.followable h.followable⟩
    | refused _ _ k _ near idle => exact ⟨(guard k).1, (guard k).2, near.forgets h.followable idle⟩
    | void _ _ _ k _ near kept =>
      obtain ⟨own, kept⟩ := kept
      exact ⟨(guard k).1, (guard k).2, near.followable h.followable fun _ _ _ hs => by cases kept.symm.trans hs⟩
  | called _ _ _ k =>
    obtain ⟨c, entered, depth, maxDepth, -⟩ := k.entered
    obtain ⟨stack, rfl⟩ := Behaviour.enter_ok entered
    obtain ⟨state, here⟩ := k.here
    refine ⟨?_, maxDepth.trans h.maxDepth,
      k.toNear.followable h.followable fun _ _ _ hs => by cases here.symm.trans hs⟩
    rw [Recorded.add_context, depth, h.depth]
    rfl
  | returned _ k =>
    refine ⟨?_, k.maxDepth.trans h.maxDepth, h.followable.of_faded (fun q => .inl (k.slots q)) k.height⟩
    rw [k.depth, Context.leave, h.depth]
    rfl
  | forgot _ _ k => exact ⟨(guard k.toSameGuard).1, (guard k.toSameGuard).2, k.toNear.forgets h.followable k.here⟩
  | left under => exact ⟨h.depth.trans under.depth, h.maxDepth, h.followable⟩

theorem Deeds.sits (h : sys.Sits limit s m) (deeds : sys.Deeds takes s m s₁ m₁) : sys.Sits limit s₁ m₁ := by
  induction deeds with
  | refl => exact h
  | step _ deed ih => exact deed.sits ih

theorem Deeds.trans (h : sys.Deeds takes s m s₁ m₁) (k : sys.Deeds takes s₁ m₁ s₂ m₂) : sys.Deeds takes s m s₂ m₂ := by
  induction k with
  | refl => exact h
  | step _ deed ih => exact ih.step deed

theorem Deed.deeds (h : sys.Deed takes s m s₁ m₁) : sys.Deeds takes s m s₁ m₁ := .step .refl h

/-! ## What a deed writes down -/

/-- A node that is entered is all that the deed writes down, and the scene is the one that the deed comes to. -/
theorem Deed.entry (deed : sys.Deed takes s m s₁ m₁) : ∃ xs, m₁.runs.history = m.runs.history ++ xs ∧
    ∀ site scene, .entered site scene ∈ xs → xs = [.entered site scene] ∧ scene = Recorded.scene m₁ := by
  have silent : m₁.runs.history = m.runs.history → ∃ xs, m₁.runs.history = m.runs.history ++ xs ∧
      ∀ site scene, Moment.entered site scene ∈ xs → xs = [.entered site scene] ∧ scene = Recorded.scene m₁ :=
    fun same => ⟨[], by rw [same, List.append_nil], fun _ _ h => by cases h⟩
  cases deed with
  | entered under depth =>
    refine ⟨_, rfl, fun _ _ h => ?_⟩
    cases List.mem_singleton.mp h
    exact ⟨rfl, rfl⟩
  | aside _ _ k => exact silent k.history
  | wrote _ _ _ k => exact silent k.history
  | swept _ _ k =>
    obtain ⟨xs, history, abandons, -⟩ := k.history
    refine ⟨xs, history, fun site scene h => ?_⟩
    obtain ⟨q, never⟩ := abandons _ h
    cases never
  | ended => exact silent rfl
  | answered _ _ k => exact silent k.history
  | failed _ _ k =>
    cases k with
    | missing _ k => exact silent k.history
    | refused _ _ _ _ near | void _ _ _ _ _ near => exact silent near.history
  | @called _ p source makeState tree _ m' _ _ _ k =>
    refine ⟨[.entered [tree] (Recorded.scene m')], by rw [Recorded.add_history, k.history], fun _ _ h => ?_⟩
    cases List.mem_singleton.mp h
    exact ⟨rfl, rfl⟩
  | returned _ k => exact ⟨_, k.history, fun _ _ h => by cases List.mem_singleton.mp h⟩
  | forgot _ _ k => exact silent k.history
  | left under => exact ⟨_, rfl, fun _ _ h => by cases List.mem_singleton.mp h⟩

end System

end BehaviorTree
