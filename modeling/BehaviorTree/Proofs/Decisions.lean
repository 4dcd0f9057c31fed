/-
  BehaviorTree.Proofs.Decisions: what comes right after the entry of a node.

  A condition and a call decide at once: the next moment of a history is decided by the
  scene in which they were entered. A rule says what that moment has to be, for the deeds
  that decide (`Rule`); then it is that throughout every history (`Deed.chronicle`).
  Between the entry of such a node and what comes after it the history is behind the
  machine (`Pending`).
-/

import BehaviorTree.Proofs.Guard
import BehaviorTree.Proofs.Unwinding

namespace BehaviorTree

variable {μ σ : Type}

namespace System

variable (sys : System μ σ)

/-- The spot is inside a node that decides at once. -/
def Deciding : Spot → Prop
  | .within (p :: _) => ∃ node, sys.nodeAt p.site = some node ∧ ¬ node.Ordinary
  | _ => False

/-- What has to come right after the entry of a node, given the scene there: it holds of every deed that
decides, and the other nodes are free. -/
structure Rule (limits : Limits) (R : Address → Scene μ σ → Moment μ σ → Prop) : Prop where
  free : ∀ {site scene x}, (∀ node, sys.nodeAt site = some node → node.Ordinary) → R site scene x
  answered : ∀ {p holds every} {m m' : Machine (Recorded μ σ) μ σ} {st},
    sys.nodeAt p.site = some (.condition holds every) → m.context.depth = p.depth → Answers p holds every m m' st →
    R p.site (Recorded.scene m) (.left p.site st (Recorded.scene m'))
  failed : ∀ {p path source makeState} {m m' : Machine (Recorded μ σ) μ σ},
    sys.nodeAt p.site = some (.call source makeState) → sys.Guards limits (p :: path) m.context →
    sys.Fails p source m m' → R p.site (Recorded.scene m) (.left p.site .failure (Recorded.scene m'))
  called : ∀ {p path source makeState tree} {m m' : Machine (Recorded μ σ) μ σ},
    sys.nodeAt p.site = some (.call source makeState) → sys.Guards limits (p :: path) m.context →
    sys.Calls p source tree m m' → R p.site (Recorded.scene m) (.entered [tree] (Recorded.scene m'))
  forgot : ∀ {p scene source makeState} {m m' : Machine (Recorded μ σ) μ σ} {st},
    sys.nodeAt p.site = some (.call source makeState) → Forgets p m m' →
    R p.site scene (.left p.site st (Recorded.scene m)) → R p.site scene (.left p.site st (Recorded.scene m'))

/-- The last moment leaves the next one free. -/
def Settled (R : Address → Scene μ σ → Moment μ σ → Prop) (xs : List (Moment μ σ)) : Prop :=
  ∀ before site scene, xs = before ++ [.entered site scene] → ∀ x, R site scene x

/-- How far the machine is ahead of the history: not at all, or the node that was entered last has not decided
yet, or it has, and is not left yet. -/
inductive Pending (R : Address → Scene μ σ → Moment μ σ → Prop) (xs : List (Moment μ σ))
    (m : Machine (Recorded μ σ) μ σ) : Spot → Prop
  | settled {s : Spot} : Settled R xs → ¬ sys.Deciding s → Pending R xs m s
  | undecided {ys : List (Moment μ σ)} {p : Place} {path : List Place} :
      xs = ys ++ [.entered p.site (Recorded.scene m)] → Pending R xs m (.within (p :: path))
  | decided {ys : List (Moment μ σ)} {p : Place} {path : List Place} {scene : Scene μ σ} {st : Status} :
      xs = ys ++ [.entered p.site scene] → R p.site scene (.left p.site st (Recorded.scene m)) →
      Pending R xs m (.leaving (p :: path) st)

/-- A history that keeps to a rule, with the machine that it has led to. -/
structure Chronicle (R : Address → Scene μ σ → Moment μ σ → Prop) (xs : List (Moment μ σ)) (s : Spot)
    (m : Machine (Recorded μ σ) μ σ) : Prop where
  path : pathAfter xs = s.path
  ensues : ∀ before site scene next after, xs = before ++ .entered site scene :: next :: after → R site scene next
  pending : sys.Pending R xs m s

variable {sys} {takes : Prop} {limits : Limits} {limit : Nat} {s s₁ : Spot} {m m₁ m' : Machine (Recorded μ σ) μ σ}
  {p : Place} {path : List Place} {xs ys : List (Moment μ σ)} {x y : Moment μ σ} {st : Status} {node : Node μ σ}
  {R : Address → Scene μ σ → Moment μ σ → Prop}

/-! ## Adding a moment -/

@[simp] theorem pathAfter_add (xs : List (Moment μ σ)) (x : Moment μ σ) :
    pathAfter (xs ++ [x]) = x.follow (pathAfter xs) := by
  simp [pathAfter]

theorem Settled.nil : Settled R ([] : List (Moment μ σ)) := fun before _ _ h => by cases before <;> cases h

theorem Settled.add (h : ∀ site scene, x = .entered site scene → ∀ y, R site scene y) : Settled R (xs ++ [x]) := by
  intro before site scene same
  obtain ⟨-, same⟩ := List.append_inj' same rfl
  cases same
  exact h site scene rfl

/-- A moment is added that the last one allows. -/
theorem ensues_add
    (h : ∀ before site scene next after, xs = before ++ Moment.entered site scene :: next :: after → R site scene next)
    (allowed : ∀ before site scene, xs = before ++ [Moment.entered site scene] → R site scene x) :
    ∀ before site scene next after, xs ++ [x] = before ++ Moment.entered site scene :: next :: after →
      R site scene next := by
  intro before site scene next after same
  rcases append_eq_split same with ⟨ws, rfl, rest⟩ | ⟨ws, -, rest⟩
  · cases ws with
    | nil =>
      cases rest
      exact allowed before site scene rfl
    | cons w ws =>
      cases rest
      exact h before site scene next ws rfl
  · have length := congrArg List.length rest
    simp only [List.length_append, List.length_cons, List.length_nil] at length
    omega

namespace Chronicle

/-- No moment yet, and no place in progress. -/
theorem nil (m : Machine (Recorded μ σ) μ σ) : sys.Chronicle R [] (.within []) m :=
  ⟨rfl, fun before _ _ _ _ h => (by cases before <;> cases h), .settled .nil id⟩

/-- Runs that are abandoned follow anything that leaves them free. -/
theorem abandon (h : sys.Chronicle R xs s m) (settled : Settled R xs) (idle : ¬ sys.Deciding s)
    (abandons : ∀ y ∈ ys, ∃ q, y.Abandons q) : sys.Chronicle R (xs ++ ys) s m' := by
  induction ys generalizing xs with
  | nil =>
    rw [List.append_nil]
    exact ⟨h.path, h.ensues, .settled settled idle⟩
  | cons y ys ih =>
    obtain ⟨⟨q, here⟩, others⟩ := List.forall_mem_cons.mp abandons
    cases y with
    | entered | left => exact absurd here id
    | abandoned site depth fire scene =>
      rw [← List.singleton_append, ← List.append_assoc]
      have still : Settled R (xs ++ [Moment.abandoned site depth fire scene]) := .add fun _ _ never => by cases never
      refine ih ⟨?_, ensues_add h.ensues fun _ _ _ same => settled _ _ _ same _, .settled still idle⟩ still others
      exact (pathAfter_add ..).trans h.path

/-- A node is entered. -/
theorem enter (rule : sys.Rule limits R)
    (h : ∀ before site scene next after, xs = before ++ Moment.entered site scene :: next :: after → R site scene next)
    (on : pathAfter xs = path) (depth : m.context.depth = p.depth)
    (allowed : ∀ before site scene, xs = before ++ [Moment.entered site scene] →
      R site scene (.entered p.site (Recorded.scene m))) :
    sys.Chronicle R (xs ++ [Moment.entered p.site (Recorded.scene m)]) (.within (p :: path))
      (Recorded.add (.entered p.site (Recorded.scene m)) m) := by
  refine ⟨?_, ensues_add h allowed, ?_⟩
  · rw [pathAfter_add, on]
    exact congrArg (fun d => Place.mk p.site d :: path) depth
  · by_cases deciding : sys.Deciding (.within (p :: path))
    · exact .undecided rfl
    · refine .settled (.add fun site scene same y => ?_) deciding
      cases same
      exact rule.free fun node hn => Classical.not_not.mp fun plain => deciding ⟨node, hn, plain⟩

/-- A node is left. -/
theorem leave (h : sys.Chronicle R xs (.leaving (p :: path) st) m) {s : Spot} (on : s.path = path)
    (idle : ¬ sys.Deciding s) : sys.Chronicle R (xs ++ [Moment.left p.site st (Recorded.scene m)]) s m' := by
  refine ⟨?_, ensues_add h.ensues ?_, .settled (.add fun _ _ never => by cases never) idle⟩
  · rw [pathAfter_add, h.path, on]
    rfl
  · intro before site scene same
    cases h.pending with
    | settled settled => exact settled _ _ _ same _
    | decided last decided =>
      obtain ⟨-, same⟩ := List.append_inj' (last.symm.trans same) rfl
      cases same
      exact decided

/-- Nothing is noted. -/
theorem silent (h : sys.Chronicle R xs s m) (history : m₁.runs.history = m.runs.history) (path : s₁.path = s.path)
    (pending : sys.Pending R xs m₁ s₁) :
    ∃ ys, m₁.runs.history = m.runs.history ++ ys ∧ sys.Chronicle R (xs ++ ys) s₁ m₁ := by
  refine ⟨[], by rw [history, List.append_nil], ?_⟩
  rw [List.append_nil]
  exact ⟨h.path.trans path.symm, h.ensues, pending⟩

end Chronicle

/-! ## Where nothing is pending -/

theorem not_deciding (hn : sys.nodeAt p.site = some node) (ordinary : node.Ordinary) :
    ¬ sys.Deciding (.within (p :: path)) := by
  rintro ⟨other, ho, plain⟩
  obtain rfl := Option.some.inj (hn.symm.trans ho)
  exact plain ordinary

theorem Under.not_deciding (under : sys.Under path p) : ¬ sys.Deciding (.within path) := by
  cases path with
  | nil => exact id
  | cons q path =>
    obtain ⟨node, i, hn, ordinary, -⟩ := under
    exact System.not_deciding hn ordinary

/-- Inside a node that does not decide at once the last moment has been followed up. -/
theorem Pending.current (rule : sys.Rule limits R) (h : sys.Pending R xs m (.within path))
    (idle : ¬ sys.Deciding (.within path)) : Settled R xs := by
  cases h with
  | settled settled => exact settled
  | undecided last =>
    subst last
    refine .add fun site scene same y => ?_
    cases same
    exact rule.free fun node hn => Classical.not_not.mp fun plain => idle ⟨node, hn, plain⟩

theorem Pending.ordinary (rule : sys.Rule limits R) (h : sys.Pending R xs m (.within (p :: path)))
    (hn : sys.nodeAt p.site = some node) (ordinary : node.Ordinary) :
    Settled R xs ∧ ¬ sys.Deciding (.within (p :: path)) :=
  ⟨h.current rule (not_deciding hn ordinary), not_deciding hn ordinary⟩

/-- Inside a node that decides at once it is the node that was entered last. -/
theorem Pending.deciding (h : sys.Pending R xs m (.within (p :: path))) (hn : sys.nodeAt p.site = some node)
    (plain : ¬ node.Ordinary) : ∃ ys, xs = ys ++ [Moment.entered p.site (Recorded.scene m)] := by
  cases h with
  | settled _ idle => exact absurd ⟨node, hn, plain⟩ idle
  | undecided last => exact ⟨_, last⟩

/-! ## Every deed keeps to the rule -/

theorem Deed.chronicle (rule : sys.Rule limits R) (sits : sys.Sits limit s m)
    (guards : sys.Guards limits s.path m.context) (h : sys.Chronicle R xs s m) (deed : sys.Deed takes s m s₁ m₁) :
    ∃ ys, m₁.runs.history = m.runs.history ++ ys ∧ sys.Chronicle R (xs ++ ys) s₁ m₁ := by
  have pending := h.pending
  cases deed with
  | entered under depth =>
    have settled := pending.current rule under.not_deciding
    exact ⟨_, rfl, .enter rule h.ensues h.path depth fun _ _ _ same => settled _ _ _ same _⟩
  | aside hn ordinary k =>
    obtain ⟨settled, idle⟩ := pending.ordinary rule hn ordinary
    exact h.silent k.history rfl (.settled settled idle)
  | wrote hn ordinary _ k =>
    obtain ⟨settled, idle⟩ := pending.ordinary rule hn ordinary
    exact h.silent k.history rfl (.settled settled idle)
  | swept hn ordinary k =>
    obtain ⟨settled, idle⟩ := pending.ordinary rule hn ordinary
    obtain ⟨ys, history, abandons, -⟩ := k.history
    exact ⟨ys, history, h.abandon settled idle abandons⟩
  | ended st hn ordinary => exact h.silent rfl rfl (.settled (pending.ordinary rule hn ordinary).1 id)
  | answered hn _ k =>
    obtain ⟨ys, rfl⟩ := pending.deciding hn id
    exact h.silent k.history rfl (.decided rfl (rule.answered hn sits.depth k))
  | failed hn _ k =>
    obtain ⟨ys, rfl⟩ := pending.deciding hn id
    refine h.silent ?_ rfl (.decided rfl (rule.failed hn guards k))
    cases k with
    | missing _ k => exact k.history
    | refused _ _ _ _ near | void _ _ _ _ _ near => exact near.history
  | @called path p source makeState tree _ m' hn _ _ k =>
    obtain ⟨ys, rfl⟩ := pending.deciding hn id
    obtain ⟨c, entered, depth, -⟩ := k.entered
    have deeper := (depth.trans (Context.enter_depth entered)).trans (congrArg (· + 1) sits.depth)
    refine ⟨[.entered [tree] (Recorded.scene m')], by rw [Recorded.add_history, k.history], ?_⟩
    refine .enter (p := p.callee tree) rule h.ensues h.path deeper fun before site scene same => ?_
    obtain ⟨-, same⟩ := List.append_inj' same rfl
    cases same
    exact rule.called hn guards k
  | returned hn k => exact ⟨_, k.history, h.leave rfl id⟩
  | forgot hn _ k =>
    refine h.silent k.history rfl ?_
    cases pending with
    | settled settled _ => exact .settled settled id
    | decided last decided => exact .decided last (rule.forgot hn k decided)
  | left under => exact ⟨_, rfl, h.leave rfl under.not_deciding⟩

end System

end BehaviorTree
