/-
  BehaviorTree.Proofs.Refusals: calls are refused by the limits, and by nothing else.

  A history is read with the recursion guard beside it: at every entry of a node the guard
  has the calls on the way there, and what comes right after the entry of a call is the
  root of its tree or, where the limits refuse the call, its failure (`Ensues`). The first
  refusal of a tick is the one that is kept. A call that a run is in the middle of is one
  that was admitted (`Resumes`).
-/

import BehaviorTree.Proofs.Decisions

namespace BehaviorTree

variable {μ σ : Type}

namespace System

variable (sys : System μ σ)

/-! ## Calls in a history -/

/-- The tree whose call begins with the moment. -/
def calls? : Moment μ σ → Option TreeId
  | .entered site scene => match sys.nodeAt site with
    | some (.call source _) => sys.target site source scene
    | _ => none
  | _ => none

/-- The refusal of the call that begins with the moment, if the limits refuse it. -/
def refusal? (limits : Limits) (x : Moment μ σ) : Option Overflow :=
  (sys.calls? x).bind fun tree => limits.refusal? (sys.nameOf tree) x.scene.context.depth

/-- The first refusal among some moments. -/
def firstRefusal (limits : Limits) (xs : List (Moment μ σ)) : Option Overflow :=
  (xs.filterMap (sys.refusal? limits)).head?

/-- What comes right after a node is entered, if it calls a tree: the root of the tree is entered, or the
limits refuse the call, and it is left with the recursion guard as it was. -/
def Ensues (limits : Limits) (site : Address) (scene : Scene μ σ) (next : Moment μ σ) : Prop :=
  ∀ tree t, sys.calls? (.entered site scene) = some tree → sys.trees[tree]? = some t →
    match limits.refusal? t.name scene.context.depth with
    | none => ∃ inner, next = .entered [tree] inner ∧ inner.context.depth = scene.context.depth + 1
    | some o => ∃ later, next = .left site .failure later ∧ later.context.depth = scene.context.depth ∧
      later.context.stack = scene.context.stack ∧ later.context.overflow = some (scene.context.overflow.getD o)

/-- A run of a call that is in progress is one that the limits admit. -/
def Resumes (limits : Limits) (s : Store σ) : Prop :=
  ∀ p source makeState tree state, sys.nodeAt p.site = some (.call source makeState) →
    s.slot p = .call tree state → limits.Admits p.depth

/-- At every entry of a node the recursion guard has the calls on the way there, and the calls that runs are in
the middle of are admitted. -/
def Watched (limits : Limits) (xs : List (Moment μ σ)) : Prop :=
  ∀ before site scene after, xs = before ++ .entered site scene :: after →
    sys.Guards limits (pathAfter (before ++ [.entered site scene])) scene.context ∧ sys.Resumes limits scene.store

/-- The moments that the record of refused calls takes account of: a call that has just been entered has not
been refused yet. -/
def heard (xs : List (Moment μ σ)) : Spot → List (Moment μ σ)
  | .within (p :: _) => match sys.nodeAt p.site with
    | some (.call _ _) => xs.dropLast
    | _ => xs
  | _ => xs

variable {sys} {takes : Prop} {limits : Limits} {limit : Nat} {s s₁ : Spot} {m m₁ m' : Machine (Recorded μ σ) μ σ}
  {tree : TreeId} {p : Place} {path : List Place} {xs ys : List (Moment μ σ)} {x y : Moment μ σ} {st : Status}
  {node : Node μ σ}

/-! ## Moments that begin no call -/

theorem calls?_of_plain {site : Address} {scene : Scene μ σ}
    (plain : ∀ source makeState, sys.nodeAt site ≠ some (.call source makeState)) :
    sys.calls? (.entered site scene) = none := by
  unfold calls?
  dsimp only
  split
  · rename_i hn
    exact absurd hn (plain _ _)
  · rfl

theorem calls?_call {site : Address} {scene : Scene μ σ} {source : Source μ} {makeState : Option (StateMaker μ σ)}
    (hn : sys.nodeAt site = some (.call source makeState)) :
    sys.calls? (.entered site scene) = sys.target site source scene := by
  simp only [calls?, hn]

theorem refusal?_of_plain (plain : sys.calls? x = none) : sys.refusal? limits x = none := by
  simp [refusal?, plain]

theorem firstRefusal_append : sys.firstRefusal limits (xs ++ ys) =
    (sys.firstRefusal limits xs).or (sys.firstRefusal limits ys) := by
  simp only [firstRefusal, List.filterMap_append, List.head?_append]

theorem firstRefusal_snoc : sys.firstRefusal limits (xs ++ [x]) =
    (sys.firstRefusal limits xs).or (sys.refusal? limits x) := by
  rw [firstRefusal_append]
  cases h : sys.refusal? limits x <;> simp [firstRefusal, h]

theorem firstRefusal_add (plain : sys.calls? x = none) :
    sys.firstRefusal limits (xs ++ [x]) = sys.firstRefusal limits xs := by
  rw [firstRefusal_snoc, refusal?_of_plain plain, Option.or_none]

theorem firstRefusal_abandon (abandons : ∀ y ∈ ys, ∃ q, y.Abandons q) :
    sys.firstRefusal limits (xs ++ ys) = sys.firstRefusal limits xs := by
  have none : ys.filterMap (sys.refusal? limits) = [] := by
    refine List.filterMap_eq_nil_iff.mpr fun y hy => ?_
    obtain ⟨q, here⟩ := abandons y hy
    cases y with
    | entered | left => exact absurd here id
    | abandoned => rfl
  simp only [firstRefusal, List.filterMap_append, none, List.append_nil]

/-! ## What comes after the entry of a call -/

section

variable {source : Source μ} {makeState : Option (StateMaker μ σ)}
  (hn : sys.nodeAt p.site = some (.call source makeState))
  (target : sys.target p.site source (Recorded.scene m) = some tree)
include hn target

theorem refusal?_call :
    sys.refusal? limits (.entered p.site (Recorded.scene m)) = limits.refusal? (sys.nameOf tree) m.context.depth := by
  simp only [refusal?, calls?_call hn, target, Option.bind_some]
  rfl

/-- What comes after the entry of a call is the right thing for the tree that it calls. -/
theorem Ensues.of_target (h : ∀ t, sys.trees[tree]? = some t →
      match limits.refusal? (sys.nameOf tree) m.context.depth with
      | none => ∃ inner, x = .entered [tree] inner ∧ inner.context.depth = m.context.depth + 1
      | some o => ∃ later, x = .left p.site .failure later ∧ later.context.depth = m.context.depth ∧
        later.context.stack = m.context.stack ∧ later.context.overflow = some (m.context.overflow.getD o)) :
    sys.Ensues limits p.site (Recorded.scene m) x := by
  intro tree' t called ht
  obtain rfl := Option.some.inj (target.symm.trans ((calls?_call hn).symm.trans called))
  have name : sys.nameOf tree = t.name := by simp only [nameOf, ht]
  rw [← name]
  exact h t ht

end

theorem Ensues.of_free {site : Address} {scene : Scene μ σ} (h : sys.calls? (.entered site scene) = none) :
    sys.Ensues limits site scene x := by
  intro tree t called
  cases h.symm.trans called

theorem Ensues.congr {site site' : Address} {scene later later' : Scene μ σ}
    (h : sys.Ensues limits site scene (.left site' st later)) (depth : later'.context.depth = later.context.depth)
    (stack : later'.context.stack = later.context.stack) (overflow : later'.context.overflow = later.context.overflow) :
    sys.Ensues limits site scene (.left site' st later') := by
  intro tree t called ht
  have here := h tree t called ht
  split at here
  · obtain ⟨inner, impossible, -⟩ := here
    cases impossible
  · obtain ⟨_, same, depth', stack', overflow'⟩ := here
    cases same
    exact ⟨later', rfl, depth.trans depth', stack.trans stack', overflow.trans overflow'⟩

/-- The limits decide what comes after the entry of a call. -/
theorem ensues_rule : sys.Rule limits (sys.Ensues limits) where
  free ordinary := .of_free (calls?_of_plain fun _ _ hn => ordinary _ hn)
  answered hn _ _ := .of_free (calls?_of_plain fun _ _ hc => by cases hn.symm.trans hc)
  failed hn guards fails := by
    cases fails with
    | missing none aside => exact .of_free ((calls?_call hn).trans none)
    | refused target refused guard overflow =>
      refine .of_target hn target fun t _ => ?_
      rw [(guards.refused _ _).mp refused]
      exact ⟨_, rfl, guard.depth, guard.stack, overflow⟩
    | void target entered missing => exact .of_target hn target fun t present => by cases missing.symm.trans present
  called hn guards calls := by
    obtain ⟨c, entered, depth, -⟩ := calls.entered
    refine .of_target hn calls.target fun t _ => ?_
    rw [guards.allowed entered]
    exact ⟨_, rfl, depth.trans (Context.enter_depth entered)⟩
  forgot _ k h := h.congr k.depth k.stack k.overflow

/-! ## Calls in progress -/

theorem Resumes.of_slots {s s' : Store σ} (h : sys.Resumes limits s)
    (slots : ∀ q source makeState, sys.nodeAt q.site = some (.call source makeState) →
      s'.slot q = s.slot q ∨ s'.slot q = .idle) : sys.Resumes limits s' := by
  intro q source makeState tree state hn hs
  rcases slots q source makeState hn with same | idle
  · exact h q source makeState tree state hn (same ▸ hs)
  · cases idle.symm.trans hs

/-- A node that is no call writes no call. -/
theorem Resumes.near {node : Node μ σ} (h : sys.Resumes limits m.runs.store) (hn : sys.nodeAt p.site = some node)
    (plain : ∀ source makeState, node ≠ .call source makeState) (near : Near p m m') :
    sys.Resumes limits m'.runs.store := by
  refine h.of_slots fun q source makeState hq => .inl (near.elsewhere q ?_)
  rintro rfl
  exact plain _ _ (Option.some.inj (hn.symm.trans hq))

theorem Ordinary.plain {node : Node μ σ} (h : node.Ordinary) (source : Source μ) (makeState : Option (StateMaker μ σ)) :
    node ≠ .call source makeState := by
  rintro rfl
  exact h

/-- A call that the limits admit is kept. -/
theorem Resumes.keep (h : sys.Resumes limits m.runs.store) (near : Near p m m') (admits : limits.Admits p.depth) :
    sys.Resumes limits m'.runs.store := by
  intro q source makeState tree state hn hs
  by_cases same : q = p
  · exact same ▸ admits
  · exact h q source makeState tree state hn ((near.elsewhere q same).symm.trans hs)

theorem Resumes.forget (h : sys.Resumes limits m.runs.store) (near : Near p m m')
    (idle : m'.runs.store.slot p = .idle) : sys.Resumes limits m'.runs.store := by
  refine h.of_slots fun q _ _ _ => ?_
  by_cases same : q = p
  · exact .inr (same ▸ idle)
  · exact .inl (near.elsewhere q same)

theorem Deed.resumes (sits : sys.Sits limit s m) (guards : sys.Guards limits s.path m.context)
    (h : sys.Resumes limits m.runs.store) (deed : sys.Deed takes s m s₁ m₁) : sys.Resumes limits m₁.runs.store := by
  have depth := sits.depth
  cases deed with
  | entered | ended | left => exact h
  | aside _ _ k => exact h.of_slots fun q _ _ _ => .inl (k.slots q)
  | wrote hn plain _ k => exact h.near hn (Ordinary.plain plain) k.toNear
  | swept _ _ k => exact h.of_slots fun q _ _ _ => k.fades q
  | answered hn _ k => exact h.near hn (fun _ _ => nofun) k.toNear
  | failed hn _ k =>
    cases k with
    | missing _ k => exact h.of_slots fun q _ _ _ => .inl (k.slots q)
    | refused _ _ _ _ near idle => exact h.forget near idle
    | void _ entered _ _ _ near =>
      have admits := guards.admits entered
      rw [depth] at admits
      exact h.keep near admits
  | called _ _ _ k =>
    obtain ⟨c, entered, -⟩ := k.entered
    have admits := guards.admits entered
    rw [depth] at admits
    have kept := h.keep k.toNear admits
    exact kept
  | returned _ k => exact h.of_slots fun q _ _ _ => .inl (k.slots q)
  | forgot _ _ k => exact h.forget k.toNear k.here

/-! ## Every entry is watched -/

theorem Watched.nil : sys.Watched limits ([] : List (Moment μ σ)) :=
  fun _ _ _ _ h => by cases List.append_eq_nil_iff.mp h.symm |>.2

/-- A node is entered alone, if the moments that are added enter one. -/
theorem Watched.append (h : sys.Watched limits xs)
    (more : ∀ site scene, .entered site scene ∈ ys → ys = [.entered site scene] ∧
      sys.Guards limits (pathAfter (xs ++ ys)) scene.context ∧ sys.Resumes limits scene.store) :
    sys.Watched limits (xs ++ ys) := by
  intro before site scene after same
  rcases append_eq_split same with ⟨ws, rfl, -⟩ | ⟨ws, rfl, rest⟩
  · exact h before site scene ws rfl
  · obtain ⟨alone, watched⟩ := more site scene (rest ▸ List.mem_append_right _ List.mem_cons_self)
    obtain ⟨rfl, -⟩ : ws = [] ∧ after = [] := by
      have length := congrArg List.length (rest.symm.trans alone)
      simp only [List.length_append, List.length_cons, List.length_nil] at length
      exact ⟨List.eq_nil_of_length_eq_zero (by omega), List.eq_nil_of_length_eq_zero (by omega)⟩
    rw [alone] at watched
    rwa [List.append_nil]

/-! ## The first refusal is kept -/

theorem heard_plain (plain : ∀ source makeState, sys.nodeAt p.site ≠ some (.call source makeState)) :
    sys.heard xs (.within (p :: path)) = xs := by
  unfold heard
  dsimp only
  split
  · rename_i hn
    exact absurd hn (plain _ _)
  · rfl

theorem heard_ordinary (hn : sys.nodeAt p.site = some node) (ordinary : node.Ordinary) :
    sys.heard xs (.within (p :: path)) = xs := by
  refine heard_plain fun source makeState hc => ?_
  cases hn.symm.trans hc
  exact ordinary

theorem heard_call {source : Source μ} {makeState : Option (StateMaker μ σ)}
    (hn : sys.nodeAt p.site = some (.call source makeState)) : sys.heard xs (.within (p :: path)) = xs.dropLast := by
  simp only [heard, hn]

theorem Under.heard (under : sys.Under path p) : sys.heard xs (.within path) = xs := by
  cases path with
  | nil => rfl
  | cons q path =>
    obtain ⟨node, i, hn, ordinary, -⟩ := under
    exact heard_ordinary hn ordinary

/-- A node that is entered is refused nothing yet. -/
theorem firstRefusal_enter {scene : Scene μ σ} :
    sys.firstRefusal limits (sys.heard (xs ++ [Moment.entered p.site scene]) (.within (p :: path))) =
      sys.firstRefusal limits xs := by
  by_cases call : ∃ source makeState, sys.nodeAt p.site = some (.call source makeState)
  · obtain ⟨source, makeState, hn⟩ := call
    rw [heard_call hn, List.dropLast_concat]
  · have plain : ∀ source makeState, sys.nodeAt p.site ≠ some (.call source makeState) :=
      fun source makeState hn => call ⟨source, makeState, hn⟩
    rw [heard_plain plain, firstRefusal_add (calls?_of_plain plain)]

/-- The first refusal up to the entry of a call, and the one of the call itself, where it fails. -/
theorem Fails.first {source : Source μ} {makeState : Option (StateMaker μ σ)}
    (hn : sys.nodeAt p.site = some (.call source makeState)) (guards : sys.Guards limits (p :: path) m.context)
    (first : m.context.overflow = sys.firstRefusal limits ys) (fails : sys.Fails p source m m') :
    m'.context.overflow = sys.firstRefusal limits (ys ++ [Moment.entered p.site (Recorded.scene m)]) := by
  cases fails with
  | missing none aside =>
    rw [firstRefusal_add ((calls?_call hn).trans none), ← first]
    exact aside.overflow.resolve_right id
  | refused target refused guard overflow =>
    have refusal := (guards.refused _ _).mp refused
    rw [firstRefusal_snoc, refusal?_call hn target, refusal, overflow, ← first]
    cases m.context.overflow <;> rfl
  | void target entered missing guard overflow =>
    rw [firstRefusal_snoc, refusal?_call hn target, guards.allowed entered, Option.or_none, ← first]
    exact overflow

/-- The record of refused calls has the first refusal of the moments that it takes account of. -/
theorem Deed.first (sits : sys.Sits limit s m) (guards : sys.Guards limits s.path m.context)
    (pending : sys.Pending (sys.Ensues limits) xs m s)
    (first : m.context.overflow = sys.firstRefusal limits (sys.heard xs s))
    (deed : sys.Deed False s m s₁ m₁) (history : m₁.runs.history = m.runs.history ++ ys) :
    m₁.context.overflow = sys.firstRefusal limits (sys.heard (xs ++ ys) s₁) := by
  have added : ∀ {zs}, m₁.runs.history = m.runs.history ++ zs → ys = zs :=
    fun same => List.append_cancel_left (history.symm.trans same)
  have silent : m₁.runs.history = m.runs.history → xs ++ ys = xs := fun same => by
    rw [added (same.trans (List.append_nil _).symm), List.append_nil]
  cases deed with
  | entered under depth =>
    rw [under.heard] at first
    rw [added rfl, firstRefusal_enter]
    exact first
  | aside hn _ k =>
    rw [silent k.history]
    exact (k.overflow.resolve_right id).trans first
  | wrote _ _ _ k =>
    rw [silent k.history, k.context]
    exact first
  | swept hn ordinary k =>
    obtain ⟨zs, history, abandons, -⟩ := k.history
    rw [added history, heard_ordinary hn ordinary, firstRefusal_abandon abandons, k.context]
    rwa [heard_ordinary hn ordinary] at first
  | ended st hn ordinary =>
    rw [silent rfl]
    rwa [heard_ordinary hn ordinary] at first
  | answered hn _ k =>
    rw [silent k.history, k.context]
    rwa [heard_plain fun source makeState hc => by cases hn.symm.trans hc] at first
  | failed hn _ k =>
    obtain ⟨zs, rfl⟩ := pending.deciding hn id
    rw [heard_call hn, List.dropLast_concat] at first
    have same : m₁.runs.history = m.runs.history := by
      cases k with
      | missing _ k => exact k.history
      | refused _ _ _ _ near | void _ _ _ _ _ near => exact near.history
    rw [silent same]
    exact k.first hn guards first
  | @called _ p source makeState tree _ m' hn _ _ k =>
    obtain ⟨zs, rfl⟩ := pending.deciding hn id
    rw [heard_call hn, List.dropLast_concat] at first
    obtain ⟨c, entered, -, -, -, overflow⟩ := k.entered
    have none := guards.allowed entered
    obtain ⟨stack, rfl⟩ := Behaviour.enter_ok entered
    have same : (Recorded.add (.entered [tree] (Recorded.scene m')) m').runs.history =
        m.runs.history ++ [Moment.entered [tree] (Recorded.scene m')] := by rw [Recorded.add_history, k.history]
    rw [show ys = [.entered (p.callee tree).site (Recorded.scene m')] from added same, firstRefusal_enter,
      firstRefusal_snoc, refusal?_call hn k.target, none, Option.or_none]
    exact overflow.trans first
  | returned _ k =>
    rw [added k.history]
    refine (k.overflow.trans first).trans (firstRefusal_add rfl).symm
  | forgot _ _ k =>
    rw [silent k.history]
    exact k.overflow.trans first
  | left under =>
    rw [added rfl, under.heard]
    exact first.trans (firstRefusal_add rfl).symm

/-! ## Runs -/

variable (sys) in
/-- The history of a tick, with the machine that it has led to. -/
structure Told (limits : Limits) (xs : List (Moment μ σ)) (s : Spot) (m : Machine (Recorded μ σ) μ σ) : Prop where
  chronicle : sys.Chronicle (sys.Ensues limits) xs s m
  watched : sys.Watched limits xs
  resumes : sys.Resumes limits m.runs.store
  first : m.context.overflow = sys.firstRefusal limits (sys.heard xs s)

theorem Deed.told (sits : sys.Sits limit s m) (guards : sys.Guards limits s.path m.context) (h : sys.Told limits xs s m)
    (deed : sys.Deed False s m s₁ m₁) :
    ∃ ys, m₁.runs.history = m.runs.history ++ ys ∧ sys.Told limits (xs ++ ys) s₁ m₁ := by
  obtain ⟨ys, history, chronicle⟩ := deed.chronicle ensues_rule sits guards h.chronicle
  obtain ⟨zs, more, entry⟩ := deed.entry
  obtain rfl := List.append_cancel_left (history.symm.trans more)
  have resumes := deed.resumes sits guards h.resumes
  refine ⟨ys, history, chronicle, h.watched.append fun site scene entered => ?_, resumes,
    deed.first sits guards h.chronicle.pending h.first history⟩
  obtain ⟨alone, rfl⟩ := entry site scene entered
  exact ⟨alone, chronicle.path ▸ deed.guards sits guards, resumes⟩

end System

end BehaviorTree
