/-
  BehaviorTree.Proofs.EarlyReturn: early returns end at the nearest scope.

  In the history of a tick, an early return is followed by nothing but the way up to the
  nearest enclosing scope, across calls and local scopes. That scope answers the verdict
  and is told it; without one, the way up goes on to the end of the tick (`early_return`).
-/

import BehaviorTree.Proofs.Returns.Trees

namespace BehaviorTree

variable {μ σ : Type}

namespace System

variable (sys : System μ σ)

/-- Nothing is entered, and the memory, once `x`, is only unwound. -/
def Silent (path : List Place) (x : μ) (xs : List (Moment μ σ)) : Prop :=
  ∀ y ∈ xs, y.isEntry = false ∧ sys.Unwinds path x y.scene.memory

/-- On the way up from some places, with the memory once `x`, the moments come to the scope without a
word: it takes the request away, answers the verdict, and is told it once. -/
def ConsumedAt (scope : Place) (enclosing : List Place) (hooks : Hooks μ σ) (v : Verdict) (start : List Place) (x : μ)
    (xs : List (Moment μ σ)) : Prop :=
  ∃ quiet scene rest, xs = quiet ++ .left scope.site v.status scene :: rest ∧
    quiet.foldl Moment.follow start = scope :: enclosing ∧ sys.Silent (scope :: enclosing) x quiet ∧
    scene.context.depth = scope.depth ∧ scene.context.returnRequest = none ∧
    ∃ y, sys.Unwinds (scope :: enclosing) x y ∧ scene.memory = hooks.onExit v.status y

variable {sys} {s s' : Stand μ} {path between enclosing : List Place} {scope : Place} {a : Asked μ}
  {pending : Option (Asked μ)} {x : μ} {xs : List (Moment μ σ)}

theorem Silent.nil : sys.Silent path x ([] : List (Moment μ σ)) := fun _ h => by cases h

theorem Silent.cons {y : Moment μ σ} (entry : y.isEntry = false) (memory : sys.Unwinds path x y.scene.memory)
    (h : sys.Silent path x xs) : sys.Silent path x (y :: xs) := by
  intro z hz
  rcases List.mem_cons.mp hz with rfl | hz
  · exact ⟨entry, memory⟩
  · exact h z hz

theorem Follows.path_eq (h : sys.Follows s xs s') : s'.path = xs.foldl Moment.follow s.path := by
  induction h with
  | nil => rfl
  | cons step _ ih => cases step <;> exact ih

theorem Follows.calm (h : sys.Follows s xs s') {site : Address} {scene : Scene μ σ}
    (mem : .entered site scene ∈ xs) : scene.context.returnRequest = none := by
  induction h with
  | nil => cases mem
  | cons step _ ih =>
    rcases List.mem_cons.mp mem with rfl | mem
    · cases step
      assumption
    · exact ih mem

theorem Step.returned {site : Address} {status : Status} {scene : Scene μ σ} {v : Verdict}
    (h : sys.Step s (.left site status scene) s') (hn : sys.nodeAt site = some (.earlyReturn v)) :
    status = v.status ∧ s'.pending = some ⟨v, scene.memory⟩ := by
  cases h with
  | left _ other => exact absurd hn (other v)
  | asked _ hn' =>
    cases hn.symm.trans hn'
    exact ⟨rfl, rfl⟩
  | passed _ other => exact absurd hn (other v)
  | consumed _ hn' => cases hn.symm.trans hn'

/-- From an early return the history goes up to the nearest scope, which consumes it. -/
theorem Follows.consumed (h : sys.Follows ⟨between ++ scope :: enclosing, some a⟩ xs ⟨[], pending⟩)
    (plain : ∀ p ∈ between, ¬ sys.IsScope p.site) {hooks : Hooks μ σ} {child : Node μ σ}
    (hn : sys.nodeAt scope.site = some (.scope hooks child)) :
    sys.ConsumedAt scope enclosing hooks a.verdict (between ++ scope :: enclosing) a.memory xs := by
  induction xs generalizing between with
  | nil =>
    generalize hs : between ++ scope :: enclosing = path at h
    cases h
    exact absurd hs (by simp)
  | cons moment xs ih =>
    -- one more moment on the way up, seen from where the way stands after it
    have further : ∀ inner, moment.follow (between ++ scope :: enclosing) = inner ++ scope :: enclosing →
        (∀ p ∈ inner, ¬ sys.IsScope p.site) → moment.isEntry = false →
        sys.Unwinds (scope :: enclosing) a.memory moment.scene.memory →
        sys.Follows ⟨inner ++ scope :: enclosing, some a⟩ xs ⟨[], pending⟩ →
        sys.ConsumedAt scope enclosing hooks a.verdict (between ++ scope :: enclosing) a.memory (moment :: xs) := by
      intro inner follow plain entry memory rest
      obtain ⟨quiet, scene, later, rfl, path, silent, found⟩ := ih rest plain
      exact ⟨moment :: quiet, scene, later, rfl, by rw [List.foldl_cons, follow, path], silent.cons entry memory, found⟩
    generalize hs : between ++ scope :: enclosing = path at h
    cases h with
    | cons step rest =>
      cases step with
      | passed scene returns notScope request memory =>
        cases between with
        | nil =>
          cases hs
          exact absurd ⟨hooks, child, hn⟩ notScope
        | cons p between =>
          cases hs
          refine further between rfl (fun p hp => plain p (List.mem_cons_of_mem _ hp)) rfl ?_ rest
          exact (show sys.Unwinds ((_ :: between) ++ scope :: enclosing) _ _ from memory).drop
      | consumed scene hn' request memory told =>
        cases between with
        | nil =>
          cases hs
          cases hn.symm.trans hn'
          exact ⟨[], scene, xs, rfl, rfl, .nil, rfl, request, _, memory, told⟩
        | cons p between =>
          cases hs
          exact absurd ⟨_, _, hn'⟩ (plain _ (List.mem_cons_self ..))
      | abandoned scene beyond allowed =>
        subst hs
        exact further between rfl plain rfl (allowed a rfl).drop rest

/-- Without a scope on the path it goes up to the end. -/
theorem Follows.unconsumed (h : sys.Follows ⟨path, some a⟩ xs ⟨[], pending⟩)
    (plain : ∀ p ∈ path, ¬ sys.IsScope p.site) : sys.Silent [] a.memory xs ∧ pending = some a := by
  induction xs generalizing path with
  | nil =>
    cases h
    exact ⟨.nil, rfl⟩
  | cons moment xs ih =>
    cases h with
    | cons step rest =>
      cases step with
      | passed scene returns notScope request memory =>
        obtain ⟨silent, same⟩ := ih rest fun p hp => plain p (List.mem_cons_of_mem _ hp)
        exact ⟨silent.cons rfl (System.Unwinds.drop (by rwa [List.append_nil])), same⟩
      | consumed scene hn' => exact absurd ⟨_, _, hn'⟩ (plain _ (List.mem_cons_self ..))
      | abandoned scene beyond allowed =>
        obtain ⟨silent, same⟩ := ih rest plain
        have memory : sys.Unwinds (path ++ []) a.memory scene.memory := by
          rw [List.append_nil]
          exact allowed a rfl
        exact ⟨silent.cons rfl memory.drop, same⟩

/-! ## Ticks from the top -/

variable {tick : UInt64} {delta : Float32} {state : Option σ} {top : TreeId} {st : Status}
  {m m' : Machine (Recorded μ σ) μ σ}

/-- What a tick from the top adds to the history. -/
def Adds (sys : System μ σ) (m m' : Machine (Recorded μ σ) μ σ) : Prop :=
  ∃ xs pending, m'.runs.history = m.runs.history ++ xs ∧ sys.Follows ⟨[], none⟩ xs ⟨[], pending⟩ ∧
    sys.Allows [] pending m'.memory

theorem tickFresh_adds (tame : sys.Tame) {host : Host (Recorded μ σ) μ σ}
    (h : sys.tickFresh .recording host top tick delta state m = .ok st m') : sys.Adds m m' := by
  simp only [tickFresh, Stage.modifyStore, Run.bind_eq_ok, Run.context_eq_ok, Run.onContext_eq_ok, Run.pure_eq_ok,
    EStateM.Result.ok.injEq] at h
  obtain ⟨_, _, ⟨rfl, rfl⟩, _, m₀, fresh, _, m₁, ticked, _, _, ⟨rfl, rfl⟩, _, m₂, back, _, _, ⟨-, rfl⟩, -, rfl⟩ := h
  have goes := (heeds_root tame host (m₀.context.maxDepth - m₀.context.depth + 1) top [] 0 (Beyond.nil _)).1 m₀ _ m₁
    (fresh ▸ rfl) (fresh ▸ rfl) ticked
  obtain ⟨xs, pending, hx, follows, -, allowed⟩ := goes.follows
  exact ⟨xs, pending, (by rw [← back]; exact hx.trans (by rw [← fresh])), follows, (by rw [← back]; exact allowed)⟩

theorem tick_adds (tame : sys.Tame) (h : sys.tick .recording top delta state m = .ok st m') : sys.Adds m m' := by
  simp only [System.tick, tickWith, tickAfter, Stage.modifyStore, Run.bind_eq_ok, Run.get_eq_ok,
    EStateM.Result.ok.injEq] at h
  obtain ⟨_, _, ⟨rfl, rfl⟩, _, m₁, ⟨-, counted⟩, h⟩ := h
  have before : m₁.runs.history = m.runs.history := counted ▸ rfl
  simp only [Run.ite_eq_ok, Run.bind_eq_ok, Run.pure_eq_ok] at h
  rcases h with ⟨-, h⟩ | ⟨-, ⟨-, _, m₂, refused, -, rfl⟩ | ⟨-, _, m₂, ⟨-, rfl⟩, _, m₃, h, _, _, ⟨-, rfl⟩, -, rfl⟩⟩
  · obtain ⟨xs, pending, hx, rest⟩ := tickFresh_adds tame h
    exact ⟨xs, pending, by rw [hx, before], rest⟩
  · refine ⟨[], none, ?_, .nil _, Allows.none _ _⟩
    rw [(Run.report_alike refused).runs, before, List.append_nil]
  · obtain ⟨xs, pending, hx, rest⟩ := tickFresh_adds tame h
    exact ⟨xs, pending, hx.trans (congrArg (· ++ xs) before), rest⟩

end System

/-- The history of a tick of a tame system, from any machine. Nodes are entered only while no early return
is pending. After an early return, if a scope is on the way from the top, the nearest one takes it, answers
its verdict and is told that; before that nothing is entered, and the memory changes by what abandoned
scopes further down and choosers are told at most. Without a scope the same is true of the rest of the
tick. -/
theorem early_return (sys : System μ σ) (tame : sys.Tame) (top : TreeId) (delta : Float32) (state : Option σ)
    (m m' : Machine (Recorded μ σ) μ σ) (answer : Status)
    (ticked : sys.tick .recording top delta state m = .ok answer m') :
    ∃ xs, m'.runs.history = m.runs.history ++ xs ∧
      (∀ site scene, .entered site scene ∈ xs → scene.context.returnRequest = none) ∧
      ∀ before site status scene after v, xs = before ++ .left site status scene :: after →
        sys.nodeAt site = some (.earlyReturn v) → status = v.status ∧
          (∀ between scope enclosing hooks child,
            pathAfter (before ++ [.left site status scene]) = between ++ scope :: enclosing →
            (∀ p ∈ between, ¬ sys.IsScope p.site) → sys.nodeAt scope.site = some (.scope hooks child) →
            sys.ConsumedAt scope enclosing hooks v (between ++ scope :: enclosing) scene.memory after) ∧
          ((∀ p ∈ pathAfter (before ++ [.left site status scene]), ¬ sys.IsScope p.site) →
            sys.Silent [] scene.memory after ∧ sys.Unwinds [] scene.memory m'.memory) := by
  obtain ⟨xs, pending, hx, follows, allowed⟩ := System.tick_adds tame ticked
  refine ⟨xs, hx, fun site scene mem => follows.calm mem, ?_⟩
  intro before site status scene after v same hn
  subst same
  rw [List.append_cons] at follows
  obtain ⟨s, first, rest⟩ := follows.of_append
  obtain ⟨s₀, -, last⟩ := first.of_append
  have path : s.path = pathAfter (before ++ [Moment.left site status scene]) := first.path_eq
  obtain ⟨hs, asked⟩ : status = v.status ∧ s.pending = some ⟨v, scene.memory⟩ := by
    cases last with
    | cons step done =>
      cases done
      exact step.returned hn
  obtain ⟨places, _⟩ := s
  subst asked path
  refine ⟨hs, fun between scope enclosing hooks child at_ plain hscope => ?_, fun plain => ?_⟩
  · rw [at_] at rest
    exact rest.consumed plain hscope
  · obtain ⟨silent, rfl⟩ := rest.unconsumed plain
    exact ⟨silent, allowed _ rfl⟩

/-! ## A return out of another tree -/

/-- Writes down that it ran. -/
def marked : Node (List Status) Unit := .action (.remember (· ++ [.running]) (.done .success))

/-- The hook of the scope writes down what it is told. -/
def relayHooks : Hooks (List Status) Unit := { onExit := fun status told => told ++ [status] }

/-- The tree that returns early, out of a local scope. -/
def relayed : Node (List Status) Unit := .localScope (.sequence [.earlyReturn .failure, marked])

/-- A scope around a call of that tree, whose result is inverted. -/
def relay : System (List Status) Unit where
  trees := #[
    { name := "main", root := .scope relayHooks (.sequence [.invert (.call (.fixed (.strong 1)) none), marked]) },
    { name := "callee", root := relayed }]

theorem relay_tame : relay.Tame := by
  have leaf : marked.All Node.Tame := .leaf trivial rfl
  refine System.forall_nodes fun tree h => ?_
  simp only [relay, List.mem_toArray, List.mem_cons, List.not_mem_nil, or_false] at h
  rcases h with rfl | rfl
  · refine .mk trivial (List.forall_mem_singleton.mpr (.mk trivial ?_))
    refine List.forall_mem_cons.mpr ⟨.mk trivial (List.forall_mem_singleton.mpr ?_), List.forall_mem_singleton.mpr leaf⟩
    exact .leaf trivial rfl
  · refine .mk trivial (List.forall_mem_singleton.mpr (.mk trivial ?_))
    refine List.forall_mem_cons.mpr ⟨?_, List.forall_mem_singleton.mpr leaf⟩
    exact .leaf trivial rfl

/-- The node that a moment leaves, with its answer. -/
def Moment.leaves : Moment μ σ → Option (Address × Status)
  | left site status _ => some (site, status)
  | _ => none

theorem Moment.leaves_eq_some {x : Moment μ σ} {site : Address} {status : Status} (h : x.leaves = some (site, status)) :
    ∃ scene, x = .left site status scene := by
  cases x with
  | left => cases h; exact ⟨_, rfl⟩
  | entered | abandoned => cases h

/-- Nothing happened yet. -/
def relayStart : Machine (Recorded (List Status) Unit) (List Status) Unit :=
  { context := {}, memory := [], runs := { store := {} } }

/-- The places in progress around the early return. -/
def relayPath : List Place := [⟨[0, 1], 1⟩, ⟨[1], 1⟩, ⟨[0, 0, 0, 0], 0⟩, ⟨[0, 0, 0], 0⟩, ⟨[0, 0], 0⟩, ⟨[0], 0⟩]

/-- Whether a tick fails, tells the scope so, and has the early return as its eighth moment. -/
def relayWatched : Run (Recorded (List Status) Unit) (List Status) Unit Bool := do
  let status ← relay.tick .recording 0 0 none
  let after ← get
  return status = .failure ∧ after.memory = [.failure] ∧
    after.runs.history[7]?.bind Moment.leaves = some ([0, 0, 1], .failure) ∧
    pathAfter (after.runs.history.take 8) = relayPath

/-- The early return goes through the local scope, the call and the inverting node up to the scope, which
fails, and nothing is marked. -/
theorem relay_consumed : ∃ m', relay.tick .recording 0 0 none relayStart = .ok .failure m' ∧ m'.memory = [.failure] ∧
    ∃ scene after, m'.runs.history.drop 7 = .left [0, 0, 1] .failure scene :: after ∧
      relay.ConsumedAt ⟨[0], 0⟩ [] relayHooks .failure relayPath scene.memory after := by
  obtain ⟨_, ran⟩ := Run.ok_of_answer (a := relayWatched) (m := relayStart) (x := true) (by decide +kernel)
  simp only [relayWatched, Run.bind_eq_ok, Run.get_eq_ok, Run.pure_eq_ok, decide_eq_true_eq] at ran
  obtain ⟨_, m', ticked, _, _, ⟨rfl, rfl⟩, ⟨rfl, memory, eighth, path⟩, rfl⟩ := ran
  obtain ⟨x, at_, leaves⟩ := Option.bind_eq_some_iff.mp eighth
  obtain ⟨scene, rfl⟩ := Moment.leaves_eq_some leaves
  obtain ⟨xs, hx, -, returns⟩ := early_return relay relay_tame 0 0 none relayStart m' .failure ticked
  obtain rfl : m'.runs.history = xs := hx.trans (List.nil_append _)
  obtain ⟨long, here⟩ := List.getElem?_eq_some_iff.mp at_
  have dropped : m'.runs.history.drop 7 = .left [0, 0, 1] .failure scene :: m'.runs.history.drop 8 := by
    rw [List.drop_eq_getElem_cons long, here]
  have taken : m'.runs.history.take 7 ++ [Moment.left [0, 0, 1] .failure scene] = m'.runs.history.take 8 := by
    rw [← here, List.take_append_getElem]
  refine ⟨m', ticked, memory, scene, _, dropped, ?_⟩
  obtain ⟨-, consumed, -⟩ := returns (m'.runs.history.take 7) [0, 0, 1] .failure scene (m'.runs.history.drop 8) .failure
    (by rw [← dropped, List.take_append_drop]) rfl
  exact consumed relayPath.dropLast ⟨[0], 0⟩ [] relayHooks _ (by rw [taken, path]; rfl) (by
    intro p hp isScope
    obtain ⟨hooks, child, h⟩ := isScope
    simp only [relayPath, List.dropLast, List.mem_cons, List.not_mem_nil, or_false] at hp
    rcases hp with rfl | rfl | rfl | rfl | rfl <;> cases h) rfl

end BehaviorTree
