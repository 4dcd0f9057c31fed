/-
  BehaviorTree.Proofs.Recall: what conditions recall after a reset.

  A condition with an interval keeps its answer beyond the end of its run, and nothing
  records it then. A reset follows the records, so it makes those conditions forget that it
  comes by and no others: when one of the others is entered for the first time since, it
  still answers what it had heard before, while its interval lasts (`reset_recalls`,
  `reset_leaves_answer`).

  What is neither entered nor abandoned stays as it was (`Deed.spares`); the run of one
  tick is read with that beside the rule for what a condition answers (`Recalls`), and so
  is any number of ticks and resets after it (`Onward.kept`).
-/

import Mathlib.Data.List.Induction
import BehaviorTree.Proofs.Decisions
import BehaviorTree.Proofs.Depth

namespace BehaviorTree

variable {μ σ : Type}

/-- The node at the place is entered, or its run is abandoned. -/
def Moment.Touches (p : Place) : Moment μ σ → Prop
  | entered site scene => ⟨site, scene.context.depth⟩ = p
  | abandoned site depth _ _ => ⟨site, depth⟩ = p
  | left _ _ _ => False

/-! ## What a condition answers -/

section

variable (holds : Predicate μ σ) (every : Duration) (site : Address) (scene : Scene μ σ) (next : Moment μ σ)

/-- The condition asks, and is left with what it hears. -/
def Asks : Prop := ∃ later, next = .left site (.ofBool (holds scene.context scene.memory).1) later ∧
  later.memory = (holds scene.context scene.memory).2

/-- The condition asks nothing, and is left with an answer from before. -/
def Repeats (answer : Bool) : Prop := ∃ later, next = .left site (.ofBool answer) later ∧ later.memory = scene.memory

/-- The condition repeats the answer in its slot, while that counts, and asks otherwise. -/
def Replies (slot : Slot σ) : Prop :=
  match slot.recalled every scene.context.delta with
  | some answer => Repeats site scene next answer
  | none => Asks holds site scene next

end

namespace System

variable (sys : System μ σ)

/-- What comes right after the entry of a condition: its reply. -/
def Replied (site : Address) (scene : Scene μ σ) (next : Moment μ σ) : Prop :=
  ∀ holds every, sys.nodeAt site = some (.condition holds every) →
    Replies holds every site scene next (scene.store.slot ⟨site, scene.context.depth⟩)

/-- The conditions that the moments do not touch remember what they did. -/
def Kept (xs : List (Moment μ σ)) (s s' : Store σ) : Prop :=
  ∀ q, ¬ sys.Counted q → (∀ x ∈ xs, ¬ x.Touches q) → s'.slot q = s.slot q

/-- A condition that is touched for the first time by being entered remembers what it did. -/
def Opens (xs : List (Moment μ σ)) (s : Store σ) : Prop :=
  ∀ before site scene after, xs = before ++ .entered site scene :: after → ¬ sys.Counted ⟨site, scene.context.depth⟩ →
    (∀ x ∈ before, ¬ x.Touches ⟨site, scene.context.depth⟩) →
    scene.store.slot ⟨site, scene.context.depth⟩ = s.slot ⟨site, scene.context.depth⟩

/-- The history of a tick that has come to a machine, where conditions remembered what is in the store when it began. -/
structure Recalls (s₀ : Store σ) (xs : List (Moment μ σ)) (s : Spot) (m : Machine (Recorded μ σ) μ σ) : Prop where
  chronicle : sys.Chronicle sys.Replied xs s m
  kept : sys.Kept xs s₀ m.runs.store
  opens : sys.Opens xs s₀

variable {sys} {takes : Prop} {limits : Limits} {limit : Nat} {s s₁ : Spot} {m m₁ m' : Machine (Recorded μ σ) μ σ}
  {tree : TreeId} {p q : Place} {xs ys : List (Moment μ σ)} {x : Moment μ σ} {s₀ t u : Store σ} {st : Status}

theorem replied_rule : sys.Rule limits sys.Replied where
  free ordinary holds every hn := absurd (ordinary _ hn) id
  answered := by
    intro p holds every m m' st hn depth answers holds' every' hn'
    cases hn.symm.trans hn'
    have slot : (Recorded.scene m).store.slot ⟨p.site, (Recorded.scene m).context.depth⟩ = m.runs.store.slot p :=
      congrArg (fun d => m.runs.store.slot ⟨p.site, d⟩) depth
    unfold Replies
    rw [slot]
    have status := answers.status
    have memory := answers.memory
    show match (m.runs.store.slot p).recalled every m.context.delta with
      | some answer => Repeats p.site (Recorded.scene m) _ answer
      | none => Asks holds p.site (Recorded.scene m) _
    split
    · rename_i answer same
      rw [same] at status memory
      exact ⟨_, congrArg (Moment.left p.site · _) status, memory⟩
    · rename_i same
      rw [same] at status memory
      exact ⟨_, congrArg (Moment.left p.site · _) status, memory⟩
  failed hn _ _ holds every hn' := by cases hn.symm.trans hn'
  called hn _ _ holds every hn' := by cases hn.symm.trans hn'
  forgot hn _ _ holds every hn' := by cases hn.symm.trans hn'

/-! ## What is not touched stays -/

/-- A place in progress has been entered. -/
theorem touched_of_pathAfter (h : q ∈ pathAfter xs) : ∃ x ∈ xs, x.Touches q := by
  induction xs using List.reverseRecOn with
  | nil => cases h
  | append_singleton xs x ih =>
    have more : q ∈ pathAfter xs → ∃ y ∈ xs ++ [x], y.Touches q := fun before => by
      obtain ⟨y, hy, touches⟩ := ih before
      exact ⟨y, List.mem_append_left _ hy, touches⟩
    rw [pathAfter_add] at h
    cases x with
    | entered site scene =>
      rcases List.mem_cons.mp h with rfl | h
      · exact ⟨_, List.mem_append_right _ (List.mem_singleton_self _), rfl⟩
      · exact more h
    | left site st scene => exact more (List.mem_of_mem_tail h)
    | abandoned site depth fire scene => exact more h

/-- A deed writes where it is, and where it abandons runs. -/
theorem Deed.spares (deed : sys.Deed takes s m s₁ m₁) (history : m₁.runs.history = m.runs.history ++ ys)
    (off : q ∉ s.path) (spared : ∀ y ∈ ys, ¬ y.Abandons q) : m₁.runs.store.slot q = m.runs.store.slot q := by
  have aside : ∀ {p path}, s.path = p :: path → ∀ {n : Machine (Recorded μ σ) μ σ}, Near p m n →
      n.runs.store.slot q = m.runs.store.slot q := by
    intro p path on n near
    refine near.elsewhere q fun same => off ?_
    rw [on, same]
    exact List.mem_cons_self
  cases deed with
  | entered | ended | left => rfl
  | aside _ _ k => exact k.slots q
  | wrote _ _ _ k => exact aside rfl k.toNear
  | swept _ _ k =>
    obtain ⟨zs, more, -, covered⟩ := k.history
    obtain rfl := List.append_cancel_left (history.symm.trans more)
    by_contra changed
    obtain ⟨y, hy, here⟩ := covered q changed
    exact spared y hy here
  | answered _ _ k => exact aside rfl k.toNear
  | failed _ _ k =>
    cases k with
    | missing _ k => exact k.slots q
    | refused _ _ _ _ near | void _ _ _ _ _ near => exact aside rfl near
  | called _ _ _ k =>
    have same := aside rfl k.toNear
    exact same
  | returned _ k => exact k.slots q
  | forgot _ _ k => exact aside rfl k.toNear

theorem Moment.Abandons.touches (h : x.Abandons p) : x.Touches p := by
  cases x with
  | entered | left => exact absurd h id
  | abandoned => exact h

theorem Kept.refl (s : Store σ) : sys.Kept ([] : List (Moment μ σ)) s s := fun _ _ _ => rfl

theorem Kept.trans (h : sys.Kept xs s₀ t) (k : sys.Kept ys t u) : sys.Kept (xs ++ ys) s₀ u := by
  intro q plain spared
  obtain ⟨first, second⟩ := List.forall_mem_append.mp spared
  exact (k q plain second).trans (h q plain first)

theorem Opens.nil : sys.Opens ([] : List (Moment μ σ)) s₀ := fun before _ _ _ h => by cases before <;> cases h

theorem Opens.append (h : sys.Opens xs s₀) (more : ∀ site scene, .entered site scene ∈ ys → ys = [.entered site scene] ∧
      (¬ sys.Counted ⟨site, scene.context.depth⟩ → (∀ x ∈ xs, ¬ x.Touches ⟨site, scene.context.depth⟩) →
        scene.store.slot ⟨site, scene.context.depth⟩ = s₀.slot ⟨site, scene.context.depth⟩)) :
    sys.Opens (xs ++ ys) s₀ := by
  intro before site scene after same plain untouched
  rcases append_eq_split same with ⟨ws, rfl, -⟩ | ⟨ws, rfl, rest⟩
  · exact h before site scene ws rfl plain untouched
  · obtain ⟨-, here⟩ := more site scene (rest ▸ List.mem_append_right _ List.mem_cons_self)
    exact here plain fun x hx => untouched x (List.mem_append_left _ hx)

/-! ## Ticks -/

theorem Deed.recalls (sits : sys.Sits limit s m) (guards : sys.Guards limits s.path m.context)
    (h : sys.Recalls s₀ xs s m) (deed : sys.Deed takes s m s₁ m₁) :
    ∃ ys, m₁.runs.history = m.runs.history ++ ys ∧ sys.Recalls s₀ (xs ++ ys) s₁ m₁ := by
  obtain ⟨ys, history, chronicle⟩ := deed.chronicle replied_rule sits guards h.chronicle
  obtain ⟨zs, more, entry⟩ := deed.entry
  obtain rfl := List.append_cancel_left (history.symm.trans more)
  have stays : ∀ q, ¬ sys.Counted q → (∀ x ∈ xs, ¬ x.Touches q) → (∀ y ∈ ys, ¬ y.Abandons q) →
      m₁.runs.store.slot q = s₀.slot q := by
    intro q plain untouched spared
    refine (deed.spares history (fun on => ?_) spared).trans (h.kept q plain untouched)
    obtain ⟨x, hx, touches⟩ := touched_of_pathAfter (h.chronicle.path ▸ on)
    exact untouched x hx touches
  refine ⟨ys, history, chronicle, fun q plain untouched => ?_, h.opens.append fun site scene entered => ?_⟩
  · obtain ⟨before, now⟩ := List.forall_mem_append.mp untouched
    exact stays q plain before fun y hy abandons => now y hy (Moment.Abandons.touches abandons)
  · obtain ⟨alone, rfl⟩ := entry site scene entered
    refine ⟨alone, fun plain untouched => stays _ plain untouched fun y hy abandons => ?_⟩
    rw [alone] at hy
    cases List.mem_singleton.mp hy
    exact abandons

theorem Begins.recalls (h : sys.Begins tree m m₁) : sys.Recalls m.runs.store [] (.within []) m₁ where
  chronicle := .nil _
  kept q _ _ := h.slots q
  opens := .nil

/-- A tick, whatever comes of it: what its conditions reply, and what they remember where they are not touched. -/
theorem Ticked.recalls {a : Run (Recorded μ σ) μ σ Status} (h : sys.Ticked takes tree m (a m))
    (followable : sys.Followable m.runs.store) : ∃ xs, (a.last m).runs.history = m.runs.history ++ xs ∧
      sys.Kept xs m.runs.store (a.last m).runs.store ∧ sys.Opens xs m.runs.store ∧
      (∀ before site scene next after, xs = before ++ Moment.entered site scene :: next :: after →
        sys.Replied site scene next) ∧
      ∀ st m', a m = .ok st m' → pathAfter xs = [] := by
  unfold Run.last
  generalize a m = r at h
  cases h with
  | busy _ along =>
    exact ⟨[], along.history.trans (List.append_nil _).symm, fun q _ _ => along.slots q, .nil,
      fun before _ _ _ _ h => (by cases before <;> cases h), fun _ _ _ => rfl⟩
  | ran ran =>
    obtain ⟨xs, came⟩ := ran.carry followable Deed.recalls Begins.recalls
    cases r with
    | ok st m₁ =>
      obtain ⟨history, m', recalls, after, -⟩ := came
      exact ⟨xs, history, fun q plain untouched => (after.slots q).trans (recalls.kept q plain untouched),
        recalls.opens, recalls.chronicle.ensues, fun _ _ _ => recalls.chronicle.path⟩
    | error e m₁ =>
      obtain ⟨history, -, s, m', recalls, broken⟩ := came
      refine ⟨xs, history, fun q plain untouched => ?_, recalls.opens, recalls.chronicle.ensues,
        fun _ _ never => by cases never⟩
      rcases broken.slots q with same | ⟨source, makeState, hn⟩
      · exact same.trans (recalls.kept q plain untouched)
      · exact absurd (fun holds every hc => by cases hn.symm.trans hc) plain

/-- Conditions that are not touched remember what they did, whatever is ticked and reset. -/
theorem Onward.kept (modest : sys.Modest takes) (followable : sys.Followable m.runs.store) (h : sys.Onward m m') :
    ∃ xs, m'.runs.history = m.runs.history ++ xs ∧ sys.Kept xs m.runs.store m'.runs.store := by
  induction h with
  | refl => exact ⟨[], (List.append_nil _).symm, .refl _⟩
  | between _ _ _ _ _ slots _ ih =>
    obtain ⟨xs, history, kept⟩ := ih
    exact ⟨xs, history, fun q plain untouched => (slots _ q).trans (kept q plain untouched)⟩
  | tick tree delta state before ih =>
    obtain ⟨xs, history, kept⟩ := ih
    have here := before.followable modest followable
    obtain ⟨ys, more, kept', -⟩ := (tick_ticked modest here tree delta state).recalls here
    exact ⟨xs ++ ys, by rw [more, history, List.append_assoc], kept.trans kept'⟩
  | @reset n tree fire before ih =>
    obtain ⟨xs, history, kept⟩ := ih
    obtain ⟨n', ok, swept⟩ := reset_sweeps (before.followable modest followable) tree fire
    rw [Run.last_ok ok]
    obtain ⟨ys, more, -, covered⟩ := swept.history
    refine ⟨xs ++ ys, by rw [more, history, List.append_assoc], kept.trans fun q _ untouched => ?_⟩
    by_contra changed
    obtain ⟨y, hy, here⟩ := covered q changed
    exact untouched y hy (Moment.Abandons.touches here)

end System

/-- In every system of modest trees, wherever ticks and resets have led: a reset ends well; and whatever is
ticked and reset then, a condition that is entered for the first time since, with no other reset coming by,
asks if the reset came by it, and otherwise replies as what it remembered before the reset has it. -/
theorem reset_recalls (sys : System μ σ) (modest : sys.Modest True) (m : Machine (Recorded μ σ) μ σ)
    (h : sys.Continued m) (tree : TreeId) (fire : Bool) :
    ∃ m₁, sys.reset .recording tree fire m = .ok () m₁ ∧ ∀ m₂, sys.Onward m₁ m₂ →
      ∃ xs, m₂.runs.history = m₁.runs.history ++ xs ∧ ∀ top delta state,
        ∃ ys, ((sys.tick .recording top delta state).last m₂).runs.history = m₂.runs.history ++ ys ∧
          (∀ status m', sys.tick .recording top delta state m₂ = .ok status m' →
            ∀ before site scene, ys ≠ before ++ [.entered site scene]) ∧
          ∀ before site scene next after holds every, ys = before ++ .entered site scene :: next :: after →
            sys.nodeAt site = some (.condition holds every) →
            (∀ x ∈ xs ++ before, ¬ x.Touches ⟨site, scene.context.depth⟩) →
            (sys.Leads m.runs.store ⟨[tree], 0⟩ ⟨site, scene.context.depth⟩ → Asks holds site scene next) ∧
            (¬ sys.Leads m.runs.store ⟨[tree], 0⟩ ⟨site, scene.context.depth⟩ →
              Replies holds every site scene next (m.runs.store.slot ⟨site, scene.context.depth⟩)) := by
  have followable := h.followable modest
  obtain ⟨m₁, ok, swept⟩ := System.reset_sweeps followable tree fire
  refine ⟨m₁, ok, fun m₂ onward => ?_⟩
  have followable₁ := swept.followable followable
  have followable₂ := onward.followable modest followable₁
  obtain ⟨xs, history, kept⟩ := onward.kept modest followable₁
  refine ⟨xs, history, fun top delta state => ?_⟩
  obtain ⟨ys, more, -, opens, replied, left⟩ :=
    (System.tick_ticked modest followable₂ top delta state).recalls followable₂
  refine ⟨ys, more, fun status m' ran before site scene same => ?_, ?_⟩
  · have path := left status m' ran
    rw [same, System.pathAfter_add] at path
    cases path
  · intro before site scene next after holds every same hn untouched
    obtain ⟨earlier, now⟩ := List.forall_mem_append.mp untouched
    have plain : ¬ sys.Counted ⟨site, scene.context.depth⟩ := fun counted => counted holds every hn
    have reply := replied before site scene next after same holds every hn
    rw [opens before site scene _ same plain now, kept _ plain earlier] at reply
    refine ⟨fun leads => ?_, fun aside => ?_⟩
    · rwa [(swept.cleared leads).silent plain] at reply
    · rwa [Classical.not_not.mp fun changed => aside (swept.only _ changed)] at reply

/-! ## A condition alone, and one in a sequence -/

/-- The next of some answers. -/
def script : Predicate (List Bool) Unit := fun _ answers => (answers.headD true, answers.tail)

/-- The same condition as a root, and below one; its answer counts for ten seconds. -/
def asking : System (List Bool) Unit where
  trees := #[{ name := "alone", root := .condition script ⟨10, by decide⟩ },
    { name := "inside", root := .sequence [.condition script ⟨10, by decide⟩] }]

theorem asking_modest : asking.Modest True := by
  refine System.forall_nodes fun tree h => ?_
  simp only [asking, List.mem_toArray, List.mem_cons, List.not_mem_nil, or_false] at h
  rcases h with rfl | rfl
  · exact .leaf trivial rfl
  · exact .mk trivial (List.forall_mem_singleton.mpr (.leaf trivial rfl))

/-- The answers are yes and then no. -/
def askingStart : Machine (Recorded (List Bool) Unit) (List Bool) Unit :=
  { context := {}, memory := [true, false], runs := { store := {} } }

/-- Whether two ticks of a second, with a reset between them, end with these answers; the second one enters
the root and leaves it, and asks. -/
def aloneWatched : Run (Recorded (List Bool) Unit) (List Bool) Unit Bool := do
  let first ← asking.tick .recording 0 1 none
  asking.reset .recording 0 false
  let between ← get
  let second ← asking.tick .recording 0 1 none
  let after ← get
  return first = .success ∧ second = .failure ∧
    (after.runs.history.drop between.runs.history.length).map (fun x => (x.follow [], x.scene.memory)) =
      [([⟨[0], 0⟩], [false]), ([], [])]

/-- The root is reset, and asks again. -/
theorem alone_asks_again : ∃ m₁ m₂ m₃ scene next, asking.tick .recording 0 1 none askingStart = .ok .success m₁ ∧
    asking.reset .recording 0 false m₁ = .ok () m₂ ∧ asking.tick .recording 0 1 none m₂ = .ok .failure m₃ ∧
    m₃.runs.history = m₂.runs.history ++ [.entered [0] scene, next] ∧ scene.memory = [false] ∧
    Asks script [0] scene next := by
  obtain ⟨_, ran⟩ := Run.ok_of_answer (a := aloneWatched) (m := askingStart) (x := true) (by decide +kernel)
  simp only [aloneWatched, Run.bind_eq_ok, Run.get_eq_ok, Run.pure_eq_ok, decide_eq_true_eq] at ran
  obtain ⟨_, m₁, first, ⟨⟩, m₂, reset, _, _, ⟨rfl, rfl⟩, _, m₃, second, _, _, ⟨rfl, rfl⟩, ⟨rfl, rfl, seen⟩, rfl⟩ := ran
  have continued : asking.Continued m₁ := ⟨askingStart, Store.slot_empty, Run.last_ok first ▸ .tick 0 1 none .refl⟩
  obtain ⟨_, ok, recalled⟩ := reset_recalls asking asking_modest m₁ continued 0 false
  cases ok.symm.trans reset
  obtain ⟨xs, same, ticked⟩ := recalled m₂ .refl
  obtain rfl : xs = [] := List.append_cancel_left (same.symm.trans (List.append_nil _).symm)
  obtain ⟨ys, history, -, replies⟩ := ticked 0 1 none
  rw [Run.last_ok second] at history
  rw [history, List.drop_left, List.map_eq_cons_iff] at seen
  obtain ⟨x, ys, rfl, here, seen⟩ := seen
  rw [List.map_eq_singleton_iff] at seen
  obtain ⟨next, rfl, -⟩ := seen
  obtain ⟨path, memory⟩ := Prod.mk.inj here
  obtain ⟨scene, rfl, depth⟩ : ∃ scene, x = .entered [0] scene ∧ scene.context.depth = 0 := by
    cases x with
    | entered site scene =>
      simp only [Moment.follow, List.cons.injEq, Place.mk.injEq, and_true] at path
      exact ⟨scene, path.1 ▸ rfl, path.2⟩
    | left | abandoned => cases path
  refine ⟨m₁, m₂, m₃, scene, next, first, reset, second, history, memory, ?_⟩
  exact (replies [] [0] scene next [] script _ rfl rfl (by simp)).1 (depth ▸ .refl)

/-- Whether two ticks of a second, with a reset between them, both end well, and the second one asks nothing. -/
def insideWatched : Run (Recorded (List Bool) Unit) (List Bool) Unit Bool := do
  let first ← asking.tick .recording 1 1 none
  asking.reset .recording 1 false
  let between ← get
  let second ← asking.tick .recording 1 1 none
  let after ← get
  return first = .success ∧ second = .success ∧ between.memory = [false] ∧ after.memory = [false]

/-- Below a sequence the condition is not asked again: the tick after the reset ends well once more, where the
first tick of the tree would fail. -/
theorem reset_leaves_answer : asking.Modest True ∧ ∃ m₁ m₂ m₃ fresh,
    asking.tick .recording 1 1 none askingStart = .ok .success m₁ ∧ asking.reset .recording 1 false m₁ = .ok () m₂ ∧
    asking.tick .recording 1 1 none m₂ = .ok .success m₃ ∧ m₃.memory = m₂.memory ∧
    asking.tick .recording 1 1 none { askingStart with memory := m₂.memory } = .ok .failure fresh := by
  refine ⟨asking_modest, ?_⟩
  obtain ⟨_, ran⟩ := Run.ok_of_answer (a := insideWatched) (m := askingStart) (x := true) (by decide +kernel)
  obtain ⟨fresh, failed⟩ := Run.ok_of_answer (a := asking.tick .recording 1 1 none)
    (m := { askingStart with memory := [false] }) (x := .failure) (by decide +kernel)
  simp only [insideWatched, Run.bind_eq_ok, Run.get_eq_ok, Run.pure_eq_ok, decide_eq_true_eq] at ran
  obtain ⟨_, m₁, first, ⟨⟩, m₂, reset, _, _, ⟨rfl, rfl⟩, _, m₃, second, _, _, ⟨rfl, rfl⟩,
    ⟨rfl, rfl, between, after⟩, rfl⟩ := ran
  exact ⟨m₁, m₂, m₃, fresh, first, reset, second, after.trans between.symm, between ▸ failed⟩

end BehaviorTree
