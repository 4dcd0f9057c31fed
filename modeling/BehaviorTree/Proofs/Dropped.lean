/-
  BehaviorTree.Proofs.Dropped: what is left below a node that ended.

  Callbacks may ask for an early return while their node is running. On the way up to the
  scope some nodes forget the child that is still running then, and what the scope abandons
  does not reach it. That is the only way in which anything of a run is lost: whatever is
  left below a node that ended lies where a child was dropped so at an earlier moment
  (`left_or_dropped`), and what the children that were not dropped remember is recorded.
-/

import BehaviorTree.Proofs.CleanExit
import BehaviorTree.Proofs.Unwinding

namespace BehaviorTree

variable {μ σ : Type}

namespace System

variable (sys : System μ σ)

/-- The moment drops what is remembered at a place: a child at or above it is left running with a request to
return early, and its parent is one that forgets it. -/
def Drops (q : Place) : Moment μ σ → Prop
  | .left site .running scene => sys.Dropped ⟨site, scene.context.depth⟩ ∧
    scene.context.returnRequest.isSome = true ∧ sys.Below ⟨site, scene.context.depth⟩ q
  | _ => False

/-- A node that was left after these moments: if it ended it left nothing but what they dropped, and if it is
running the children with something else left are recorded. -/
def LeftTo (before : List (Moment μ σ)) : Moment μ σ → Prop
  | .left site status scene =>
    (status.isTerminal = true → ∀ q, sys.Below ⟨site, scene.context.depth⟩ q → sys.Counted q →
      scene.store.slot q ≠ .idle → ∃ x ∈ before, sys.Drops q x) ∧
    (status = .running → ∀ p, sys.Below ⟨site, scene.context.depth⟩ p → ∀ c, sys.Child p c →
      ∀ q, sys.Below c q → sys.Counted q → scene.store.slot q ≠ .idle →
        sys.Records scene.store p c ∨ ∃ x ∈ before, sys.Drops q x)
  | _ => True

end System

namespace Setting

/-- On the recording stage what was dropped does not count any more, and every node is left so. -/
def asking (sys : System μ σ) (exclusive : sys.Exclusive) (mild : sys.Mild True) (limits : Limits) :
    Setting (Recorded μ σ) μ σ where
  sys := sys
  exclusive := exclusive
  asks := True
  mild := mild
  stage := .recording
  limits := limits
  Tidy r := ∀ before x after, r.history = before ++ x :: after → sys.LeftTo before x
  tidy_onStore _ _ := id
  Counts r q := sys.Counted q ∧ ∀ x ∈ r.history, ¬ sys.Drops q x
  counted _ _ := And.left
  counts_onStore _ _ _ := id

variable {sys : System μ σ} {exclusive : sys.Exclusive} {mild : sys.Mild True} {limits : Limits}

variable (exclusive mild limits) in
/-- Writing down a moment is work that touches no slot. -/
theorem asking_still (x : Moment μ σ) (m : Machine (Recorded μ σ) μ σ) (tidy : sys.LeftTo m.runs.history x) :
    (asking sys exclusive mild limits).Still m (Recorded.add x m) where
  slots _ := rfl
  height := rfl
  depth := rfl
  maxDepth := rfl
  stack := rfl
  calm := id
  tidy h before y after same := by
    rcases append_eq_split same with ⟨ws, earlier, -⟩ | ⟨ws, rfl, here⟩
    · exact h before y ws earlier
    · obtain ⟨rfl, rfl⟩ : ws = [] ∧ x = y := by
        cases ws with
        | nil => exact ⟨rfl, (List.cons.inj here).1⟩
        | cons w ws => simp at here
      rwa [List.append_nil]
  fewer _ counts := ⟨counts.1, fun y hy => counts.2 y (List.mem_append_left _ hy)⟩

/-- What is left at a place where all that counts is vacant was dropped. -/
theorem Vacant.dropped {m : Machine (Recorded μ σ) μ σ} {p q : Place}
    (h : (asking sys exclusive mild limits).Vacant m p) (below : sys.Below p q) (counted : sys.Counted q)
    (left : m.runs.store.slot q ≠ .idle) : ∃ x ∈ m.runs.history, sys.Drops q x := by
  refine Classical.byContradiction fun none => left ?_
  exact h q below ⟨counted, fun x hx drops => none ⟨x, hx, drops⟩⟩

/-- A tick that went well leaves its node so. -/
theorem Ended.leftTo {site : Address} {d : Nat} {st : Status} {m m' : Machine (Recorded μ σ) μ σ}
    (h : (asking sys exclusive mild limits).Ended ⟨site, d⟩ m st m') (depth : m'.context.depth = d) :
    sys.LeftTo m'.runs.history (.left site st (Recorded.scene m')) := by
  subst depth
  refine ⟨fun terminal q below counted left => (h.vacant terminal).dropped below counted left, ?_⟩
  intro _ p hp c hc q below counted left
  by_cases recorded : sys.Records m'.runs.store p c
  · exact .inl recorded
  · exact .inr (Vacant.dropped ((h.sound p hp).rest c hc recorded) below counted left)

theorem asking_faithful : (asking sys exclusive mild limits).Faithful where
  reset deep site b h m depth fire bounded tidy sound hd := by
    have still := asking_still exclusive mild limits (.abandoned site depth fire (Recorded.scene m)) m trivial
    obtain ⟨m', ok, a⟩ := h _ depth fire ((still.moves ⟨site, depth⟩).bounded bounded) (still.tidy tidy)
      (sound.congr still.fewer fun q _ => still.slots q) hd
    exact ⟨m', ok, (still.moves _).trans a.moves, a.context, a.height, a.sound, a.vacant, a.told⟩
  tick site b h d m st m' ready ok := by
    obtain ⟨m₁, ticked, rfl⟩ := recording_tick_ok ok
    have entered := asking_still exclusive mild limits (.entered site (Recorded.scene m)) m trivial
    have ended := h d _ st m₁ (ready.still entered) ticked
    have depth : m₁.context.depth = d := ended.moves.depth.trans ready.depth
    have left := asking_still exclusive mild limits _ m₁ (ended.leftTo depth)
    refine ⟨⟨((entered.moves _).trans ended.moves).trans (left.moves _),
      ended.sound.congr left.fewer fun q _ => left.slots q,
      fun terminal => (ended.vacant terminal).congr left.fewer fun q _ => left.slots q, fun _ => .inr trivial⟩, ?_⟩
    intro dropped pending q below counts
    by_cases running : st = .running
    · -- the moment that was just written down drops all this
      subst depth running
      exact absurd ⟨dropped, pending, below⟩ (counts.2 _ (List.mem_append_right _ (List.mem_singleton_self _)))
    · exact ended.vacant (Status.isTerminal_iff.mpr running) q below (left.fewer q counts)

end Setting

/-- In every history of ticks and resets of one tree whose callbacks tick and reset no tree, but may ask for
early returns: what is left below a node that ended was dropped before, and below a node that is running what
is left was dropped or is recorded. -/
theorem left_or_dropped (sys : System μ σ) (exclusive : sys.Exclusive) (mild : sys.Mild True) (top : TreeId)
    (initial : Store σ) (fresh : ∀ p, initial.slot p = .idle) (m : Machine (Recorded μ σ) μ σ)
    (reached : sys.Reached .recording top { store := initial } m) (before after : List (Moment μ σ)) (site : Address)
    (status : Status) (scene : Scene μ σ) (split : m.runs.history = before ++ .left site status scene :: after) :
    (status.isTerminal = true → ∀ q, sys.Below ⟨site, scene.context.depth⟩ q → sys.Counted q →
      scene.store.slot q ≠ .idle → ∃ x ∈ before, sys.Drops q x) ∧
    (status = .running → ∀ p, sys.Below ⟨site, scene.context.depth⟩ p → ∀ c, sys.Child p c →
      ∀ q, sys.Below c q → sys.Counted q → scene.store.slot q ≠ .idle →
        sys.Records scene.store p c ∨ ∃ x ∈ before, sys.Drops q x) := by
  let S := Setting.asking sys exclusive mild (sys.limitsOf top)
  have idle : ∀ p, (S.stage.store { store := initial }).slot p = .idle := fresh
  have settled : S.Settled top m := Setting.reached_settled Setting.asking_faithful rfl idle
    (fun before x after none => by simp at none) reached
  exact settled.tidy before _ after split

/-! ## A timer that is lost -/

/-- Asks for an early return, if it is to, the first time; it goes on running in any case. -/
def asksOnce : Callback Bool Unit Status :=
  .look fun _ asks => .remember (fun _ => false) <|
    if asks then .requestReturn .success (.done .running) else .done .running

/-- A scope around a sequence, with a timer of two seconds in between and an action that asks. -/
def hasty : System Bool Unit where
  trees := #[{ name := "hasty", root := .scope {} (.sequence [.timeout ⟨2, by decide⟩ (.action asksOnce)]) }]

/-- What the nodes of the tree are. -/
def Node.IsHasty : Node Bool Unit → Prop
  | .scope hooks _ => hooks.onEnter = .done ()
  | .action body => body = asksOnce
  | .sequence _ | .timeout _ _ => True
  | _ => False

theorem hasty_nodes (site : Address) (node : Node Bool Unit) (hn : hasty.nodeAt site = some node) : node.IsHasty := by
  refine System.forall_nodes (fun tree h => ?_) site node hn
  simp only [hasty, List.mem_toArray, List.mem_cons, List.not_mem_nil, or_false] at h
  subst h
  refine .mk rfl (List.forall_mem_singleton.mpr (.mk trivial (List.forall_mem_singleton.mpr (.mk trivial ?_))))
  exact List.forall_mem_singleton.mpr (.leaf rfl rfl)

theorem hasty_exclusive : hasty.Exclusive := by
  intro site₁ site₂ _ _ _ _ _ h₁ _ _ _
  exact absurd (hasty_nodes _ _ h₁) id

theorem hasty_mild : hasty.Mild True := by
  intro site node hn
  have here := hasty_nodes site node hn
  cases node with
  | action body =>
    obtain rfl : body = asksOnce := here
    intro _ asks
    show Callback.Mild True (if asks then _ else _)
    split
    · exact ⟨trivial, trivial⟩
    · trivial
  | scope hooks child =>
    show hooks.onEnter.Mild True
    rw [show hooks.onEnter = .done () from here]
    trivial
  | custom => exact absurd here id
  | _ => trivial

/-- The action is to ask. -/
def hastyStart : Machine (Recorded Bool Unit) Bool Unit := { context := {}, memory := true, runs := { store := {} } }

/-- The place of the timer. -/
def hastyTimer : Place := ⟨[0, 0, 0], 0⟩

/-- The depth at which the root ends well, and whether the timer remembers something then. -/
def hastyMoment : Moment Bool Unit → Option (Nat × Bool)
  | .left [0] .success scene => some (scene.context.depth, (scene.store.slot hastyTimer).used)
  | _ => none

/-- Whether the tick ends well, and what its last moment is. -/
def hastyWatched : Run (Recorded Bool Unit) Bool Unit Bool := do
  let status ← hasty.tick .recording 0 1 none
  let after ← get
  return status = .success ∧ after.runs.history.getLast?.bind hastyMoment = some (0, true)

/-- The scope ends well over a timer that remembers something: it was dropped before. -/
theorem hasty_drops : ∃ m before scene, hasty.tick .recording 0 1 none hastyStart = .ok .success m ∧
    m.runs.history = before ++ [.left [0] .success scene] ∧ scene.store.slot hastyTimer ≠ .idle ∧
    ∃ x ∈ before, hasty.Drops hastyTimer x := by
  obtain ⟨_, ran⟩ := Run.ok_of_answer (a := hastyWatched) (m := hastyStart) (x := true) (by decide +kernel)
  simp only [hastyWatched, Run.bind_eq_ok, Run.get_eq_ok, Run.pure_eq_ok, decide_eq_true_eq] at ran
  obtain ⟨_, m, ticked, _, _, ⟨rfl, rfl⟩, ⟨rfl, moment⟩, rfl⟩ := ran
  obtain ⟨x, last, hx⟩ := Option.bind_eq_some_iff.mp moment
  obtain ⟨before, history⟩ := List.getLast?_eq_some_iff.mp last
  unfold hastyMoment at hx
  split at hx
  · rename_i scene
    simp only [Option.some.injEq, Prod.mk.injEq] at hx
    obtain ⟨depth, used⟩ := hx
    have remembered : scene.store.slot hastyTimer ≠ .idle := fun idle => by simp [idle, Slot.used] at used
    refine ⟨m, before, scene, ticked, history, remembered, ?_⟩
    obtain ⟨dropped, -⟩ := left_or_dropped hasty hasty_exclusive hasty_mild 0 {} Store.slot_empty m
      (.tick (.start rfl) ticked) before [] [0] .success scene history
    rw [depth] at dropped
    have sequence : hasty.Child ⟨[0], 0⟩ ⟨[0, 0], 0⟩ := .inside (i := 0) rfl (by decide)
    have timer : hasty.Child ⟨[0, 0], 0⟩ hastyTimer := .inside (i := 0) rfl (by decide)
    exact dropped rfl hastyTimer (sequence.below.trans timer.below)
      (fun _ _ hn => absurd (hasty_nodes _ _ hn) id) remembered
  · cases hx

/-- Whether two ticks of a second end so. -/
def hastyTwice : Run (Recorded Bool Unit) Bool Unit Bool := do
  let first ← hasty.tick .recording 0 1 none
  let between ← get
  let second ← hasty.tick .recording 0 1 none
  return first = .success ∧ second = .failure ∧ between.memory = false ∧
    (between.runs.store.slot hastyTimer).used = true

/-- The timer goes on in the next run of the scope and ends it a second early. -/
theorem timer_outlives_scope : hasty.Exclusive ∧ ∃ m₁ m₂ fresh,
    hasty.tick .recording 0 1 none hastyStart = .ok .success m₁ ∧ m₁.runs.store.slot hastyTimer ≠ .idle ∧
    hasty.tick .recording 0 1 none m₁ = .ok .failure m₂ ∧
    hasty.tick .recording 0 1 none { hastyStart with memory := m₁.memory } = .ok .running fresh := by
  refine ⟨hasty_exclusive, ?_⟩
  obtain ⟨_, ran⟩ := Run.ok_of_answer (a := hastyTwice) (m := hastyStart) (x := true) (by decide +kernel)
  obtain ⟨fresh, goesOn⟩ := Run.ok_of_answer (a := hasty.tick .recording 0 1 none)
    (m := { hastyStart with memory := false }) (x := .running) (by decide +kernel)
  simp only [hastyTwice, Run.bind_eq_ok, Run.get_eq_ok, Run.pure_eq_ok, decide_eq_true_eq] at ran
  obtain ⟨_, m₁, first, _, _, ⟨rfl, rfl⟩, _, m₂, second, ⟨rfl, rfl, memory, used⟩, rfl⟩ := ran
  exact ⟨m₁, m₂, fresh, first, fun idle => by simp [idle, Slot.used] at used, second, memory ▸ goesOn⟩

end BehaviorTree
