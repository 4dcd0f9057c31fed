/-
  BehaviorTree.Proofs.Overlay: nodes that give their child an overlay of its own.

  What is written below such a node stays in its overlay, unless it is meant for a layer further
  out: seen from outside a tick of the node is a list of such changes, made by nodes entered in
  it (`Outward`). The overlay lives as long as the run: each tick of the child sees the overlay that the
  tick before left, and a fresh run sees an empty one, in whatever order places are ticked and abandoned.
-/

import BehaviorTree.Proofs.Depth
import BehaviorTree.Proofs.Overlay.Trees

namespace BehaviorTree

open Recorded (scene add)

variable {μ σ : Type}

/-! ## What a history tells of the overlay at an address -/

/-- The child is ticked next, over this overlay. -/
def HandsDown (site : Address) (scene : Scene μ σ) (overlay : Board) (after : List (Moment μ σ)) : Prop :=
  ∃ seen rest, after = .entered (0 :: site) seen :: rest ∧ seen.context = scene.context.covered overlay

/-- Runs of a node with an overlay, as the history of a system tells them. -/
structure KeepsOverlays (site : Address) (history : List (Moment μ σ)) : Prop where
  /-- A run that goes on sees the overlay that its last tick left, as the child was left. -/
  resumed : ∀ before last quiet scene after,
    history = before ++ .left site .running last :: (quiet ++ .entered site scene :: after) →
    last.context.depth = scene.context.depth → (∀ x ∈ quiet, ¬ x.At ⟨site, scene.context.depth⟩) →
    ∃ earlier inner, before = earlier ++ [.left (0 :: site) .running inner] ∧
      HandsDown site scene inner.context.layers.innermost after
  /-- The first run sees an empty overlay. -/
  first : ∀ quiet scene after, history = quiet ++ .entered site scene :: after →
    (∀ x ∈ quiet, ¬ x.At ⟨site, scene.context.depth⟩) → HandsDown site scene {} after
  /-- So does a run after one that has ended. -/
  ended : ∀ before first during status last quiet scene after, history = before ++ .entered site first :: during ++
      [.left site status last] ++ quiet ++ .entered site scene :: after →
    status.isTerminal → first.context.depth = scene.context.depth →
    (∀ st s, .left site st s ∈ during → s.context.depth ≠ first.context.depth) →
    (∀ x ∈ quiet, ¬ x.At ⟨site, scene.context.depth⟩) → HandsDown site scene {} after
  /-- So does a run after one that was abandoned. -/
  abandoned : ∀ before fire s quiet scene after, history = before ++ [.abandoned site scene.context.depth fire s] ++
      quiet ++ .entered site scene :: after →
    (∀ x ∈ quiet, ¬ x.At ⟨site, scene.context.depth⟩) → HandsDown site scene {} after

namespace System

variable {sys : System μ σ} {site : Address} {child : Node μ σ} {history : List (Moment μ σ)}

/-- The overlay is the one that the history leaves at the place. -/
theorem Hands.keepsOverlays (h : sys.Hands [] history) (here : sys.nodeAt site = some (.localScope child)) :
    KeepsOverlays site history where
  resumed before last quiet scene after same depth elsewhere := by
    obtain ⟨earlier, inner, rfl, -⟩ := h.leaves before site .running last _ child same here
    have regrouped : history = earlier ++ [Moment.left (0 :: site) .running inner, .left site .running last] ++ quiet ++
        .entered site scene :: after := by rw [same]; simp
    obtain ⟨seen, rest, next, covered⟩ := h.enters _ site scene after child regrouped here
    refine ⟨earlier, inner, rfl, seen, rest, next, covered.trans ?_⟩
    rw [List.nil_append, overlayLeft_quiet elsewhere, ← depth, overlayLeft_running]
    rfl
  first quiet scene after same elsewhere := by
    obtain ⟨seen, rest, next, covered⟩ := h.enters _ site scene after child same here
    refine ⟨seen, rest, next, covered.trans ?_⟩
    rw [overlayLeft_quiet elsewhere]
    rfl
  ended before first during status last quiet scene after same terminal depth once elsewhere := by
    obtain ⟨seen, rest, next, covered⟩ := h.enters _ site scene after child same here
    refine ⟨seen, rest, next, covered.trans ?_⟩
    rw [List.nil_append, overlayLeft_quiet elsewhere, ← depth, overlayLeft_terminal terminal once]
    rfl
  abandoned before fire s quiet scene after same elsewhere := by
    obtain ⟨seen, rest, next, covered⟩ := h.enters _ site scene after child same here
    refine ⟨seen, rest, next, covered.trans ?_⟩
    rw [List.nil_append, overlayLeft_quiet elsewhere, overlayLeft_abandoned, if_pos rfl]
    rfl

/-! ## All that happens to a system -/

/-- Whatever a run comes to, the overlays are handed on. -/
theorem handed_last {α : Type} {a : Run (Recorded μ σ) μ σ α} (h : (sys.overlaying Nothing).Leads a)
    (m : Machine (Recorded μ σ) μ σ) : ∃ xs, sys.Handed m (a.last m) xs := by
  have came := h m
  unfold Run.last
  generalize a m = r at came
  cases came with
  | ok goes =>
    obtain ⟨xs, handed, -⟩ := goes.told
    exact ⟨xs, handed⟩
  | error breaks => exact breaks

/-- Overlays are handed on over any number of ticks and resets. -/
theorem Onward.handed {start m : Machine (Recorded μ σ) μ σ} (h : sys.Onward start m) : ∃ xs, sys.Handed start m xs := by
  induction h with
  | refl => exact ⟨[], .refl _⟩
  | between context memory journal heard _ slots height ih =>
    obtain ⟨xs, handed⟩ := ih
    exact ⟨_, handed.trans (.same_slots rfl fun q => slots _ q)⟩
  | @tick m tree delta state _ ih =>
    obtain ⟨xs, handed⟩ := ih
    have ticks : (sys.overlaying Nothing).Leads (sys.tick .recording tree delta state) :=
      .tickWith (tickRoot_leads (nestedHost_hosts nestingBound))
    obtain ⟨ys, more⟩ := handed_last ticks m
    exact ⟨xs ++ ys, handed.trans more⟩
  | @reset m tree fire _ ih =>
    obtain ⟨xs, handed⟩ := ih
    obtain ⟨ys, more⟩ := handed_last (resetAt_leads tree 0 fire) m
    exact ⟨xs ++ ys, handed.trans more⟩

/-- From a start at which nothing is in progress, the overlays are handed on. -/
theorem Onward.hands {start m : Machine (Recorded μ σ) μ σ} (h : sys.Onward start m)
    (idle : ∀ p, start.runs.store.slot p = .idle) (blank : start.runs.history = []) : sys.Hands [] m.runs.history := by
  obtain ⟨xs, handed⟩ := h.handed
  have threaded : sys.Threaded start := fun p _ _ => by rw [blank]; exact idle p
  have hands := (handed.threads threaded).2
  rwa [handed.history, blank, List.nil_append, ← blank]

/-! ## What is written below an overlay -/

/-- A node in place, as the trees of a system run it. -/
def placed (sys : System μ σ) (nesting levels : Nat) (site : Address) (node : Node μ σ) :
    Behaviour (Recorded μ σ) μ σ :=
  let host := sys.nestedHost .recording nesting
  node.behaviour (sys.tickLinks .recording host (sys.tickRoot .recording host levels)) site

variable {nesting levels : Nat} {m m' : Machine (Recorded μ σ) μ σ} {status : Status}

theorem enfolds_placed (nesting levels : Nat) :
    sys.Enfolds (sys.tickLinks .recording (sys.nestedHost .recording nesting)
      (sys.tickRoot .recording (sys.nestedHost .recording nesting) levels)) :=
  enfolds_ticks (nestedHost_hosts nesting) fun tree => tickRoot_leads (nestedHost_hosts nesting) levels tree

/-- Around the node, the layers are as the outward changes of the nodes entered meanwhile leave them. -/
theorem confined_localScope (here : sys.nodeAt site = some (.localScope child))
    (ticked : (sys.placed nesting levels site (.localScope child)).tick m = .ok status m') :
    ∃ (xs : List (Moment μ σ)) (ws : List Outward), m'.runs.history = m.runs.history ++ xs ∧
      (∀ w ∈ ws, sys.Made xs w) ∧ m'.context.layers = ws.foldl Outward.on m.context.layers := by
  have below := node_heeded (enfolds_placed nesting levels) child (0 :: site) (sys.nodeAt_child here rfl)
  unfold placed at ticked
  rw [Node.behaviour.eq_def] at ticked
  have ticked := (recording_localScope site _ m).symm.trans ticked
  split at ticked
  · next st n ran =>
    cases ticked
    obtain ⟨xs, -, -, closed, changed⟩ := overlaid_localScope here below ran
    obtain ⟨ws, made, after⟩ := changed 1 Nat.one_pos (Nat.succ_le_succ (Nat.zero_le _))
    refine ⟨_, ws, closed.history, fun w hw => ((made w hw).right [_]).left [_], ?_⟩
    exact (Layers.outside_pop (n := 0)).trans after
  · cases ticked

/-- Abandoning its run leaves the layers alone. -/
theorem reset_localScope_layers {d : Nat} {fire : Bool}
    (reset : (sys.placed nesting levels site (.localScope child)).reset d fire m = .ok () m') :
    m'.context.layers = m.context.layers := by
  have around : sys.Enfolds _ := enfolds_placed nesting levels
  have quiet := node_resets _ around.quiet (around.watch ▸ recording_offstage) (.localScope child) site
  rw [(quiet d fire m () m' reset).context]

end System

/-- In every system, of each node that puts an overlay under its child: a tick of it does to the layers around the
overlay just the outward changes of nodes that are entered meanwhile, and abandoning its run does nothing to them;
and wherever ticks and resets of any trees lead, runs that go on find the overlay that their last tick left, and
fresh runs find an empty one. -/
theorem overlays_confined (sys : System μ σ) (site : Address) (child : Node μ σ)
    (here : sys.nodeAt site = some (.localScope child)) :
    (∀ nesting levels m status m', (sys.placed nesting levels site (.localScope child)).tick m = .ok status m' →
      ∃ (xs : List (Moment μ σ)) (ws : List Outward), m'.runs.history = m.runs.history ++ xs ∧
        (∀ w ∈ ws, sys.Made xs w) ∧ m'.context.layers = ws.foldl Outward.on m.context.layers) ∧
    (∀ nesting levels m d fire m', (sys.placed nesting levels site (.localScope child)).reset d fire m = .ok () m' →
      m'.context.layers = m.context.layers) ∧
    ∀ start m, (∀ p, start.runs.store.slot p = .idle) → start.runs.history = [] → sys.Onward start m →
      KeepsOverlays site m.runs.history :=
  ⟨fun _ _ _ _ _ => System.confined_localScope here, fun _ _ _ _ _ _ => System.reset_localScope_layers,
    fun _ _ idle blank onward => (onward.hands idle blank).keepsOverlays here⟩

/-! ## A value that waits -/

/-- Writes one value to the overlay and one to all layers, and waits for another tick. -/
def jot : Node Unit Unit :=
  .localScope (.sequence [
    .action (.edit (.layer 0) (.set .int32 1 7) (.setGlobal .int32 2 9 (.done .success))), .pause])

/-- It is the whole tree. -/
def jotting : System Unit Unit where
  trees := #[{ name := "jot", root := jot }]

/-- Nothing happened yet. -/
def jottingStart : Machine (Recorded Unit Unit) Unit Unit :=
  { context := {}, memory := (), runs := { store := {} } }

/-- The first value as seen by the sequence when a tick enters it. -/
def jotted : Moment Unit Unit → Option (Option Int32)
  | .entered [0, 0] scene => some (scene.context.layers.get? .int32 1)
  | _ => none

/-- Two ticks: their answers, what the sequence saw at first, and both values outside the overlay. -/
def jottingRun : Run (Recorded Unit Unit) Unit Unit
    (List Status × List (Option Int32) × Option Int32 × Option Int32) := do
  let answer ← jotting.tick .recording 0 1 none
  let again ← jotting.tick .recording 0 1 none
  let m ← get
  return ([answer, again], m.runs.history.filterMap jotted, m.context.layers.get? .int32 1, m.context.layers.get? .int32 2)

/-- The second tick finds what the first one wrote to the overlay. Outside there is only the other value. -/
theorem jot_waits : ∃ m, jotting.Onward jottingStart m ∧ KeepsOverlays [0] m.runs.history ∧
    m.runs.history.filterMap jotted = [none, some 7] ∧ m.context.layers.get? .int32 1 = none ∧
    m.context.layers.get? .int32 2 = some 9 := by
  obtain ⟨_, ran⟩ := Run.ok_of_answer (a := jottingRun) (m := jottingStart)
    (x := ([.running, .success], [none, some 7], none, some 9)) (by decide +kernel)
  simp only [jottingRun, Run.bind_eq_ok, Run.get_eq_ok, Run.pure_eq_ok, Prod.mk.injEq] at ran
  obtain ⟨_, m, first, _, n, second, _, _, ⟨rfl, rfl⟩, ⟨_, seen, inside, outside⟩, rfl⟩ := ran
  have onward : jotting.Onward jottingStart n := by
    have once : jotting.Onward jottingStart _ := System.Onward.refl.tick 0 1 none
    rw [Run.last_ok first] at once
    rw [← Run.last_ok second]
    exact once.tick 0 1 none
  have kept := (overlays_confined jotting [0] _ rfl).2.2 jottingStart n (fun _ => rfl) rfl onward
  exact ⟨n, onward, kept, seen, inside, outside⟩

end BehaviorTree
