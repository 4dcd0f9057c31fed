/-
  BehaviorTree.Proofs.CleanExit: what a node leaves when its tick returns.

  In every history of ticks and resets of one tree, a node that ended has nothing left
  below it, and below a node that is still running every child with something left is one
  that its parent records (`left_clean`).
-/

import BehaviorTree.Proofs.History
import BehaviorTree.Proofs.ResetComplete

namespace BehaviorTree

variable {μ σ : Type}

/-- A node that ended left nothing; one that is running left something below recorded children only. -/
def System.CleanMoment (sys : System μ σ) : Moment μ σ → Prop
  | .left site status scene =>
    (status.isTerminal = true → ∀ q, sys.Below ⟨site, scene.context.depth⟩ q → sys.Counted q →
      scene.store.slot q = .idle) ∧
    (status = .running → ∀ p, sys.Below ⟨site, scene.context.depth⟩ p → ∀ c, sys.Child p c →
      (∃ q, sys.Below c q ∧ sys.Counted q ∧ scene.store.slot q ≠ .idle) → sys.Records scene.store p c)
  | _ => True

namespace Setting

/-- On the recording stage every moment is to be a clean one. -/
def recording (sys : System μ σ) (exclusive : sys.Exclusive) (tame : sys.Tame) (limits : Limits) :
    Setting (Recorded μ σ) μ σ where
  sys := sys
  exclusive := exclusive
  asks := False
  mild := tame.mild
  stage := .recording
  limits := limits
  Tidy r := ∀ x ∈ r.history, sys.CleanMoment x
  tidy_onStore _ _ := id
  Counts _ := sys.Counted
  counted _ _ := id
  counts_onStore _ _ _ := id

variable {sys : System μ σ} {exclusive : sys.Exclusive} {tame : sys.Tame} {limits : Limits}

variable (exclusive tame limits) in
/-- Writing down a clean moment is work that touches no slot. -/
theorem recording_still (x : Moment μ σ) (clean : sys.CleanMoment x) (m : Machine (Recorded μ σ) μ σ) :
    (recording sys exclusive tame limits).Still m (Recorded.add x m) where
  slots _ := rfl
  height := rfl
  depth := rfl
  maxDepth := rfl
  stack := rfl
  calm := id
  tidy h y hy := by
    rcases List.mem_append.mp hy with hy | hy
    · exact h y hy
    · exact List.mem_singleton.mp hy ▸ clean
  fewer _ := id

/-- A tick that went well leaves its node at a clean moment. -/
theorem Ended.clean {site : Address} {d : Nat} {st : Status} {m m' : Machine (Recorded μ σ) μ σ}
    (h : (recording sys exclusive tame limits).Ended ⟨site, d⟩ m st m') (depth : m'.context.depth = d) :
    sys.CleanMoment (.left site st (Recorded.scene m')) := by
  subst depth
  refine ⟨fun terminal q hq hc => h.vacant terminal q hq hc, fun _ p hp c hc ⟨q, hq, counted, left⟩ => ?_⟩
  refine Classical.byContradiction fun unrecorded => left ?_
  exact (h.sound p hp).rest c hc unrecorded q hq counted

theorem recording_faithful : (recording sys exclusive tame limits).Faithful where
  reset deep site b h m depth fire bounded tidy sound hd := by
    have still := recording_still exclusive tame limits
      (.abandoned site depth fire (Recorded.scene m)) trivial m
    obtain ⟨m', ok, a⟩ := h _ depth fire ((still.moves ⟨site, depth⟩).bounded bounded) (still.tidy tidy)
      (sound.congr still.fewer fun q _ => still.slots q) hd
    exact ⟨m', ok, (still.moves _).trans a.moves, a.context, a.height, a.sound, a.vacant, a.told⟩
  tick site b h d m st m' ready ok := by
    obtain ⟨m₁, ticked, rfl⟩ := recording_tick_ok ok
    have entered := recording_still exclusive tame limits
      (.entered site (Recorded.scene m)) trivial m
    have ended := h d _ st m₁ (ready.still entered) ticked
    have left := recording_still exclusive tame limits _
      (ended.clean (ended.moves.depth.trans ready.depth)) m₁
    exact Ended.exited ⟨((entered.moves _).trans ended.moves).trans (left.moves _), ended.sound, ended.vacant,
      ended.returning⟩ id

end Setting

/-- Whether something is remembered. -/
def Slot.used : Slot σ → Bool
  | .idle => false
  | _ => true

/-- The last moment of a tick, if the root is left running, with the depth there and whether the child
of the scope remembers something. -/
def nestedMoment : Moment (List Status) Unit → Option (Nat × Bool)
  | .left [0] .running scene => some (scene.context.depth, (scene.store.slot ⟨[0, 0], 0⟩).used)
  | _ => none

/-- A tick that is written down, and its last moment. -/
def nestedWatched : Run (Recorded (List Status) Unit) (List Status) Unit (Option (Nat × Bool)) := do
  let _ ← nested.tick .recording 0 0 none
  let after ← get
  return after.runs.history.getLast?.bind nestedMoment

end BehaviorTree
