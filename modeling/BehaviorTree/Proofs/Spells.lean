/-
  BehaviorTree.Proofs.Spells: what a node sees of whoever ticks and resets it.

  At each call depth a node sees its own answers and the resets that reach it, in order. A run
  of it is open while the last it saw is a tick that left it running. Where no reset comes
  while no run is open, what it sees falls into spells: ticks that leave it running, and then
  one terminal tick or one reset (`notices_split`).
-/

import Mathlib.Data.List.Induction
import BehaviorTree.Proofs.History
import BehaviorTree.Proofs.Passage
import BehaviorTree.Proofs.Place

namespace BehaviorTree

variable {μ σ : Type}

/-- What a node sees: that it answered a tick, or that it is reset. -/
inductive Notice where
  | ticked (status : Status)
  | reset (fire : Bool)
  deriving DecidableEq

/-- What the node at a place sees of a moment. -/
def Moment.notice? (p : Place) : Moment μ σ → Option Notice
  | .entered _ _ => none
  | .left site status scene => if ⟨site, scene.context.depth⟩ = p then some (.ticked status) else none
  | .abandoned site depth fire _ => if ⟨site, depth⟩ = p then some (.reset fire) else none

/-- What the node at a place has seen, oldest first. -/
def seen (p : Place) (history : List (Moment μ σ)) : List Notice := history.filterMap (·.notice? p)

/-- The last that the node at a place saw is a tick that left it running. -/
def Open (history : List (Moment μ σ)) (p : Place) : Prop :=
  (seen p history).getLast? = some (.ticked .running)

section
variable {p q : Place} {history : List (Moment μ σ)} {site : Address} {depth : Nat} {fire : Bool} {status : Status}
  {scene : Scene μ σ}

@[simp] theorem open_nil : ¬ Open ([] : List (Moment μ σ)) p := by simp [Open, seen]

theorem seen_add (x : Moment μ σ) : seen p (history ++ [x]) = seen p history ++ (x.notice? p).toList := by
  cases hx : x.notice? p <;> simp [seen, hx]

theorem open_add_unseen {x : Moment μ σ} (unseen : x.notice? p = none) : Open (history ++ [x]) p ↔ Open history p := by
  rw [Open, seen_add, unseen, Option.toList_none, List.append_nil, Open]

theorem open_add_seen {x : Moment μ σ} {notice : Notice} (sees : x.notice? p = some notice) :
    Open (history ++ [x]) p ↔ notice = .ticked .running := by
  rw [Open, seen_add, sees, Option.toList_some, List.getLast?_concat, Option.some.injEq]

theorem open_entered : Open (history ++ [Moment.entered site scene]) p ↔ Open history p := open_add_unseen rfl

theorem open_left :
    Open (history ++ [Moment.left site status scene]) ⟨site, scene.context.depth⟩ ↔ status = .running := by
  have sees : (Moment.left site status scene).notice? ⟨site, scene.context.depth⟩ = some (.ticked status) := if_pos rfl
  rw [open_add_seen sees, Notice.ticked.injEq]

theorem open_left_elsewhere (hne : q ≠ ⟨site, scene.context.depth⟩) :
    Open (history ++ [Moment.left site status scene]) q ↔ Open history q := open_add_unseen (if_neg (Ne.symm hne))

theorem not_open_abandoned : ¬ Open (history ++ [Moment.abandoned site depth fire scene]) ⟨site, depth⟩ := by
  have sees : (Moment.abandoned site depth fire scene).notice? ⟨site, depth⟩ = some (.reset fire) := if_pos rfl
  rw [open_add_seen sees]
  exact nofun

theorem open_abandoned_elsewhere (hne : q ≠ ⟨site, depth⟩) :
    Open (history ++ [Moment.abandoned site depth fire scene]) q ↔ Open history q :=
  open_add_unseen (if_neg (Ne.symm hne))

end

/-! ## Spells -/

/-- A run that is over, as the node sees it: so many ticks leave it running, and then it is closed. -/
structure Spell where
  ticks : Nat
  close : Notice

/-- What the node sees of the run. -/
def Spell.notices (s : Spell) : List Notice := List.replicate s.ticks (.ticked .running) ++ [s.close]

/-- A tick that closes a run is terminal; a reset interrupts a run that is under way. -/
def Spell.Proper (s : Spell) : Prop :=
  match s.close with
  | .ticked status => status.isTerminal = true
  | .reset _ => 0 < s.ticks

/-- Where resets come to open runs only, all that is seen belongs to spells, and to one more run while one
is open. -/
theorem notices_split (xs : List Notice)
    (heeds : ∀ before fire after, xs = before ++ Notice.reset fire :: after →
      before.getLast? = some (.ticked .running)) :
    ∃ (spells : List Spell) (tail : Nat), (∀ s ∈ spells, s.Proper) ∧
      xs = spells.flatMap Spell.notices ++ List.replicate tail (Notice.ticked .running) ∧
      (0 < tail ↔ xs.getLast? = some (.ticked .running)) := by
  induction xs using List.reverseRecOn with
  | nil => exact ⟨[], 0, by simp, rfl, by simp⟩
  | append_singleton xs x ih =>
    obtain ⟨spells, tail, proper, split, under_way⟩ := ih fun before fire after same =>
      heeds before fire (after ++ [x]) (by simp [same])
    by_cases running : x = .ticked .running
    · refine ⟨spells, tail + 1, proper, ?_, by simp [running]⟩
      rw [split, running, List.append_assoc, List.replicate_succ']
    · have closes : Spell.Proper ⟨tail, x⟩ := by
        cases x with
        | ticked status => exact Status.isTerminal_iff.mpr fun same => running (same ▸ rfl)
        | reset fire => exact under_way.mpr (heeds xs fire [] rfl)
      refine ⟨spells ++ [⟨tail, x⟩], 0, fun s hs => ?_, ?_, by simp [running]⟩
      · rcases List.mem_append.mp hs with hs | hs
        · exact proper s hs
        · exact List.mem_singleton.mp hs ▸ closes
      · simp [split, Spell.notices]

/-- What was seen stems from a moment that showed it. -/
theorem seen_split {p : Place} {history : List (Moment μ σ)} {before after : List Notice} {notice : Notice}
    (h : seen p history = before ++ notice :: after) :
    ∃ earlier, ∃ x : Moment μ σ, ∃ later, history = earlier ++ x :: later ∧ x.notice? p = some notice ∧
      seen p earlier = before := by
  obtain ⟨front, back, rfl, hfront, hback⟩ := List.filterMap_eq_append_iff.mp h
  obtain ⟨skipped, x, later, rfl, unseen, sees, -⟩ := List.filterMap_eq_cons_iff.mp hback
  refine ⟨front ++ skipped, x, later, by simp, sees, ?_⟩
  rw [seen, List.filterMap_append, hfront, List.filterMap_eq_nil_iff.mpr unseen, List.append_nil]

end BehaviorTree
