/-
  BehaviorTree.Proofs.Bracket: what may be written down about a scope, as an automaton.

  A scope is told when a run of it starts and when it ends, in turns, and with the answer of the
  tick that ends it. A run that is abandoned ends without an answer: the scope is told
  `running` then, or nothing if hooks are not to be called.
-/

import BehaviorTree.Proofs.Diary

namespace BehaviorTree

/-- How far the bracket of a scope has come. -/
inductive Bracket where
  | closed
  | opened
  /-- The scope was told its end in a tick that is still to answer so. -/
  | closing (verdict : Verdict)
  /-- The scope is being abandoned and is still to be told. -/
  | cut
  deriving DecidableEq

namespace Bracket

/-- What may be written down next. -/
def step : Bracket → Entry → Option Bracket
  | closed, .entered => some opened
  | closed, .abandoned _ => some closed
  | opened, .exited status => status.verdict?.map closing
  | opened, .answered status => if status.isRunning then some opened else none
  | opened, .abandoned fire => some (if fire then cut else closed)
  | closing verdict, .answered status => if status = verdict.status then some closed else none
  | cut, .exited status => if status.isRunning then some closed else none
  | _, _ => none

/-- Where the bracket is after all this was written down, if all was as it may be. -/
def after (xs : List Entry) : Option Bracket := xs.foldlM step closed

theorem after_snoc {xs : List Entry} {x : Entry} {b : Bracket} (h : after xs = some b) :
    after (xs ++ [x]) = b.step x := by
  simp only [after] at h
  simp [after, List.foldlM_append, h]

theorem after_append (xs ys : List Entry) : after (xs ++ ys) = (after xs).bind fun b => ys.foldlM step b :=
  List.foldlM_append

/-- After the answer of a tick the bracket is open if the scope is running, and closed if not. -/
theorem answered {b c : Bracket} {status : Status} (h : b.step (.answered status) = some c) :
    c = if status.isRunning then opened else closed := by
  cases b with
  | closed => cases h
  | opened =>
    cases status with
    | running =>
      cases h
      rfl
    | success | failure => cases h
  | closing verdict => cases verdict <;> cases status <;> cases h <;> rfl
  | cut => cases h

theorem after_answered {xs ys : List Entry} {status : Status} (h : (after (xs ++ Entry.answered status :: ys)).isSome) :
    after (xs ++ [Entry.answered status]) = some (if status.isRunning then opened else closed) := by
  rw [after_append, Option.isSome_iff_exists] at h
  obtain ⟨_, h⟩ := h
  obtain ⟨b, hb, h⟩ := Option.bind_eq_some_iff.mp h
  rw [List.foldlM_cons] at h
  obtain ⟨c, hc, -⟩ := Option.bind_eq_some_iff.mp h
  rw [after_snoc hb, hc, answered hc]

/-- Only what is being abandoned is cut. -/
theorem cut_after {xs : List Entry} (h : after xs = some cut) : ∃ ys, xs = ys ++ [Entry.abandoned true] := by
  obtain rfl | ⟨ys, x, rfl⟩ := List.eq_nil_or_concat xs
  · cases h
  rw [List.concat_eq_append, after_append] at h
  obtain ⟨b, -, h⟩ := Option.bind_eq_some_iff.mp h
  replace h : (b.step x).bind some = some cut := h
  refine ⟨ys, ?_⟩
  rw [List.concat_eq_append]
  cases x with
  | abandoned fire =>
    cases b with
    | opened =>
      cases fire with
      | true => rfl
      | false => cases h
    | _ => cases h
  | entered => cases b <;> cases h
  | exited status => cases b <;> cases status <;> cases h
  | answered status =>
    cases b with
    | closing verdict => cases verdict <;> cases status <;> cases h
    | _ => cases status <;> cases h

/-- The end of a run is told with the answer that the scope is about to give, or with `running` when it is being
abandoned. -/
theorem after_exited {xs ys : List Entry} {status : Status} (h : after (xs ++ Entry.exited status :: ys) = some opened ∨
    after (xs ++ Entry.exited status :: ys) = some closed) :
    (∃ zs, ys = .answered status :: zs) ∨ status = .running ∧ ∃ zs, xs = zs ++ [Entry.abandoned true] := by
  obtain ⟨d, h, ends⟩ : ∃ d, after (xs ++ Entry.exited status :: ys) = some d ∧ ∀ v, d ≠ closing v := by
    rcases h with h | h
    · exact ⟨_, h, nofun⟩
    · exact ⟨_, h, nofun⟩
  rw [after_append] at h
  obtain ⟨b, hb, h⟩ := Option.bind_eq_some_iff.mp h
  rw [List.foldlM_cons] at h
  obtain ⟨c, hc, h⟩ := Option.bind_eq_some_iff.mp h
  cases b with
  | closed => cases hc
  | closing => cases hc
  | cut => cases status <;> cases hc; exact .inr ⟨rfl, cut_after hb⟩
  | opened =>
    obtain ⟨verdict, said, rfl⟩ := Option.map_eq_some_iff.mp hc
    cases ys with
    | nil => cases h; exact absurd rfl (ends verdict)
    | cons y ys =>
      rw [List.foldlM_cons] at h
      obtain ⟨e, he, -⟩ := Option.bind_eq_some_iff.mp h
      cases y with
      | answered answer =>
        refine .inl ⟨ys, ?_⟩
        cases verdict <;> cases status <;> cases said <;> cases answer <;> cases he <;> rfl
      | _ => cases he

end Bracket

end BehaviorTree
