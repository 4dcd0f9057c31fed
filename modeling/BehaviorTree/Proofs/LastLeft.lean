/-
  BehaviorTree.Proofs.LastLeft: what is read at a depth is what was last left there.

  To those who use them, depth slots are one function from depths to values, the default almost everywhere. An
  access finds the value at its own depth, answers something and leaves something there (`Access.answer`,
  `Access.leaves`), and all other depths are as before (`DepthSlots.get_run`). So accesses one after the other are
  accesses to the function (`DepthSlots.get_after`), and what is read at a depth is what the last access left that
  did more there than read (`DepthSlots.get_after_last`). The array below the function shows in `depthCount` only:
  room is made by what is written, up to the largest depth (`DepthSlots.depthCount_after`).
-/

import Mathlib.Order.Filter.Cofinite
import BehaviorTree.DepthSlots

namespace BehaviorTree

variable {α : Type}

/-- What can be asked of depth slots. -/
inductive Access (α : Type) : Type 1 where
  | set (depth : Nat) (value : α)
  /-- Looks at the value and changes it in its place. The answer has any type, one for failures included. -/
  | visit {β : Type} (depth : Nat) (f : α → β × α)
  | get (depth : Nat)
  | take (depth : Nat)
  | reset (depth : Nat)

namespace Access

/-- The depth that is asked about. -/
def depth : Access α → Nat
  | set d _ | visit d _ | get d | take d | reset d => d

/-- What is answered. -/
def Answer : Access α → Type
  | set _ _ | reset _ => Unit
  | @visit _ β _ _ => β
  | get _ | take _ => α

/-- The depth that room is made for. -/
def room? : Access α → Option Nat
  | set d _ | visit d _ => some d
  | get _ | take _ | reset _ => none

/-- The access does more at the depth than read. -/
def Alters (d : Nat) : Access α → Prop
  | get _ => False
  | a => a.depth = d

/-- The answer where this value is found. -/
def answer : (a : Access α) → α → a.Answer
  | set _ _, _ | reset _, _ => ()
  | visit _ f, x => (f x).1
  | get _, x | take _, x => x

/-- What is there after these accesses, one after the other. -/
def after {ω : Type} (access : ω → (a : Access α) → a.Answer × ω) (start : ω) (accesses : List (Access α)) : ω :=
  accesses.foldl (fun s a => (access s a).2) start

variable [Inhabited α]

/-- The value that is left where this one is found. -/
def leaves : Access α → α → α
  | set _ v, _ => v
  | visit _ f, x => (f x).2
  | get _, x => x
  | take _, _ | reset _, _ => default

/-- An access to a function from depths to values: its answer, and the function after it. -/
def onFunction (m : Nat → α) (a : Access α) : a.Answer × (Nat → α) :=
  (a.answer (m a.depth), Function.update m a.depth (a.leaves (m a.depth)))

end Access

open Access (after onFunction)

namespace DepthSlots

variable [Inhabited α] {s : DepthSlots α} {d e : Nat}

/-- The answer of depth slots, and the depth slots after it. -/
def run (s : DepthSlots α) : (a : Access α) → a.Answer × DepthSlots α
  | .set d v => ((), s.set d v)
  | .visit d f => s.visit d f
  | .get d => (s.get d, s)
  | .take d => s.take d
  | .reset d => ((), s.reset d)

/-! ## One access -/

theorem get_set_eq (s : DepthSlots α) (d : Nat) (v : α) : (s.set d v).get = Function.update s.get d v := by
  funext e
  rw [get_set, Function.update_apply]
  simp only [eq_comm]

theorem get_reset_eq (s : DepthSlots α) (d : Nat) : (s.reset d).get = Function.update s.get d default := by
  funext e
  rw [get_reset, Function.update_apply]
  simp only [eq_comm]

/-- An access is answered from the value at its depth. -/
theorem answer_run (s : DepthSlots α) (a : Access α) : (s.run a).1 = a.answer (s.get a.depth) := by
  cases a <;> rfl

/-- It leaves another value there, and all else as it was. -/
theorem get_run (s : DepthSlots α) (a : Access α) :
    (s.run a).2.get = Function.update s.get a.depth (a.leaves (s.get a.depth)) := by
  cases a with
  | set d v => exact get_set_eq s d v
  | visit d f => exact get_set_eq s d _
  | get d => exact (Function.update_eq_self d s.get).symm
  | take d => exact get_reset_eq s d
  | reset d => exact get_reset_eq s d

theorem get_run_elsewhere {a : Access α} (elsewhere : e ≠ a.depth) : (s.run a).2.get e = s.get e := by
  rw [get_run, Function.update_of_ne elsewhere]

theorem get_run_of_not_alters {a : Access α} (none : ¬ a.Alters d) : (s.run a).2.get d = s.get d := by
  cases a with
  | get => rfl
  | _ => exact get_run_elsewhere fun here => none here.symm

theorem get_run_of_alters {a : Access α} (here : a.Alters d) : (s.run a).2.get d = a.leaves (s.get d) := by
  have same : a.depth = d := by
    cases a with
    | get => exact here.elim
    | _ => exact here
  rw [← same, get_run, Function.update_self]

theorem depthCount_run (s : DepthSlots α) (a : Access α) :
    (s.run a).2.depthCount = a.room?.elim s.depthCount fun d => max s.depthCount (d + 1) := by
  cases a with
  | set d v => exact depthCount_set s d v
  | visit d f => exact depthCount_set s d _
  | get d => rfl
  | take d => exact depthCount_reset s d
  | reset d => exact depthCount_reset s d

/-- Only depths with room have another value than the default. -/
theorem eventually_default (s : DepthSlots α) : ∀ᶠ d in Filter.cofinite, s.get d = default := by
  refine Filter.eventually_cofinite.mpr ((Set.finite_lt_nat s.depthCount).subset fun d other => ?_)
  exact Nat.lt_of_not_le fun outside => other (get_of_depthCount_le outside)

/-! ## Accesses one after the other -/

theorem get_after (s : DepthSlots α) (accesses : List (Access α)) :
    (after run s accesses).get = after onFunction s.get accesses := by
  induction accesses generalizing s with
  | nil => rfl
  | cons a rest ih =>
    have first : (s.run a).2.get = (onFunction s.get a).2 := get_run s a
    exact (ih (s.run a).2).trans (congrArg (after onFunction · rest) first)

theorem after_append (s : DepthSlots α) (before since : List (Access α)) :
    after run s (before ++ since) = after run (after run s before) since := List.foldl_append

/-- A depth that is at most read keeps its value. -/
theorem get_after_of_none {accesses : List (Access α)} (none : ∀ a ∈ accesses, ¬ a.Alters d) :
    (after run s accesses).get d = s.get d := by
  induction accesses generalizing s with
  | nil => rfl
  | cons a rest ih =>
    obtain ⟨first, others⟩ := List.forall_mem_cons.mp none
    exact (ih others).trans (get_run_of_not_alters first)

/-- The value at a depth is the one that the last access left that did more there than read. -/
theorem get_after_last {before since : List (Access α)} {a : Access α} (here : a.Alters d)
    (last : ∀ b ∈ since, ¬ b.Alters d) :
    (after run s (before ++ a :: since)).get d = a.leaves ((after run s before).get d) := by
  rw [after_append]
  exact (get_after_of_none last).trans (get_run_of_alters here)

theorem depthCount_after (s : DepthSlots α) (accesses : List (Access α)) : (after run s accesses).depthCount =
    (accesses.filterMap Access.room?).foldl (fun n d => max n (d + 1)) s.depthCount := by
  induction accesses generalizing s with
  | nil => rfl
  | cons a rest ih =>
    have first := depthCount_run s a
    refine (ih (s.run a).2).trans ?_
    cases room : a.room? with
    | none => rw [List.filterMap_cons_none room, first, room, Option.elim_none]
    | some d => rw [List.filterMap_cons_some room, first, room, Option.elim_some, List.foldl_cons]

/-- Room for these depths, and no more, is room up to the largest. -/
theorem room_eq (depths : List Nat) :
    depths.foldl (fun n d => max n (d + 1)) 0 = depths.max?.elim 0 (· + 1) := by
  cases depths with
  | nil => rfl
  | cons d rest =>
    rw [List.max?_cons', Option.elim_some, List.foldl_cons, Nat.zero_max]
    exact List.foldl_hom (· + 1) fun n d => Nat.succ_max_succ n d

/-- These accesses have left the depth slots as they are, as far as one can tell. -/
structure LastLeft (s : DepthSlots α) (accesses : List (Access α)) : Prop where
  /-- What is read is one function: the default everywhere at first, then what the accesses make of it. -/
  function : s.get = after onFunction (fun _ => default) accesses
  /-- A further access is answered as by this function. -/
  answers : ∀ a, (s.run a).1 = (onFunction (after onFunction (fun _ => default) accesses) a).1
  almostEverywhere : ∀ᶠ d in Filter.cofinite, s.get d = default
  /-- A depth that was at most read has the default. -/
  untouched : ∀ d, (∀ a ∈ accesses, ¬ a.Alters d) → s.get d = default
  /-- Any other has the value that the last access left that did more there than read. -/
  last : ∀ d before a since, accesses = before ++ a :: since → a.Alters d → (∀ b ∈ since, ¬ b.Alters d) →
    s.get d = a.leaves ((after run {} before).get d)
  taken : ∀ d, (s.take d).1 = s.get d
  elsewhere : ∀ a e, e ≠ a.depth → (s.run a).2.get e = s.get e
  /-- Only what writes makes room. -/
  noRoom : ∀ a, a.room? = none → (s.run a).2.depthCount = s.depthCount
  /-- There is room up to the largest depth that was written. -/
  room : s.depthCount = (accesses.filterMap Access.room?).max?.elim 0 (· + 1)

/-- After any accesses one after the other, new depth slots are one function from depths to values: what was last left
at each depth, the default almost everywhere. -/
theorem one_function (accesses : List (Access α)) : (after run {} accesses).LastLeft accesses := by
  have start : ({} : DepthSlots α).get = fun _ => default := funext get_empty
  have function : (after run {} accesses).get = after onFunction (fun _ => default) accesses := by
    rw [get_after, start]
  constructor
  case function => exact function
  case answers =>
    intro a
    rw [answer_run, function]
    rfl
  case almostEverywhere => exact eventually_default _
  case untouched =>
    intro d none
    rw [get_after_of_none none, get_empty]
  case last =>
    rintro d before a since rfl here last
    exact get_after_last here last
  case taken => exact fun _ => rfl
  case elsewhere => exact fun _ _ => get_run_elsewhere
  case noRoom =>
    intro a none
    rw [depthCount_run, none, Option.elim_none]
  case room => exact (depthCount_after {} accesses).trans (room_eq _)

/-- Room is made for the depths in between as well, but not by a look far outside. -/
example : let s := after run ({} : DepthSlots Nat) [.set 0 1, .visit 3 fun x => (x, x + 7), .set 2 5, .reset 2, .take 9]
    ([0, 1, 2, 3, 9].map s.get, s.depthCount) = ([1, 0, 0, 7, 0], 4) := rfl

end DepthSlots

end BehaviorTree
