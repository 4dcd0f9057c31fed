/-
  BehaviorTree.Proofs.Shares: only children with a share of the weights are drawn.

  A draw looks for the share that holds a random part of the sum of all weights. Sum and part are
  rounded, so that the part may lie in no share. Whatever it is, the child that is found has a share
  (`scan_some`), and one is found if there are shares at all (`scan_eq_none_iff`). The sum is above
  zero in the same case (`total_spec`), so that a word is drawn just when a child is (`draws_share`).
-/

import BehaviorTree.Proofs.Rounding

namespace BehaviorTree

namespace WeightedDraw

variable {weights : List Float32} {index i count : Nat} {roll : Float} {last : Option Nat}

/-! ## Looking for a share -/

theorem scan_cons {w : Float32} : scan (w :: weights) index roll last =
    if w ≤ 0 then scan weights (index + 1) roll last
    else if roll < widen w then some index
    else scan weights (index + 1) (roll - widen w) (some index) := rfl

/-- The child that is found is the one to fall back on, or has a share. -/
theorem scan_some (h : scan weights index roll last = some i) :
    last = some i ∨ ∃ k, i = index + k ∧ ∃ room : k < weights.length, ¬ weights[k] ≤ 0 := by
  induction weights generalizing index roll last with
  | nil => exact .inl h
  | cons w rest ih =>
    have further (found : ∃ k, i = index + 1 + k ∧ ∃ room : k < rest.length, ¬ rest[k] ≤ 0) :
        ∃ k, i = index + k ∧ ∃ room : k < (w :: rest).length, ¬ (w :: rest)[k] ≤ 0 := by
      obtain ⟨k, rfl, room, share⟩ := found
      exact ⟨k + 1, by omega, Nat.succ_lt_succ room, share⟩
    rw [scan_cons] at h
    split at h
    case isTrue => exact (ih h).imp_right further
    case isFalse share =>
      have here : ∃ k, index = index + k ∧ ∃ room : k < (w :: rest).length, ¬ (w :: rest)[k] ≤ 0 :=
        ⟨0, rfl, Nat.zero_lt_succ _, share⟩
      split at h
      · cases h
        exact .inr here
      · obtain fallback | found := ih h
        · cases fallback
          exact .inr here
        · exact .inr (further found)

/-- However much has been rolled, a child is found if there is one to fall back on, or one that has a share. -/
theorem scan_eq_none_iff : scan weights index roll last = none ↔ last = none ∧ ∀ w ∈ weights, w ≤ 0 := by
  induction weights generalizing index roll last with
  | nil =>
    change last = none ↔ _
    simp
  | cons w rest ih =>
    rw [scan_cons, List.forall_mem_cons]
    split
    case isTrue none => rw [ih, and_iff_right none]
    case isFalse share =>
      refine iff_of_false ?_ fun none => share none.2.1
      split
      · exact Option.some_ne_none index
      · exact fun none => Option.some_ne_none index (ih.mp none).1

/-! ## The sum of the weights -/

theorem sum_spec {sum : Float} (least : 0 ≤ sum) (ok : ∀ w ∈ weights, 0 ≤ w) :
    0 ≤ weights.foldl (fun sum w => sum + widen w) sum ∧
      (0 < weights.foldl (fun sum w => sum + widen w) sum ↔ 0 < sum ∨ ∃ w ∈ weights, 0 < w) := by
  induction weights generalizing sum with
  | nil => exact ⟨least, by simp⟩
  | cons w rest ih =>
    obtain ⟨ok, others⟩ := List.forall_mem_cons.mp ok
    obtain ⟨leastWide, wide⟩ := zero_lt_widen ok
    obtain ⟨leastNext, next⟩ := zero_lt_add64 least leastWide
    obtain ⟨leastAll, all⟩ := ih leastNext others
    refine ⟨leastAll, all.trans ?_⟩
    rw [next, wide, or_assoc, List.exists_mem_cons_iff]

/-- The weights add up to more than nothing if one of them is more than nothing. -/
theorem total_spec (d : WeightedDraw) (count : Nat) : d.total count ≤ 0 ↔ ∀ w ∈ d.weights.take count, ¬ 0 < w := by
  have ok : ∀ w ∈ d.weights.take count, 0 ≤ w := fun w h => (d.weights_ok w (List.mem_of_mem_take h)).2
  obtain ⟨least, some⟩ : 0 ≤ d.total count ∧
      (0 < d.total count ↔ (0 : Float) < 0 ∨ ∃ w ∈ d.weights.take count, 0 < w) := sum_spec (by decide) ok
  have zero : ¬ (0 : Float) < 0 := by decide
  rw [← not_zero_lt_iff_le64 least, some, or_iff_right zero]
  simp only [not_exists, not_and]

/-! ## Draws -/

variable {d : WeightedDraw}

/-- Weights are known not to be below zero. -/
theorem not_zero_lt_weight {w : Float32} (among : w ∈ d.weights) : ¬ 0 < w ↔ w ≤ 0 :=
  not_zero_lt_iff_le (d.weights_ok w among).2

theorem scan_weights_eq_none_iff :
    scan (d.weights.take count) 0 roll none = none ↔ ∀ w ∈ d.weights.take count, ¬ 0 < w := by
  rw [scan_eq_none_iff, and_iff_right rfl]
  exact forall₂_congr fun w among => (not_zero_lt_weight (List.mem_of_mem_take among)).symm

theorem scan_weights_some (h : scan (d.weights.take count) 0 roll none = some i) :
    i < count ∧ ∃ room : i < d.weights.length, 0 < d.weights[i] := by
  obtain ⟨k, rfl, room, share⟩ := (scan_some h).resolve_left nofun
  rw [List.length_take, Nat.lt_min] at room
  rw [List.getElem_take] at share
  rw [Nat.zero_add]
  exact ⟨room.1, room.2, not_not.mp ((not_zero_lt_weight (List.getElem_mem room.2)).not.mpr share)⟩

/-- A draw among `count` children, of any weights that are accepted, from any state of the generator. A child that is
drawn is among these, has a weight, and this is above zero. None is drawn just when none of the weights that count is
above zero, however much has been rolled. A word is used up if a child is drawn, and nothing else is changed. -/
theorem draws_share (d : WeightedDraw) (count : Nat) :
    ofSeed d.generator.state d.weights = .ok d ∧
    (∀ i, (d.pick count).1 = some i → i < count ∧ ∃ room : i < d.weights.length, 0 < d.weights[i]) ∧
    ((d.pick count).1 = none ↔ ∀ w ∈ d.weights.take count, ¬ 0 < w) ∧
    (∀ roll, scan (d.weights.take count) 0 roll none = none ↔ ∀ w ∈ d.weights.take count, ¬ 0 < w) ∧
    (d.pick count).2 = { d with
      generator := if (d.pick count).1.isSome then (Generator.next d.generator).2 else d.generator } := by
  refine ⟨dif_pos d.weights_ok, ?_⟩
  by_cases empty : d.total count ≤ 0
  case pos =>
    have none : d.pick count = (none, d) := if_pos empty
    rw [none]
    exact ⟨nofun, iff_of_true rfl ((total_spec d count).mp empty), fun _ => scan_weights_eq_none_iff, rfl⟩
  case neg =>
    obtain ⟨roll, drawn⟩ : ∃ roll, d.pick count =
        (scan (d.weights.take count) 0 roll .none, { d with generator := (Generator.next d.generator).2 }) :=
      ⟨_, if_neg empty⟩
    rw [drawn]
    refine ⟨fun _ => scan_weights_some, scan_weights_eq_none_iff, fun _ => scan_weights_eq_none_iff, ?_⟩
    have found : scan (d.weights.take count) 0 roll .none ≠ .none := fun none =>
      empty ((total_spec d count).mpr (scan_weights_eq_none_iff.mp none))
    rw [if_pos (Option.isSome_iff_ne_none.mpr found)]

/-- Children without a weight are never drawn. -/
example : ((⟨⟨9⟩, [0, 1, 0], by decide⟩ : WeightedDraw).pick 3).1 = some 1 ∧
    ((⟨⟨9⟩, [0, 1, 0], by decide⟩ : WeightedDraw).pick 1).1 = none := by decide +kernel

end WeightedDraw

end BehaviorTree
