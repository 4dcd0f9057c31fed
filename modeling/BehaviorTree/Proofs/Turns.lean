/-
  BehaviorTree.Proofs.Turns: whose turn it is, one run after the other.

  A picker is asked when a run starts and told when it ends. A run that is abandoned in between
  costs no turn, as long as a picker that is asked again picks the same child (`Steady`). Then the
  n-th run that ends is one of the child that is picked after n runs, each to its end (`turn`),
  whatever runs were abandoned meanwhile (`InTurn`).

  A rotation goes round the children. A bag is filled again when it is empty, and is emptied in the
  order in which it was filled; a shuffle loses no child and doubles none.
-/

import Mathlib.Logic.Function.Iterate
import BehaviorTree.Proofs.History
import BehaviorTree.Random.Picker

namespace BehaviorTree

namespace Generator

variable {γ α : Type} [Generator γ]

theorem swapIfInBounds_perm (items : Array α) (i j : Nat) : (items.swapIfInBounds i j).Perm items := by
  unfold Array.swapIfInBounds
  split
  · split
    · exact Array.swap_perm _ _
    · exact .refl _
  · exact .refl _

theorem shuffleFrom_perm (last : Nat) (items : Array α) (g : γ) : (shuffleFrom last items g).1.Perm items := by
  induction last generalizing items g with
  | zero => exact .refl _
  | succ last ih => exact (ih _ _).trans (swapIfInBounds_perm ..)

theorem shuffle_perm (items : Array α) (g : γ) : (shuffle items g).1.Perm items := shuffleFrom_perm _ items g

end Generator

namespace Picker

/-- The picker when it has been asked. -/
def asked (n : Nat) (p : Picker) : Picker := (p.pick n).2

/-- The picker after a run of the child it picks. -/
def next (n : Nat) (p : Picker) : Picker := (p.asked n).complete ((p.pick n).1.getD 0)

/-- The picker after so many runs, each to its end. -/
def after (n : Nat) (p : Picker) (runs : Nat) : Picker := (next n)^[runs] p

/-- The child that it picks then. -/
def turn (n : Nat) (p : Picker) (runs : Nat) : Option Nat := ((p.after n runs).pick n).1

variable {n runs : Nat} {p : Picker}

theorem after_succ : p.after n (runs + 1) = (p.after n runs).next n := Function.iterate_succ_apply' _ _ _

theorem after_add {more : Nat} : p.after n (more + runs) = (p.after n more).after n runs := by
  rw [after, Nat.add_comm]
  exact Function.iterate_add_apply _ _ _ _

theorem next_eq {child : Nat} (picks : (p.pick n).1 = some child) : p.next n = (p.asked n).complete child := by
  rw [next, picks, Option.getD_some]

/-- It always picks one of the children, and when it is asked again it picks the same one. -/
structure Steady (n : Nat) (p : Picker) : Prop where
  picks : ∀ runs, ∃ child < n, p.turn n runs = some child
  again : ∀ runs, ((p.after n runs).asked n).pick n = (p.after n runs).pick n

/-! ## Rotations -/

theorem pick_rotation {r : Rotation} (positive : 0 < n) :
    (rotation r).pick n = (some (r.cursor.toNat % n), rotation r) :=
  Prod.ext (if_neg (Nat.ne_of_gt positive)) rfl

/-- The place of the cursor, as far as it matters. -/
theorem after_rotation (positive : 0 < n) (fits : n ≤ UInt64.size) (runs : Nat) :
    ∃ r : Rotation, (rotation {}).after n runs = rotation r ∧ r.cursor.toNat % n = runs % n := by
  induction runs with
  | zero => exact ⟨{}, rfl, rfl⟩
  | succ runs ih =>
    obtain ⟨r, same, place⟩ := ih
    have picks : ((rotation r).pick n).1 = some (runs % n) := by rw [pick_rotation positive, place]
    refine ⟨⟨UInt64.ofNat (runs % n) + 1⟩, by rw [after_succ, same, next_eq picks]; rfl, ?_⟩
    -- The cursor wraps only where the round ends, too.
    have below : runs % n < n := Nat.mod_lt _ positive
    have word : (UInt64.ofNat (runs % n) + 1).toNat = (runs % n + 1) % UInt64.size := by
      rw [UInt64.toNat_add, UInt64.toNat_ofNat_of_lt' (by omega)]
      rfl
    rw [word]
    rcases Nat.lt_or_eq_of_le (show runs % n + 1 ≤ UInt64.size by omega) with room | full
    · rw [Nat.mod_eq_of_lt room, Nat.mod_add_mod]
    · have whole : n = runs % n + 1 := by omega
      rw [full, Nat.mod_self, Nat.zero_mod, ← Nat.mod_add_mod, ← whole, Nat.mod_self]

theorem turn_rotation (positive : 0 < n) (fits : n ≤ UInt64.size) (runs : Nat) :
    (rotation {}).turn n runs = some (runs % n) := by
  obtain ⟨r, same, place⟩ := after_rotation positive fits runs
  rw [turn, same, pick_rotation positive, place]

theorem rotation_steady (positive : 0 < n) (fits : n ≤ UInt64.size) : (rotation {}).Steady n where
  picks runs := ⟨runs % n, Nat.mod_lt _ positive, turn_rotation positive fits runs⟩
  again runs := by
    obtain ⟨r, same, -⟩ := after_rotation positive fits runs
    rw [same]
    rfl

/-! ## Bags -/

section
variable {seed : UInt64} {generator : SplitMix64} {order : Array Nat} {place block : Nat} {b : ShuffleBag}

theorem pick_bag : (bag b).pick n = ((b.pick n).1, bag (b.pick n).2) := rfl

/-- A bag that is not empty yet is left as it is. -/
theorem bag_pick (size : order.size = n) (room : place < n) :
    (bag ⟨generator, order, place⟩).pick n = (order[place]?, bag ⟨generator, order, place⟩) := by
  simp [pick_bag, ShuffleBag.pick, ShuffleBag.isSpent, size, Nat.not_le.mpr room, Nat.ne_of_gt (Nat.zero_lt_of_lt room)]

/-- A bag that is empty, or has never been filled, is filled. -/
theorem bag_fills (positive : 0 < n) (spent : b.isSpent n = true) : ∃ generator order,
    order.Perm (Array.range n) ∧ (bag b).pick n = (order[0]?, bag ⟨generator, order, 0⟩) := by
  have filled := Generator.shuffle_perm (Array.range n) b.generator
  refine ⟨(Generator.shuffle (Array.range n) b.generator).2, _, filled, ?_⟩
  simp [pick_bag, ShuffleBag.pick, spent, Nat.ne_of_gt positive, ShuffleBag.refill]

theorem bag_again (positive : 0 < n) (b : ShuffleBag) : ((bag b).asked n).pick n = (bag b).pick n := by
  obtain ⟨generator, order, place⟩ := b
  by_cases spent : (⟨generator, order, place⟩ : ShuffleBag).isSpent n = true
  · obtain ⟨generator, order, filled, picks⟩ := bag_fills positive spent
    rw [asked, picks]
    exact bag_pick (by simpa using filled.size_eq) positive
  · simp only [ShuffleBag.isSpent, Bool.or_eq_true, decide_eq_true_eq, not_or, not_not, Nat.not_le] at spent
    rw [asked, bag_pick spent.1 spent.2, bag_pick spent.1 spent.2]

theorem after_bag (runs : Nat) : ∃ b', (bag b).after n runs = bag b' := by
  induction runs with
  | zero => exact ⟨b, rfl⟩
  | succ runs ih =>
    obtain ⟨b', same⟩ := ih
    rw [after_succ, same]
    exact ⟨_, rfl⟩

/-- The child in front is used up when its run ends. -/
theorem bag_next (size : order.size = n) (room : place < n) (here : (bag b).asked n = bag ⟨generator, order, place⟩) :
    (bag b).next n = bag ⟨generator, order, place + 1⟩ := by
  have front : order[place]? = some order[place] := Array.getElem?_eq_getElem (size ▸ room)
  have picks : ((bag b).pick n).1 = some order[place] := by
    rw [← bag_again (Nat.zero_lt_of_lt room), here, bag_pick size room, front]
  rw [next_eq picks, here]
  simp [complete, ShuffleBag.complete, front]

/-- A bag that is filled now is emptied in the order in which it was filled. -/
theorem bag_empties (positive : 0 < n) (spent : b.isSpent n = true) : ∃ order : Array Nat,
    order.Perm (Array.range n) ∧ ∀ place < n, ∃ generator,
      ((bag b).after n place).asked n = bag ⟨generator, order, place⟩ ∧
      (bag b).after n (place + 1) = bag ⟨generator, order, place + 1⟩ := by
  obtain ⟨generator, order, filled, picks⟩ := bag_fills positive spent
  have size : order.size = n := by simpa using filled.size_eq
  have goesOn {place : Nat} (room : place < n)
      (here : ((bag b).after n place).asked n = bag ⟨generator, order, place⟩) :
      (bag b).after n (place + 1) = bag ⟨generator, order, place + 1⟩ := by
    obtain ⟨b', same⟩ := after_bag (n := n) (b := b) place
    rw [same] at here
    rw [after_succ, same, bag_next size room here]
  refine ⟨order, filled, fun place room => ?_⟩
  suffices here : ((bag b).after n place).asked n = bag ⟨generator, order, place⟩ from
    ⟨generator, here, goesOn room here⟩
  induction place with
  | zero => exact congrArg Prod.snd picks
  | succ place ih =>
    have earlier := Nat.lt_of_succ_lt room
    rw [goesOn earlier (ih earlier), asked, bag_pick size room]

/-- After any number of rounds it is to be filled. -/
theorem bag_spent (positive : 0 < n) (seed : UInt64) (block : Nat) :
    ∃ b, (bag (.ofSeed seed)).after n (block * n) = bag b ∧ b.isSpent n = true := by
  induction block with
  | zero =>
    rw [Nat.zero_mul]
    exact ⟨_, rfl, by simp [ShuffleBag.ofSeed, ShuffleBag.isSpent, (Nat.ne_of_gt positive).symm]⟩
  | succ block ih =>
    obtain ⟨b, same, spent⟩ := ih
    obtain ⟨order, filled, empties⟩ := bag_empties positive spent
    obtain ⟨generator, -, emptied⟩ := empties (n - 1) (Nat.sub_lt positive Nat.one_pos)
    rw [Nat.sub_add_cancel positive] at emptied
    rw [Nat.succ_mul, after_add, same, emptied]
    exact ⟨_, rfl, by simp [ShuffleBag.isSpent]⟩

/-- In each round, all children have their turn. -/
theorem turn_bag (positive : 0 < n) (seed : UInt64) (block : Nat) : ∃ order : Array Nat,
    order.Perm (Array.range n) ∧ ∀ place < n, (bag (.ofSeed seed)).turn n (block * n + place) = order[place]? := by
  obtain ⟨b, same, spent⟩ := bag_spent positive seed block
  obtain ⟨order, filled, empties⟩ := bag_empties positive spent
  refine ⟨order, filled, fun place room => ?_⟩
  obtain ⟨generator, here, -⟩ := empties place room
  obtain ⟨b', there⟩ := after_bag (n := n) (b := b) place
  rw [there] at here
  rw [turn, after_add, same, there, ← bag_again positive, here, bag_pick (by simpa using filled.size_eq) room]

theorem bag_steady (positive : 0 < n) (seed : UInt64) : (bag (.ofSeed seed)).Steady n where
  picks runs := by
    obtain ⟨order, filled, turns⟩ := turn_bag positive seed (runs / n)
    have room : runs % n < n := Nat.mod_lt _ positive
    have size : order.size = n := by simpa using filled.size_eq
    have turn := turns _ room
    rw [Nat.div_add_mod', Array.getElem?_eq_getElem (size ▸ room)] at turn
    refine ⟨_, ?_, turn⟩
    exact Array.mem_range.mp (filled.mem_iff.mp (Array.getElem_mem (size ▸ room)))
  again runs := by
    obtain ⟨b, same⟩ := after_bag (n := n) (b := .ofSeed seed) runs
    rw [same]
    exact bag_again positive b

end

end Picker

end BehaviorTree
