/-
  BehaviorTree.Proofs.Period: the library's generator passes through every state.

  The state goes up by an odd constant. A multiple of an odd constant reaches every word, so that
  from any state any other is `2 ^ 64` steps away at most (`reaches`). The state zero yields the
  word zero, which no bound throws away. So whatever is drawn from, and below whatever bound, a draw
  ends (`below_ends`).
-/

import Mathlib.Data.UInt
import Mathlib.Tactic.LinearCombination
import BehaviorTree.Proofs.Draws

namespace BehaviorTree

open Generator

/-! ## The first word that is accepted -/

namespace Generator

variable {γ : Type} [Generator γ] {limit : UInt64} {g : γ}

theorem ahead_succ (n : Nat) (g : γ) : ahead (n + 1) g = (next (ahead n g)).2 := by
  induction n generalizing g with
  | zero => rfl
  | succ n ih => exact ih (next g).2

/-- If one of the next words is accepted, one of them is the first to be. -/
theorem exists_first {steps : Nat} (h : ∃ n < steps, word n g < limit) :
    ∃ n < steps, (∀ k < n, ¬ word k g < limit) ∧ word n g < limit := by
  have some : ∃ n, word n g < limit := h.imp fun _ => And.right
  obtain ⟨n, room, found⟩ := h
  have first : Nat.find some ≤ n := Nat.find_min' some found
  exact ⟨Nat.find some, Nat.lt_of_le_of_lt first room, fun _ => Nat.find_min some, Nat.find_spec some⟩

theorem zone_pos {bound : UInt64} (positive : bound ≠ 0) : 0 < zone bound := by
  have some : 0 < bound.toNat := Nat.pos_of_ne_zero fun zero => positive (UInt64.toNat_inj.mp zero)
  rw [UInt64.lt_iff_toNat_lt, zone_toNat]
  exact Nat.mul_pos (Nat.div_pos (Nat.le_pred_of_lt bound.toNat_lt_size) some) some

end Generator

/-! ## States -/

namespace SplitMix64

open scoped UInt64.CommRing

/-- What the state goes up by at each step. -/
def increment : UInt64 := 0x9E3779B97F4A7C15

/-- The multiple of the increment that is one. -/
def turns : UInt64 := 0xF1DE83E19937733D

theorem turns_mul_increment : turns * increment = 1 := by decide

theorem state_ahead (n : Nat) (g : SplitMix64) : (ahead n g).state = g.state + UInt64.ofNat n * increment := by
  induction n generalizing g with
  | zero =>
    show g.state = g.state + 0 * increment
    ring
  | succ n ih =>
    rw [ahead, ih, UInt64.ofNat_add]
    show g.state + increment + UInt64.ofNat n * increment = g.state + (UInt64.ofNat n + 1) * increment
    ring

/-- From each state, each other one is reached, and the same one again after all of them. -/
theorem reaches (g : SplitMix64) (s : UInt64) : ∃ n < UInt64.size, (ahead (n + 1) g).state = s := by
  refine ⟨((s - g.state) * turns - 1).toNat, UInt64.toNat_lt_size _, ?_⟩
  rw [state_ahead, UInt64.ofNat_add, UInt64.ofNat_toNat]
  show g.state + ((s - g.state) * turns - 1 + 1) * increment = s
  linear_combination (s - g.state) * turns_mul_increment

theorem word_eq_mix (n : Nat) (g : SplitMix64) : word n g = mix (ahead (n + 1) g).state := by
  rw [ahead_succ]
  rfl

theorem mix_zero : mix 0 = 0 := by decide

/-- Zero is among the words of each round. -/
theorem yields_zero (g : SplitMix64) : ∃ n < UInt64.size, word n g = 0 := by
  obtain ⟨n, room, zero⟩ := reaches g 0
  exact ⟨n, room, by rw [word_eq_mix, zero, mix_zero]⟩

/-- From every state of the library's generator, and for every bound: a draw below zero takes no word,
and any other draw finds a word below its zone among the next `2 ^ 64`, the first of which it takes. -/
theorem below_ends (g : SplitMix64) (bound : UInt64) :
    bound = 0 ∧ below g bound = (0, g) ∨
    ∃ n < 2 ^ 64, (∀ k < n, ¬ word k g < zone bound) ∧ word n g < zone bound ∧
      awaitBelow (zone bound) g = some (word n g, ahead (n + 1) g) ∧
      below g bound = (word n g % bound, ahead (n + 1) g) := by
  by_cases zero : bound = 0
  · exact .inl ⟨zero, if_pos zero⟩
  · obtain ⟨n, room, yields⟩ := yields_zero g
    obtain ⟨n, room, passed, found⟩ := exists_first ⟨n, room, yields ▸ zone_pos zero⟩
    exact .inr ⟨n, room, passed, found, awaitBelow_first n g passed found, below_first zero n g passed found⟩

end SplitMix64

end BehaviorTree
