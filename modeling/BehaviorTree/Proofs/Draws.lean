/-
  BehaviorTree.Proofs.Draws: draws below a bound are even.

  A draw takes the first word below the zone of its bound, and the remainder of that word. The zone
  is the largest multiple of the bound below the last word, so that the words below it fall into
  whole blocks of one word for each remainder (`below_even`). At most half of the words are
  thrown away.
-/

import Mathlib.Data.Int.CardIntervalMod
import Mathlib.Data.Set.Card
import BehaviorTree.Random.Generator

namespace BehaviorTree

namespace Generator

section
variable {γ : Type} [Generator γ] {limit bound : UInt64}

/-- The generator after so many words. -/
def ahead : (words : Nat) → γ → γ
  | 0, g => g
  | words + 1, g => ahead words (next g).2

/-- The word that comes after so many others. -/
def word (words : Nat) (g : γ) : UInt64 := (next (ahead words g)).1

/-- Words that are not below the limit are passed over. -/
theorem awaitBelow_first (n : Nat) (g : γ) (passed : ∀ k < n, ¬ word k g < limit) (found : word n g < limit) :
    awaitBelow limit g = some (word n g, ahead (n + 1) g) := by
  induction n generalizing g with
  | zero =>
    rw [awaitBelow_eq]
    exact if_pos found
  | succ n ih =>
    rw [awaitBelow_eq]
    refine (if_neg (passed 0 (Nat.succ_pos n))).trans ?_
    exact ih (next g).2 (fun k hk => passed (k + 1) (Nat.succ_lt_succ hk)) found

theorem below_first (positive : bound ≠ 0) (n : Nat) (g : γ) (passed : ∀ k < n, ¬ word k g < zone bound)
    (found : word n g < zone bound) : below g bound = (word n g % bound, ahead (n + 1) g) := by
  unfold below
  rw [if_neg positive, firstBelow_eq, awaitBelow_first n g passed found]

end

/-! ## Zones -/

section
variable {bound : UInt64}

theorem zone_toNat (bound : UInt64) : (zone bound).toNat = (UInt64.size - 1) / bound.toNat * bound.toNat := by
  have last : (0xFFFFFFFFFFFFFFFF : UInt64).toNat = UInt64.size - 1 := rfl
  have rest : 0xFFFFFFFFFFFFFFFF % bound ≤ 0xFFFFFFFFFFFFFFFF := by
    rw [UInt64.le_iff_toNat_le, UInt64.toNat_mod]
    exact Nat.mod_le ..
  rw [zone, UInt64.toNat_sub_of_le _ _ rest, UInt64.toNat_mod, last]
  have := Nat.div_add_mod' (UInt64.size - 1) bound.toNat
  omega

/-- There are as many words that fit a description as there are numbers that fit it. -/
theorem ncard_words (P : Nat → Prop) [DecidablePred P] :
    {x : UInt64 | P x.toNat}.ncard = ((Finset.range UInt64.size).filter P).card := by
  rw [← Set.ncard_image_of_injective _ fun _ _ => UInt64.toNat_inj.mp, ← Set.ncard_coe_finset]
  congr 1
  ext n
  simp only [Set.mem_image, Set.mem_ofPred_eq, Finset.coe_filter, Finset.mem_range]
  constructor
  · rintro ⟨x, fits, rfl⟩
    exact ⟨x.toNat_lt_size, fits⟩
  · rintro ⟨small, fits⟩
    have same : (UInt64.ofNat n).toNat = n := UInt64.toNat_ofNat_of_lt' small
    exact ⟨UInt64.ofNat n, by rwa [same], same⟩

/-- A multiple of the bound has as many numbers below it for each remainder. -/
theorem card_remainder {b r : Nat} (positive : 0 < b) (small : r < b) (blocks : Nat) :
    ((Finset.range (blocks * b)).filter (· % b = r)).card = blocks := by
  have counted := Nat.count_modEq_card (b := blocks * b) positive r
  rw [Nat.count_eq_card_filter_range, Nat.mul_mod_left, Nat.mul_div_cancel _ positive, if_neg (Nat.not_lt_zero _),
    Nat.add_zero] at counted
  simpa only [Nat.ModEq, Nat.mod_eq_of_lt small] using counted

/-- The words that are accepted with a remainder. -/
theorem ncard_accepted (some : 0 < bound.toNat) {r : UInt64} (small : r < bound) :
    {x : UInt64 | x < zone bound ∧ x % bound = r}.ncard = (zone bound / bound).toNat := by
  have words : {x : UInt64 | x < zone bound ∧ x % bound = r} =
      {x : UInt64 | x.toNat < (zone bound).toNat ∧ x.toNat % bound.toNat = r.toNat} := by
    ext x
    simp only [Set.mem_ofPred_eq, UInt64.lt_iff_toNat_lt, ← UInt64.toNat_inj, UInt64.toNat_mod]
  have below : (Finset.range UInt64.size).filter (fun n => n < (zone bound).toNat ∧ n % bound.toNat = r.toNat) =
      (Finset.range ((UInt64.size - 1) / bound.toNat * bound.toNat)).filter (· % bound.toNat = r.toNat) := by
    ext n
    have := (zone bound).toNat_lt_size
    rw [zone_toNat] at this ⊢
    simp only [Finset.mem_filter, Finset.mem_range]
    omega
  rw [words, ncard_words fun n => n < (zone bound).toNat ∧ n % bound.toNat = r.toNat, below,
    card_remainder some (UInt64.lt_iff_toNat_lt.mp small), UInt64.toNat_div, zone_toNat, Nat.mul_div_cancel _ some]

/-- The words that are thrown away. -/
theorem ncard_rejected (bound : UInt64) :
    {x : UInt64 | ¬ x < zone bound}.ncard = UInt64.size - (zone bound).toNat := by
  have words : {x : UInt64 | ¬ x < zone bound} = {x : UInt64 | (zone bound).toNat ≤ x.toNat} := by
    ext x
    simp only [Set.mem_ofPred_eq, UInt64.not_lt, UInt64.le_iff_toNat_le]
  have above : (Finset.range UInt64.size).filter ((zone bound).toNat ≤ ·) =
      Finset.Ico (zone bound).toNat UInt64.size := by
    ext n
    simp only [Finset.mem_filter, Finset.mem_range, Finset.mem_Ico]
    omega
  rw [words, ncard_words fun n => (zone bound).toNat ≤ n, above, Nat.card_Ico]

end

/-! ## Even draws -/

/-- For each bound but zero, and each generator: what is drawn is the remainder of the first word
below the zone, and no word after it is used. The zone is a positive multiple of the bound; for each
remainder the same number of words are accepted, out of all words that there are, and half of them
at most are thrown away. -/
theorem below_even (bound : UInt64) (positive : 1 ≤ bound) :
    (∀ (γ : Type) [Generator γ] (g : γ) (n : Nat), (∀ k < n, ¬ word k g < zone bound) → word n g < zone bound →
      below g bound = (word n g % bound, ahead (n + 1) g)) ∧
    (∀ r < bound, {x : UInt64 | x < zone bound ∧ x % bound = r}.ncard = (zone bound / bound).toNat) ∧
    (∃ blocks, 0 < blocks ∧ (zone bound).toNat = blocks * bound.toNat) ∧
    {x : UInt64 | ¬ x < zone bound}.ncard < 2 ^ 63 + 1 := by
  have some : 0 < bound.toNat := UInt64.le_iff_toNat_le.mp positive
  have nonzero : bound ≠ 0 := fun zero => absurd some (by rw [zero]; decide)
  have fits : bound.toNat ≤ UInt64.size - 1 := Nat.le_pred_of_lt bound.toNat_lt_size
  have whole : 0 < (UInt64.size - 1) / bound.toNat := Nat.div_pos fits some
  refine ⟨fun γ _ g n passed found => below_first nonzero n g passed found, fun r small => ncard_accepted some small,
    ⟨_, whole, zone_toNat bound⟩, ?_⟩
  -- More than half of the words lie in the blocks, be they many small ones or a single large one.
  have rest := Nat.div_add_mod' (UInt64.size - 1) bound.toNat
  have short := Nat.mod_lt (UInt64.size - 1) some
  have long := Nat.le_mul_of_pos_left bound.toNat whole
  rw [ncard_rejected, zone_toNat]
  simp only [UInt64.size] at rest short long ⊢
  omega

/-- A bound that does not divide the number of words: the first of two words is thrown away. -/
theorem below_even_three : 1 ≤ (3 : UInt64) ∧ below (Replay.mk [0xFFFFFFFFFFFFFFFF, 5, 8]) 3 = (2, ⟨[8]⟩) ∧
    (∀ r < (3 : UInt64), {x : UInt64 | x < zone 3 ∧ x % 3 = r}.ncard = 6148914691236517205) ∧
    {x : UInt64 | ¬ x < zone 3}.ncard < 2 ^ 63 + 1 := by
  obtain ⟨first, even, -, few⟩ := below_even 3 (by decide)
  have drawn := first Replay ⟨[0xFFFFFFFFFFFFFFFF, 5, 8]⟩ 1 (by decide) (by decide)
  exact ⟨by decide, drawn, even, few⟩

end Generator

end BehaviorTree
