/-
  BehaviorTree.Proofs.Rounding: what is above zero stays above zero when it is added up.

  Numbers of a format are multiples of its smallest one (`OnGrid`). Their sums are such multiples as
  well, so that rounding has no way to lose one that is above zero (`positive_round`): it may only
  grow out of the format, and is infinite then. So a sum of numbers that are not below zero is above
  zero if one of them is (`zero_lt_add64`), and so is a number in a wider format (`zero_lt_widen`).
-/

import BehaviorTree.Proofs.Elapsed
import BehaviorTree.Random.Picker

namespace BehaviorTree

open Float.Model (Format UnpackedFloat totalExponent)
open Float.Model.UnpackedFloat

variable {spec : Format}

/-! ## Above zero -/

/-- The number is above zero. -/
def Positive (u : UnpackedFloat) : Prop := UnpackedFloat.lt (.zero .positive) u = true

section
variable {u : UnpackedFloat} {b : BitVec spec.numBits}

theorem Positive.nonNegative (h : Positive u) : NonNegative u := by
  cases u with
  | notANumber => cases h
  | zero => rfl
  | infinity sign => cases sign with
    | positive => rfl
    | negative => cases h
  | finite sign => cases sign with
    | positive => rfl
    | negative => cases h

/-- What is not below zero is zero or above it. -/
theorem NonNegative.cases (h : NonNegative u) : (∃ sign, u = .zero sign) ∨ u = .infinity .positive ∨
    ∃ mantissa exponent positive, u = .finite .positive mantissa exponent positive := by
  cases u with
  | notANumber => cases h
  | zero sign => exact .inl ⟨sign, rfl⟩
  | infinity sign => cases sign with
    | positive => exact .inr (.inl rfl)
    | negative => cases h
  | finite sign mantissa exponent positive => cases sign with
    | positive => exact .inr (.inr ⟨mantissa, exponent, positive, rfl⟩)
    | negative => cases h

theorem not_positive_iff (h : NonNegative u) : ¬ Positive u ↔ UnpackedFloat.le u (.zero .positive) = true := by
  obtain ⟨sign, rfl⟩ | rfl | ⟨mantissa, exponent, positive, rfl⟩ := h.cases
  · exact iff_of_true Bool.false_ne_true rfl
  · exact iff_of_false (not_not.mpr rfl) Bool.false_ne_true
  · exact iff_of_false (not_not.mpr rfl) Bool.false_ne_true

/-- Bits without a sign are those of such a number if they are neither those of zero nor those of no number. -/
theorem positive_unpack (sign : unpackSign b = 0#1) (number : unpackExponent b = -1#_ → unpackMantissa b = 0#_)
    (some : unpackExponent b = 0#_ → unpackMantissa b ≠ 0#_) : Positive (UnpackedFloat.unpack spec b) := by
  unfold UnpackedFloat.unpack
  dsimp only
  rw [sign]
  split
  · next infinite =>
    rw [if_pos (number infinite)]
    rfl
  · split
    · next small =>
      rw [dif_neg (some small)]
      rfl
    · rfl

theorem exponent_ne : (0#_ : BitVec spec.exponentBits) ≠ -1#_ := by
  rw [BitVec.neg_one_eq_allOnes]
  intro same
  have := congrArg BitVec.toNat same
  have := Nat.one_lt_two_pow (Nat.pos_iff_ne_zero.mp spec.he)
  rw [BitVec.toNat_allOnes, BitVec.toNat_zero] at *
  omega

theorem positive_infinity : Positive (UnpackedFloat.unpack spec (packedInfinity spec .positive)) := by
  refine positive_unpack (unpackSign_packComponents ..) (fun _ => unpackMantissa_packComponents) fun small => ?_
  rw [packedInfinity, unpackExponent_packComponents] at small
  exact absurd small.symm exponent_ne

end

/-! ## Rounding -/

section
variable {m : Nat} {e : Int}

theorem minExponent_eq (spec : Format) :
    spec.minExponent = 1 - (spec.exponentBias + spec.mantissaBitsWithoutImplicit : Int) := by
  have := Nat.one_le_two_pow (n := spec.exponentBits - 1)
  simp only [Format.minExponent, Format.exponentBias, Format.mantissaBits]
  push_cast [this]
  ring

theorem mantissa_shiftRight (em : ExtendedMantissa) (n : Nat) : (em >>> n).mantissa = em.mantissa / 2 ^ n := by
  show (n.repeat ExtendedMantissa.shiftRightOne em).mantissa = _
  induction n with
  | zero => exact (Nat.div_one _).symm
  | succ n ih =>
    rw [Nat.repeat, Nat.pow_succ, ← Nat.div_div_eq_div_mul, ← ih]
    rfl

/-- The mantissa is of no more digits than the format has, and the number a multiple of the smallest one. -/
structure InFormat (spec : Format) (m : Nat) (e : Int) : Prop where
  positive : 0 < m
  digits : m < 2 ^ spec.mantissaBits
  grid : spec.minExponent ≤ e

/-- Digits are cut off only where there are too many of them, so that the first one stays. -/
theorem inFormat_shift (positive : 0 < m) (grid : spec.minExponent ≤ e) :
    InFormat spec (shiftToTargetExponent spec m e .exact).1.mantissa (shiftToTargetExponent spec m e .exact).2 := by
  have cut : (spec.targetExponent (totalExponent m e) - e).toNat = m.log2 + 1 - spec.mantissaBits := by
    unfold Format.targetExponent totalExponent
    omega
  have digits : 0 < spec.mantissaBits := Nat.lt_add_right _ Nat.one_pos
  have first : 2 ^ m.log2 ≤ m := Nat.log2_self_le (Nat.ne_of_gt positive)
  have last : m < 2 ^ (m.log2 + 1) := Nat.lt_log2_self
  have mantissa : (shiftToTargetExponent spec m e .exact).1.mantissa = m / 2 ^ (m.log2 + 1 - spec.mantissaBits) := by
    rw [← cut]
    exact mantissa_shiftRight _ _
  refine ⟨?_, ?_, ?_⟩
  · rw [mantissa]
    exact Nat.div_pos (Nat.le_trans (Nat.pow_le_pow_right Nat.two_pos (by omega)) first) (Nat.two_pow_pos _)
  · rw [mantissa, Nat.div_lt_iff_lt_mul (Nat.two_pow_pos _), ← Nat.pow_add]
    exact Nat.lt_of_lt_of_le last (Nat.pow_le_pow_right Nat.two_pos (by omega))
  · show spec.minExponent ≤ e + ((spec.targetExponent (totalExponent m e) - e).toNat : Int)
    omega

theorem le_roundedMantissa (em : ExtendedMantissa) : em.mantissa ≤ em.roundedMantissa := by
  obtain ⟨mantissa, round, sticky⟩ := em
  cases round <;> cases sticky <;>
    simp [ExtendedMantissa.roundedMantissa, ExtendedMantissa.accuracy, Accuracy.roundToNearestEven]

theorem roundWithAccuracy_finite (sign : Sign) (positive : 0 < m) (grid : spec.minExponent ≤ e) :
    ∃ mantissa exponent some, roundWithAccuracy spec sign m e .exact = .finite sign mantissa exponent some ∧
      InFormat spec mantissa exponent := by
  have first := inFormat_shift positive grid
  have second := inFormat_shift (Nat.lt_of_lt_of_le first.positive (le_roundedMantissa _)) first.grid
  unfold roundWithAccuracy
  dsimp only
  rw [dif_neg (Nat.ne_of_gt second.positive)]
  exact ⟨_, _, _, rfl, second⟩

theorem round_finite (sign : Sign) (positive : 0 < m) (grid : spec.minExponent ≤ e) :
    ∃ mantissa exponent some, UnpackedFloat.round spec sign m e = .finite sign mantissa exponent some ∧
      InFormat spec mantissa exponent := by
  have least : spec.minExponent ≤ spec.targetExponent (totalExponent m e) := le_max_right _ _
  refine roundWithAccuracy_finite sign ?_ ?_
  · rw [Nat.shiftLeft_eq]
    exact Nat.mul_pos positive (Nat.two_pow_pos _)
  · omega

/-- A number that fits is packed as one above zero, if it is not too large. -/
theorem positive_pack {positive : 0 < m} (fits : InFormat spec m e) :
    Positive (UnpackedFloat.unpack spec (UnpackedFloat.pack spec (.finite .positive m e positive))) := by
  unfold UnpackedFloat.pack
  dsimp only
  split
  · exact positive_infinity
  next room =>
  have grid := fits.grid
  rw [minExponent_eq] at grid
  split
  -- With an exponent of its own, which is neither the one of small numbers nor the one of infinity.
  · refine positive_unpack (unpackSign_packComponents ..) (fun full => ?_) fun small => ?_
    · rw [unpackExponent_packComponents, BitVec.neg_one_eq_allOnes] at full
      have largest := congrArg BitVec.toNat full
      rw [BitVec.toNat_ofNat, BitVec.toNat_allOnes, Nat.mod_eq_of_lt (by omega)] at largest
      omega
    · rw [unpackExponent_packComponents] at small
      have least := congrArg BitVec.toNat small
      rw [BitVec.toNat_ofNat, BitVec.toNat_zero, Nat.mod_eq_of_lt (by omega)] at least
      omega
  next short =>
  -- Without one, all digits of the mantissa are kept.
  refine positive_unpack (unpackSign_packComponents ..) (fun full => ?_) fun _ none => ?_
  · rw [unpackExponent_packComponents] at full
    exact absurd full exponent_ne
  · rw [unpackMantissa_packComponents] at none
    have digits : m < 2 ^ spec.mantissaBitsWithoutImplicit := by
      have long := (Nat.log2_lt (Nat.ne_of_gt positive)).mpr fits.digits
      refine (Nat.log2_lt (Nat.ne_of_gt positive)).mp ?_
      unfold Format.mantissaBits at long short
      omega
    have least := congrArg BitVec.toNat none
    rw [BitVec.toNat_ofNat, BitVec.toNat_zero, Nat.mod_eq_of_lt digits] at least
    omega

theorem positive_round (positive : 0 < m) (grid : spec.minExponent ≤ e) :
    Positive (UnpackedFloat.unpack spec (UnpackedFloat.pack spec (UnpackedFloat.round spec .positive m e))) := by
  obtain ⟨mantissa, exponent, some, rounded, fits⟩ := round_finite .positive positive grid
  rw [rounded]
  exact positive_pack fits

end

/-! ## Sums -/

section
variable {u v : UnpackedFloat} {x y : Float}

/-- A finite number is a multiple of the smallest one of the format. -/
def OnGrid (spec : Format) : UnpackedFloat → Prop
  | .finite _ _ exponent _ => spec.minExponent ≤ exponent
  | _ => True

theorem onGrid_unpack (b : BitVec spec.numBits) : OnGrid spec (UnpackedFloat.unpack spec b) := by
  unfold UnpackedFloat.unpack
  dsimp only
  split
  · split <;> trivial
  · split
    · split
      · trivial
      · show spec.minExponent ≤ _
        rw [minExponent_eq]
        omega
    · next some =>
      have least : (unpackExponent b).toNat ≠ 0 := fun none => some (BitVec.eq_of_toNat_eq none)
      show spec.minExponent ≤ _
      rw [minExponent_eq]
      omega

theorem positive_add_finite {m n : Nat} {e f : Int} {some : 0 < m} {other : 0 < n} (grid : spec.minExponent ≤ e)
    (grid' : spec.minExponent ≤ f) : Positive (UnpackedFloat.unpack spec (UnpackedFloat.pack spec
      (add spec (.finite .positive m e some) (.finite .positive n f other)))) := by
  have first : 0 < m <<< (e - min e f).toNat := by
    rw [Nat.shiftLeft_eq]
    exact Nat.mul_pos some (Nat.two_pow_pos _)
  have sum : 0 < ((m <<< (e - min e f).toNat : Nat) : Int) + ((n <<< (f - min e f).toNat : Nat) : Int) :=
    Int.add_pos_of_pos_of_nonneg (Int.natCast_pos.mpr first) (Int.natCast_nonneg _)
  unfold add decreaseExponent UnpackedFloat.normalize
  simp only [Sign.apply, Int.compare_eq_gt.mpr sum]
  exact positive_round (by omega) (le_min grid grid')

theorem positive_add (hu : Positive u) (hv : NonNegative v) (gu : OnGrid spec u) (gv : OnGrid spec v)
    (kept : UnpackedFloat.unpack spec (UnpackedFloat.pack spec u) = u) :
    Positive (UnpackedFloat.unpack spec (UnpackedFloat.pack spec (add spec u v))) := by
  obtain ⟨sign, rfl⟩ | rfl | ⟨m, e, some, rfl⟩ := hu.nonNegative.cases
  · cases hu
  · obtain ⟨sign', rfl⟩ | rfl | ⟨n, f, other, rfl⟩ := hv.cases <;> exact positive_infinity
  · obtain ⟨sign', rfl⟩ | rfl | ⟨n, f, other, rfl⟩ := hv.cases
    -- zero is left out, and the other number packed as it is
    · exact kept.symm ▸ hu
    · exact positive_infinity
    · exact positive_add_finite gu gv

theorem add_comm_nonNegative (hu : NonNegative u) (hv : NonNegative v) : add spec u v = add spec v u := by
  obtain ⟨sign, rfl⟩ | rfl | ⟨m, e, some, rfl⟩ := hu.cases <;>
    obtain ⟨sign', rfl⟩ | rfl | ⟨n, f, other, rfl⟩ := hv.cases
  case inl.inl => cases sign <;> cases sign' <;> rfl
  case inr.inr.inr.inr => simp only [add, min_comm f e, Int.add_comm]
  all_goals rfl

theorem le_iff_unpack64 : x ≤ y ↔ UnpackedFloat.le x.toModel.unpack y.toModel.unpack = true := by
  show decide _ = true ↔ _
  rw [decide_eq_true_iff]
  exact Iff.rfl

theorem lt_iff_unpack64 : x < y ↔ UnpackedFloat.lt x.toModel.unpack y.toModel.unpack = true := by
  show decide _ = true ↔ _
  rw [decide_eq_true_iff]
  exact Iff.rfl

theorem zero_le_iff64 : 0 ≤ x ↔ NonNegative x.toModel.unpack := le_iff_unpack64

theorem zero_lt_iff_unpack64 : 0 < x ↔ Positive x.toModel.unpack := lt_iff_unpack64

theorem not_zero_lt_iff_le64 (h : 0 ≤ x) : ¬ 0 < x ↔ x ≤ 0 := by
  rw [zero_lt_iff_unpack64, le_iff_unpack64]
  exact not_positive_iff (zero_le_iff64.mp h)

theorem zero_le_of_lt64 (h : 0 < x) : 0 ≤ x := zero_le_iff64.mpr (zero_lt_iff_unpack64.mp h).nonNegative

theorem unpack_pack_self (x : Float) :
    UnpackedFloat.unpack .binary64 (UnpackedFloat.pack .binary64 x.toModel.unpack) = x.toModel.unpack :=
  congrArg (UnpackedFloat.unpack .binary64) (pack_unpack_of_valid x.toModel.valid)

theorem zero_lt_add_of_left (hx : 0 < x) (hy : 0 ≤ y) : 0 < x + y :=
  zero_lt_iff_unpack64.mpr (positive_add (zero_lt_iff_unpack64.mp hx) (zero_le_iff64.mp hy) (onGrid_unpack _)
    (onGrid_unpack _) (unpack_pack_self x))

theorem add_comm64 (hx : 0 ≤ x) (hy : 0 ≤ y) : x + y = y + x :=
  congrArg (fun sum => Float.ofModel (.pack sum)) (add_comm_nonNegative (zero_le_iff64.mp hx) (zero_le_iff64.mp hy))

/-- Two zeros add up to one. -/
theorem add_zeros (hx : 0 ≤ x) (hy : 0 ≤ y) (none : ¬ 0 < x) (none' : ¬ 0 < y) : 0 ≤ x + y ∧ ¬ 0 < x + y := by
  rw [zero_lt_iff_unpack64] at *
  rw [zero_le_iff64] at *
  have zero {u : UnpackedFloat} (h : NonNegative u) (none : ¬ Positive u) : ∃ sign, u = .zero sign := by
    obtain zero | rfl | ⟨_, _, _, rfl⟩ := h.cases
    · exact zero
    · exact absurd rfl none
    · exact absurd rfl none
  obtain ⟨sign, zero₁⟩ := zero hx none
  obtain ⟨sign', zero₂⟩ := zero hy none'
  have sum : ∃ sign, (x + y).toModel.unpack = .zero sign := by
    show ∃ sign, UnpackedFloat.unpack .binary64 (UnpackedFloat.pack .binary64
      (add .binary64 x.toModel.unpack y.toModel.unpack)) = .zero sign
    rw [zero₁, zero₂]
    cases sign <;> cases sign' <;> exact ⟨_, unpack_packedZero⟩
  obtain ⟨sign, zero₃⟩ := sum
  rw [zero₃]
  exact ⟨rfl, Bool.false_ne_true⟩

/-- A sum of numbers that are not below zero is above zero if one of them is, and not below zero in any case. -/
theorem zero_lt_add64 (hx : 0 ≤ x) (hy : 0 ≤ y) : 0 ≤ x + y ∧ (0 < x + y ↔ 0 < x ∨ 0 < y) := by
  by_cases left : 0 < x
  · have sum := zero_lt_add_of_left left hy
    exact ⟨zero_le_of_lt64 sum, iff_of_true sum (.inl left)⟩
  by_cases right : 0 < y
  · have sum := zero_lt_add_of_left right hx
    rw [add_comm64 hy hx] at sum
    exact ⟨zero_le_of_lt64 sum, iff_of_true sum (.inr right)⟩
  obtain ⟨least, none⟩ := add_zeros hx hy left right
  exact ⟨least, iff_of_false none (not_or.mpr ⟨left, right⟩)⟩

end

/-! ## Wider formats -/

section
variable {w : Float32}

theorem zero_lt_iff_unpack : 0 < w ↔ Positive w.toModel.unpack := lt_iff_unpack

theorem not_zero_lt_iff_le (h : 0 ≤ w) : ¬ 0 < w ↔ w ≤ 0 := by
  rw [zero_lt_iff_unpack, le_iff_unpack]
  exact not_positive_iff (zero_le_iff.mp h)

theorem unpack_widen (w : Float32) : (WeightedDraw.widen w).toModel.unpack =
    UnpackedFloat.unpack .binary64 (UnpackedFloat.pack .binary64 (match w.toModel.unpack with
      | .finite sign mantissa exponent _ => UnpackedFloat.round .binary64 sign mantissa exponent
      | other => other)) := rfl

/-- A number is on the same side of zero in the wider format. -/
theorem zero_lt_widen (h : 0 ≤ w) : 0 ≤ WeightedDraw.widen w ∧ (0 < WeightedDraw.widen w ↔ 0 < w) := by
  have grid : OnGrid .binary32 w.toModel.unpack := onGrid_unpack _
  rw [zero_lt_iff_unpack64, zero_le_iff64, zero_lt_iff_unpack, unpack_widen]
  obtain ⟨sign, same⟩ | same | ⟨m, e, some, same⟩ := (zero_le_iff.mp h).cases <;> rw [same] at grid ⊢
  · have zero : UnpackedFloat.unpack .binary64 (UnpackedFloat.pack .binary64 (.zero sign)) = .zero sign :=
      unpack_packedZero
    rw [zero]
    exact ⟨rfl, Iff.rfl⟩
  · exact ⟨nonNegative_infinity, iff_of_true positive_infinity rfl⟩
  · have wide : Format.binary64.minExponent ≤ e := Int.le_trans (by decide) grid
    exact ⟨(positive_round some wide).nonNegative, iff_of_true (positive_round some wide) rfl⟩

end

end BehaviorTree
