/-
  BehaviorTree.Proofs.Elapsed: time as the nodes add it up.

  Deltas are added up from zero on, one after the other, and a sum is compared with a duration
  (`Duration.Reached`). Sums of binary32 numbers are rounded, they may go down, and a sum may be no
  number at all. So a duration that one sum has reached (`Duration.Passed`) may be out of reach for
  the next one.

  The first sum after zero reaches an interval of no length if the delta is not below zero
  (`Duration.reached_single`). This is read off the binary32 model, in which a sum of zero and such a
  number is packed and unpacked again.
-/

import Mathlib
import BehaviorTree.Behaviour.Leaf

namespace BehaviorTree

/-! ## Sums of deltas -/

/-- The sum of the deltas, from zero on and in their order. -/
def elapsed (deltas : List Float32) : Float32 := deltas.foldl (· + ·) 0

@[simp] theorem elapsed_nil : elapsed [] = 0 := rfl

@[simp] theorem elapsed_snoc (deltas : List Float32) (delta : Float32) :
    elapsed (deltas ++ [delta]) = elapsed deltas + delta := by simp [elapsed]

namespace Duration

/-- The sum of these deltas reaches the duration. -/
def Reached (duration : Duration) (deltas : List Float32) : Prop := duration.length ≤ elapsed deltas

/-- The sum has reached the duration at one of these deltas. -/
def Passed (duration : Duration) (deltas : List Float32) : Prop :=
  ∃ k, 0 < k ∧ k ≤ deltas.length ∧ duration.Reached (deltas.take k)

variable {duration : Duration} {deltas : List Float32} {delta : Float32}

instance : Decidable (duration.Reached deltas) := inferInstanceAs (Decidable (duration.length ≤ elapsed deltas))

theorem not_passed_nil : ¬ duration.Passed [] := by
  rintro ⟨k, positive, none, -⟩
  exact absurd none (Nat.not_le.mpr positive)

theorem passed_snoc : duration.Passed (deltas ++ [delta]) ↔
    duration.Passed deltas ∨ duration.Reached (deltas ++ [delta]) := by
  constructor
  · rintro ⟨k, positive, among, reached⟩
    rw [List.length_append, List.length_singleton] at among
    rcases Nat.lt_or_eq_of_le among with earlier | rfl
    · have before : k ≤ deltas.length := Nat.le_of_lt_succ earlier
      rw [List.take_append_of_le_length before] at reached
      exact .inl ⟨k, positive, before, reached⟩
    · rw [List.take_of_length_le (by simp)] at reached
      exact .inr reached
  · rintro (⟨k, positive, among, reached⟩ | reached)
    · refine ⟨k, positive, by rw [List.length_append]; omega, ?_⟩
      rwa [List.take_append_of_le_length among]
    · exact ⟨(deltas ++ [delta]).length, by simp, Nat.le_refl _, by rwa [List.take_length]⟩

end Duration

/-- A tick that takes one is too short for it, and two of them are enough. -/
def Duration.oneAndAHalf : Duration := ⟨1.5, by decide⟩

/-! ## Numbers that are not below zero -/

section
open Float.Model (Format UnpackedFloat)
open Float.Model.UnpackedFloat

/-- The number is not below zero. No such thing is true of what is no number. -/
def NonNegative (u : UnpackedFloat) : Prop := UnpackedFloat.le (.zero .positive) u = true

variable {spec : Format} {b : BitVec spec.numBits}

/-- Bits without a sign are those of such a number, unless they are those of no number. -/
theorem nonNegative_unpack (sign : unpackSign b = 0#1) (number : unpackExponent b = -1#_ → unpackMantissa b = 0#_) :
    NonNegative (UnpackedFloat.unpack spec b) := by
  unfold UnpackedFloat.unpack
  dsimp only
  rw [sign]
  split
  · next infinite =>
    rw [if_pos (number infinite)]
    rfl
  · split
    · split <;> rfl
    · rfl

theorem nonNegative_infinity : NonNegative (UnpackedFloat.unpack spec (packedInfinity spec .positive)) :=
  nonNegative_unpack (unpackSign_packComponents ..) fun _ => unpackMantissa_packComponents

theorem nonNegative_zero : NonNegative (UnpackedFloat.unpack spec (packedZero spec .positive)) := by
  rw [unpack_packedZero]
  rfl

/-- A finite number may be too large to be packed as one. It never turns into no number. -/
theorem nonNegative_finite {mantissa : Nat} {exponent : Int} {positive : 0 < mantissa} : NonNegative
    (UnpackedFloat.unpack spec (UnpackedFloat.pack spec (.finite .positive mantissa exponent positive))) := by
  unfold UnpackedFloat.pack
  dsimp only
  split
  · exact nonNegative_infinity
  next fits =>
  split
  · refine nonNegative_unpack (unpackSign_packComponents ..) fun full => ?_
    rw [unpackExponent_packComponents, BitVec.neg_one_eq_allOnes] at full
    have largest := congrArg BitVec.toNat full
    rw [BitVec.toNat_ofNat, BitVec.toNat_allOnes, Nat.mod_eq_of_lt (by omega)] at largest
    omega
  · refine nonNegative_unpack (unpackSign_packComponents ..) fun full => ?_
    rw [unpackExponent_packComponents] at full
    simp [Nat.pos_iff_ne_zero.mp spec.he] at full

/-- Zero and a number that is not below it have such a sum. -/
theorem nonNegative_add {u : UnpackedFloat} (h : NonNegative u) :
    NonNegative (UnpackedFloat.unpack spec (UnpackedFloat.pack spec (add spec (.zero .positive) u))) := by
  cases u with
  | notANumber => cases h
  | infinity sign =>
    cases sign with
    | negative => cases h
    | positive => exact nonNegative_infinity
  | zero sign => cases sign <;> exact nonNegative_zero
  | finite sign mantissa exponent positive =>
    cases sign with
    | negative => cases h
    | positive => exact nonNegative_finite

theorem le_iff_unpack {x y : Float32} : x ≤ y ↔ UnpackedFloat.le x.toModel.unpack y.toModel.unpack = true := by
  show decide _ = true ↔ _
  rw [decide_eq_true_iff]
  exact Iff.rfl

theorem lt_iff_unpack {x y : Float32} : x < y ↔ UnpackedFloat.lt x.toModel.unpack y.toModel.unpack = true := by
  show decide _ = true ↔ _
  rw [decide_eq_true_iff]
  exact Iff.rfl

theorem zero_le_iff {x : Float32} : 0 ≤ x ↔ NonNegative x.toModel.unpack := le_iff_unpack

theorem zero_le_zero_add {x : Float32} (h : 0 ≤ x) : 0 ≤ 0 + x :=
  zero_le_iff.mpr (nonNegative_add (zero_le_iff.mp h))

/-- What is neither below zero nor above it is one of the two zeros, and compares like the other. -/
theorem le_of_not_pos {z x : Float32} (above : 0 ≤ z) (below : ¬ 0 < z) (h : 0 ≤ x) : z ≤ x := by
  rw [zero_le_iff] at above h
  rw [lt_iff_unpack] at below
  change ¬ UnpackedFloat.lt (.zero .positive) z.toModel.unpack = true at below
  rw [le_iff_unpack]
  generalize z.toModel.unpack = u at above below
  generalize x.toModel.unpack = v at h
  cases u with
  | notANumber => cases above
  | infinity sign =>
    cases sign with
    | negative => cases above
    | positive => exact absurd rfl below
  | finite sign =>
    cases sign with
    | negative => cases above
    | positive => exact absurd rfl below
  | zero =>
    cases v with
    | notANumber => cases h
    | zero => rfl
    | infinity sign => cases sign <;> exact h
    | finite sign => cases sign <;> exact h

end

/-- An interval of no length is over after one delta that is not below zero. -/
theorem Duration.reached_single {every : Duration} (none : ¬ 0 < every.length) {delta : Float32} (h : 0 ≤ delta) :
    every.Reached [delta] :=
  le_of_not_pos every.length_ok.2 none (zero_le_zero_add h)

end BehaviorTree
