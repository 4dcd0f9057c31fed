/-
  BehaviorTree.Random.Generator: reproducible random numbers.

  A generator yields 64-bit words; all draws are made from them. `below` draws evenly from
  `0 .. bound - 1`: words at or above the largest multiple of the bound that it trusts
  (`zone`) are thrown away, since they would favour small remainders. `shuffle` is the
  Fisher-Yates shuffle from the back. `SplitMix64` is the library's own generator.
-/

namespace BehaviorTree

/-- A stream of 64-bit words. -/
class Generator (γ : Type) where
  next : γ → UInt64 × γ

namespace Generator

variable {γ : Type} [Generator γ]

/-- The upper half of a word. -/
def word32 (g : γ) : UInt32 × γ :=
  let (x, g) := next g
  ((x >>> 32).toUInt32, g)

/-- A multiple of `2 ^ -24` in `[0, 1)`. -/
def unit32 (g : γ) : Float32 × γ :=
  let (x, g) := word32 g
  ((x >>> 8).toFloat32 / 16777216, g)

/-- A multiple of `2 ^ -53` in `[0, 1)`. -/
def unit64 (g : γ) : Float × γ :=
  let (x, g) := next g
  ((x >>> 11).toFloat / 9007199254740992, g)

/-- Words below this value are accepted for `bound`; it is a multiple of `bound`. -/
def zone (bound : UInt64) : UInt64 :=
  0xFFFFFFFFFFFFFFFF - 0xFFFFFFFFFFFFFFFF % bound

/-- The first word below `limit`, if there ever is one. -/
def awaitBelow (limit : UInt64) (g : γ) : Option (UInt64 × γ) :=
  have : Nonempty (UInt64 × γ) := ⟨next g⟩
  repeatM (fun g => do
    let (x, g) := next g
    return if x < limit then .inr (x, g) else .inl g) g

theorem awaitBelow_eq (limit : UInt64) (g : γ) : awaitBelow limit g =
    if (next g).1 < limit then some (next g) else awaitBelow limit (next g).2 := by
  have : Nonempty (UInt64 × γ) := ⟨next g⟩
  rw [awaitBelow, repeatM_eq_of_monadTail]
  by_cases found : (next g).1 < limit
  · simp [repeatM.body, found]
  · simp [repeatM.body, found, awaitBelow]

/-- The same, with the first `tries` words looked at one after the other, so that draws compute where
a word to accept comes soon (`firstBelow_eq`). -/
def firstBelow (limit : UInt64) : (tries : Nat) → γ → Option (UInt64 × γ)
  | 0, g => awaitBelow limit g
  | tries + 1, g =>
    let (x, g) := next g
    if x < limit then some (x, g) else firstBelow limit tries g

theorem firstBelow_eq (limit : UInt64) (tries : Nat) (g : γ) : firstBelow limit tries g = awaitBelow limit g := by
  induction tries generalizing g with
  | zero => rfl
  | succ tries ih =>
    rw [firstBelow, awaitBelow_eq]
    simp only [ih]

/-- A number below `bound`, each as likely as any other; zero, without a draw, if `bound` is zero. -/
def below (g : γ) (bound : UInt64) : UInt64 × γ :=
  if bound = 0 then (0, g)
  else match firstBelow (zone bound) 64 g with
    | some (x, g) => (x % bound, g)
    | none => (0, g)

/-- Swaps each of the places `last, …, 1` with one drawn from the places up to it. -/
def shuffleFrom {α : Type} : (last : Nat) → Array α → γ → Array α × γ
  | 0, items, g => (items, g)
  | last + 1, items, g =>
    let (j, g) := below g (UInt64.ofNat (last + 2))
    shuffleFrom last (items.swapIfInBounds (last + 1) j.toNat) g

/-- The items in random order. -/
def shuffle {α : Type} (items : Array α) (g : γ) : Array α × γ :=
  shuffleFrom (items.size - 1) items g

end Generator

/-- A generator whose state steps by an odd constant and whose words mix the state's bits. -/
structure SplitMix64 where
  state : UInt64
  deriving DecidableEq

namespace SplitMix64

/-- The word that a state yields. -/
def mix (s : UInt64) : UInt64 :=
  let z := (s ^^^ (s >>> 30)) * 0xBF58476D1CE4E5B9
  let z := (z ^^^ (z >>> 27)) * 0x94D049BB133111EB
  z ^^^ (z >>> 31)

instance : Generator SplitMix64 where
  next g :=
    let state := g.state + 0x9E3779B97F4A7C15
    (mix state, ⟨state⟩)

end SplitMix64

/-- A generator that yields the given words and zeros after them. -/
structure Replay where
  words : List UInt64

instance : Generator Replay where
  next g := (g.words.headD 0, ⟨g.words.tail⟩)

end BehaviorTree
