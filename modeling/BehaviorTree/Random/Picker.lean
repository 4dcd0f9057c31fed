/-
  BehaviorTree.Random.Picker: ways to choose one of several children.

  A picker is asked for a child at the start of a run (`pick`) and told when the picked
  child is done (`complete`). It outlives the runs and is not reset with them.

  - `ShuffleBag` runs every child once, in random order, before any child repeats; a
    child is used up when it is done, so a run that is abandoned picks the same child
    again.
  - `WeightedDraw` draws anew each time, with chances in proportion to the weights.
  - `Rotation` goes round the children in order.
-/

import BehaviorTree.Fault
import BehaviorTree.Random.Generator

namespace BehaviorTree

/-- A random order of the children, used up from the front. -/
structure ShuffleBag where
  generator : SplitMix64
  order : Array Nat := #[]
  next : Nat := 0
  deriving DecidableEq

namespace ShuffleBag

def ofSeed (seed : UInt64) : ShuffleBag := { generator := ⟨seed⟩ }

/-- A fresh order of `count` children. -/
def refill (b : ShuffleBag) (count : Nat) : ShuffleBag :=
  let (order, generator) := Generator.shuffle (Array.range count) b.generator
  { generator, order }

/-- The bag is for another number of children, or used up. -/
def isSpent (b : ShuffleBag) (count : Nat) : Bool := b.order.size ≠ count || count ≤ b.next

def pick (b : ShuffleBag) (count : Nat) : Option Nat × ShuffleBag :=
  if count = 0 then (none, b)
  else
    let b := if b.isSpent count then b.refill count else b
    (b.order[b.next]?, b)

/-- Uses the front child up if it is the one that is done. -/
def complete (b : ShuffleBag) (index : Nat) : ShuffleBag :=
  if b.order[b.next]? = some index then { b with next := b.next + 1 } else b

end ShuffleBag

/-- Independent draws by weight. -/
structure WeightedDraw where
  generator : SplitMix64
  weights : List Float32
  weights_ok : ∀ w ∈ weights, w.isFinite = true ∧ 0 ≤ w

namespace WeightedDraw

/-- The same number with more digits to come. -/
def widen (w : Float32) : Float :=
  ⟨.pack <| match w.toModel.unpack with
    | .finite sign mantissa exponent _ => .round .binary64 sign mantissa exponent
    | other => other⟩

/-- Refuses weights that are negative or not finite. -/
def ofSeed (seed : UInt64) (weights : List Float32) : Except Fault WeightedDraw :=
  if h : ∀ w ∈ weights, w.isFinite = true ∧ 0 ≤ w then .ok ⟨⟨seed⟩, weights, h⟩
  else .error .badWeight

/-- Refuses a number of weights other than that of the children, before it looks at the weights. -/
def forChildren (children : Nat) (seed : UInt64) (weights : List Float32) :
    Except Fault WeightedDraw :=
  if weights.length = children then ofSeed seed weights
  else .error (.weightCount weights.length children)

/-- The child whose share of the weights holds `roll`, counting from `index`. Rounding can leave
the roll just past all shares; then it is `last`, the last child with a share. -/
def scan : List Float32 → (index : Nat) → (roll : Float) → (last : Option Nat) → Option Nat
  | [], _, _, last => last
  | w :: rest, index, roll, last =>
    if w ≤ 0 then scan rest (index + 1) roll last
    else if roll < widen w then some index
    else scan rest (index + 1) (roll - widen w) (some index)

/-- The weights of the first `count` children, added up. -/
def total (d : WeightedDraw) (count : Nat) : Float :=
  (d.weights.take count).foldl (fun sum w => sum + widen w) 0

/-- Draws only if some child has a share. -/
def pick (d : WeightedDraw) (count : Nat) : Option Nat × WeightedDraw :=
  if d.total count ≤ 0 then (none, d)
  else
    let (roll, generator) := Generator.unit64 d.generator
    (scan (d.weights.take count) 0 (roll * d.total count) none, { d with generator })

end WeightedDraw

/-- The child whose turn it is. -/
structure Rotation where
  cursor : UInt64 := 0
  deriving DecidableEq

namespace Rotation

def pick (r : Rotation) (count : Nat) : Option Nat :=
  if count = 0 then none else some (r.cursor.toNat % count)

def complete (_ : Rotation) (index : Nat) : Rotation := ⟨UInt64.ofNat index + 1⟩

end Rotation

/-- A way to choose one of several children, with all that it remembers. -/
inductive Picker where
  | bag (b : ShuffleBag)
  | weighted (d : WeightedDraw)
  | rotation (r : Rotation)

namespace Picker

/-- The child to run among `count`, if there is one to run. -/
def pick : Picker → (count : Nat) → Option Nat × Picker
  | bag b, count => let (index, b) := b.pick count; (index, bag b)
  | weighted d, count => let (index, d) := d.pick count; (index, weighted d)
  | rotation r, count => (r.pick count, rotation r)

/-- The picked child is done. -/
def complete : Picker → (index : Nat) → Picker
  | bag b, index => bag (b.complete index)
  | weighted d, _ => weighted d
  | rotation r, index => rotation (r.complete index)

end Picker

end BehaviorTree
