/-
  BehaviorTree.Decimal: the shortest decimal text of a binary32 number.

  Every finite binary32 number is a whole multiple of 2^-149, hence a whole number of
  units of 10^-149. The decimals that read back as the number fill an interval around it,
  whose ends belong to it when the significand is even. `Interval.shortest` takes the
  coarsest grid of powers of ten that has a point inside; of two such points it takes the
  nearer, of two equally near ones the larger. `text` writes that point positionally,
  without an exponent.
-/

namespace BehaviorTree.Decimal

/-- How many decimal places the smallest binary32 number needs. -/
def places : Nat := 149

/-- One, in units of `10 ^ -places`. -/
def one : Nat := Nat.pow 10 places

/-- The decimals that read back as one positive number, in units of `10 ^ -places`. The distances
to the two ends are given in quarter units. -/
structure Interval where
  value : Nat
  below : Nat
  above : Nat
  closed : Bool

namespace Interval

/-- Whether `x` reads back as the number. -/
def holds (i : Interval) (x : Nat) : Bool :=
  let low := 4 * i.value - i.below
  let high := 4 * i.value + i.above
  if i.closed then low ≤ 4 * x && 4 * x ≤ high else low < 4 * x && 4 * x < high

/-- The multiple of `step` inside the interval that is nearest to its number. -/
def onGrid (i : Interval) (step : Nat) : Option Nat :=
  let down := i.value / step * step
  let up := down + step
  match i.holds down, i.holds up with
  | true, true => some (if i.value - down < up - i.value then down else up)
  | true, false => some down
  | false, true => some up
  | false, false => none

/-- The point of the coarsest grid, looking at the grids of `10 ^ k` and finer. -/
def coarsest (i : Interval) : Nat → Nat
  | 0 => i.value
  | k + 1 => match i.onGrid (Nat.pow 10 (k + 1)) with
    | some x => x
    | none => i.coarsest k

/-- The decimal with the fewest digits in the interval. -/
def shortest (i : Interval) : Nat := i.coarsest 188

end Interval

/-- The values of the fraction field: the weight of the bit that goes without saying. -/
def fractions : Nat := Nat.pow 2 23

/-- The decimals that read back as the positive number with these exponent and fraction fields. -/
def interval (exponent fraction : Nat) : Interval :=
  let significand := if exponent = 0 then fraction else fraction + fractions
  let gap := Nat.pow 2 (max exponent 1 - 1) * Nat.pow 5 places
  { value := significand * gap
    below := if fraction = 0 ∧ 1 < exponent then gap else 2 * gap
    above := 2 * gap
    closed := significand % 2 = 0 }

/-- The digits of `n` with zeros in front, `width` in all. -/
def padded (width n : Nat) : List Char :=
  let digits := Nat.toDigits 10 n
  List.replicate (width - digits.length) '0' ++ digits

/-- A number of units of `10 ^ -places`, written without trailing zeros after the point. -/
def positional (n : Nat) : String :=
  let whole := Nat.repr (n / one)
  let fraction := ((padded places (n % one)).reverse.dropWhile (· = '0')).reverse
  if fraction.isEmpty then whole else whole ++ "." ++ String.ofList fraction

/-- The shortest text that reads back as `x`. -/
def text (x : Float32) : String :=
  let bits := x.toBits.toNat
  let exponent := bits / fractions % 256
  let fraction := bits % fractions
  let sign := if 256 * fractions ≤ bits then "-" else ""
  if exponent = 255 then
    if fraction = 0 then sign ++ "inf" else "NaN"
  else if exponent = 0 ∧ fraction = 0 then sign ++ "0"
  else sign ++ positional (interval exponent fraction).shortest

end BehaviorTree.Decimal
