/-
  BehaviorTree.Json.Basic: JSON documents.

  A document keeps what a strict reader has to decide about: numbers as they are written,
  object members in order and with repetitions, and texts whose escapes name half of a
  surrogate pair, which stand for no text at all (`none`).
-/

namespace BehaviorTree

/-- A number as it is written. -/
structure Numeral where
  negative : Bool := false
  whole : List Char
  fraction : List Char := []
  /-- The exponent's sign, `true` for a minus, and its digits. -/
  exponent : Option (Bool × List Char) := none
  deriving DecidableEq

/-- A JSON document. -/
inductive Json where
  | null
  | bool (b : Bool)
  | number (n : Numeral)
  | text (s : Option String)
  | list (items : List Json)
  | object (members : List (Option String × Json))

namespace Numeral

/-- The number that decimal digits spell. -/
def natOfDigits (digits : List Char) : Nat :=
  digits.foldl (fun n c => 10 * n + (c.toNat - '0'.toNat)) 0

def ofNat (n : Nat) : Numeral := { whole := Nat.toDigits 10 n }

def ofInt (i : Int) : Numeral := { negative := i < 0, whole := Nat.toDigits 10 i.natAbs }

/-- The natural number that is written, if it has neither sign, fraction nor exponent. -/
def nat? (n : Numeral) : Option Nat :=
  if n.negative || !n.fraction.isEmpty || n.exponent.isSome then none
  else some (natOfDigits n.whole)

/-- The integer that is written, if it has neither fraction nor exponent. -/
def int? (n : Numeral) : Option Int :=
  if !n.fraction.isEmpty || n.exponent.isSome then none
  else
    let size : Int := natOfDigits n.whole
    some (if n.negative then -size else size)

/-- The nearest binary64 number. -/
def float (n : Numeral) : Float :=
  let mantissa := natOfDigits (n.whole ++ n.fraction)
  let written : Int := match n.exponent with
    | none => 0
    | some (true, digits) => -natOfDigits digits
    | some (false, digits) => natOfDigits digits
  let power := written - n.fraction.length
  let magnitude := power + (Nat.toDigits 10 mantissa).length
  let size : Float :=
    if mantissa = 0 ∨ magnitude < -340 then 0
    else if 320 < magnitude then 1 / 0
    else Float.ofScientific mantissa (power < 0) power.natAbs
  if n.negative then -size else size

end Numeral

namespace Json

def ofString (s : String) : Json := text (some s)

def ofNat (n : Nat) : Json := number (.ofNat n)

def ofInt (i : Int) : Json := number (.ofInt i)

/-- An object with the given members. -/
def ofMembers (members : List (String × Json)) : Json :=
  object (members.map fun (key, value) => (some key, value))

/-- The values of the members with this key. -/
def valuesOf (members : List (Option String × Json)) (key : String) : List Json :=
  members.filterMap fun (k, value) => if k = some key then some value else none

/-- The value of the last member with this key. -/
def get? (j : Json) (key : String) : Option Json :=
  match j with
  | object members => (valuesOf members key).getLast?
  | _ => none

/-- The values of a record's fields, each if it is there. A record is written as an object, with
other members ignored but none of its own repeated, or as a list of its first fields in order. -/
def recordFields (names : List String) : Json → Option (List (Option Json))
  | object members =>
    if members.any (·.1.isNone) then none
    else names.mapM fun name => match valuesOf members name with
      | [] => some none
      | [value] => some (some value)
      | _ => none
  | list items =>
    if items.length ≤ names.length then
      some (items.map some ++ List.replicate (names.length - items.length) none)
    else none
  | _ => none

end Json

end BehaviorTree
