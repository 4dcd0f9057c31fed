/-
  BehaviorTree.Value: the eight types of value that a board keeps in tables of their own,
  with the operations that work alike on all of them.
-/

namespace BehaviorTree

/-- The types of value with a table on the board. -/
inductive ValueType where
  | bool
  | int32
  | int64
  | uint32
  | uint64
  | float32
  | float64
  | text
  deriving DecidableEq

namespace ValueType

/-- The values of a type. -/
@[reducible] def Carrier : ValueType → Type
  | bool => Bool
  | int32 => Int32
  | int64 => Int64
  | uint32 => UInt32
  | uint64 => UInt64
  | float32 => Float32
  | float64 => Float
  | text => String

/-- Where adding starts. -/
def zero : (t : ValueType) → t.Carrier
  | bool => false
  | int32 => 0
  | int64 => 0
  | uint32 => 0
  | uint64 => 0
  | float32 => 0
  | float64 => 0
  | text => ""

/-- Integers wrap, floats round, texts append, and truth values add without carry. -/
def add : (t : ValueType) → t.Carrier → t.Carrier → t.Carrier
  | bool, x, y => Bool.xor x y
  | int32, x, y => x + y
  | int64, x, y => x + y
  | uint32, x, y => x + y
  | uint64, x, y => x + y
  | float32, x, y => x + y
  | float64, x, y => x + y
  | text, x, y => x ++ y

/-- Equality; on floats a NaN differs from itself and the two zeros are the same. -/
def same : (t : ValueType) → t.Carrier → t.Carrier → Bool
  | bool, x, y => x == y
  | int32, x, y => x == y
  | int64, x, y => x == y
  | uint32, x, y => x == y
  | uint64, x, y => x == y
  | float32, x, y => x == y
  | float64, x, y => x == y
  | text, x, y => x == y

/-- The strict order; a NaN is below nothing, and texts go by code point. -/
def below : (t : ValueType) → t.Carrier → t.Carrier → Bool
  | bool, x, y => !x && y
  | int32, x, y => x < y
  | int64, x, y => x < y
  | uint32, x, y => x < y
  | uint64, x, y => x < y
  | float32, x, y => x < y
  | float64, x, y => x < y
  | text, x, y => x < y

end ValueType

/-- A value together with its type. -/
structure Value where
  type : ValueType
  val : type.Carrier

/-- A typed key. -/
structure Key where
  type : ValueType
  id : UInt64
  deriving DecidableEq

end BehaviorTree
