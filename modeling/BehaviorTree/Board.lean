/-
  BehaviorTree.Board: the data that the nodes of a tree share.

  A board has a table for each type of value and one more for objects. A value is found
  by its type and id, so equal ids in different tables never meet. The object table holds
  objects of any type under one id space: `setObj` replaces whatever is there, while
  asking for an object under another type than it was stored with is a fault and changes
  nothing.
-/

import Std.Data.ExtTreeMap
import BehaviorTree.Fault
import BehaviorTree.Trace.Event
import BehaviorTree.Value

namespace BehaviorTree

/-- Entries by id. -/
abbrev Table (α : Type) := Std.ExtTreeMap UInt64 α

/-- The types of object. -/
inductive ObjType where
  | uint32
  | int32
  | text
  | traceLog
  | traceSink
  /-- One of any number of types that users bring along. -/
  | custom (name : String)
  deriving DecidableEq

/-- The objects of a type. To the board, those of a user's type are but bytes. -/
@[reducible] def ObjType.Carrier : ObjType → Type
  | uint32 => UInt32
  | int32 => Int32
  | text => String
  | traceLog => TraceLog
  | traceSink => Sink
  | custom _ => ByteArray

/-- An object together with its type. -/
structure Obj where
  type : ObjType
  val : type.Carrier

/-- The object seen as one of type `t`, if it is one. -/
def Obj.as? (o : Obj) (t : ObjType) : Option t.Carrier :=
  if h : o.type = t then some (h ▸ o.val) else none

/-- Values and objects by type and id. -/
structure Board where
  bools : Table Bool := ∅
  int32s : Table Int32 := ∅
  int64s : Table Int64 := ∅
  uint32s : Table UInt32 := ∅
  uint64s : Table UInt64 := ∅
  float32s : Table Float32 := ∅
  float64s : Table Float := ∅
  texts : Table String := ∅
  objects : Table Obj := ∅

namespace Board

instance : Inhabited Board := ⟨{}⟩

/-- The table for values of type `t`. -/
def table (b : Board) : (t : ValueType) → Table t.Carrier
  | .bool => b.bools
  | .int32 => b.int32s
  | .int64 => b.int64s
  | .uint32 => b.uint32s
  | .uint64 => b.uint64s
  | .float32 => b.float32s
  | .float64 => b.float64s
  | .text => b.texts

/-- Changes the table for values of type `t`. -/
def onTable (b : Board) : (t : ValueType) → (Table t.Carrier → Table t.Carrier) → Board
  | .bool, f => { b with bools := f b.bools }
  | .int32, f => { b with int32s := f b.int32s }
  | .int64, f => { b with int64s := f b.int64s }
  | .uint32, f => { b with uint32s := f b.uint32s }
  | .uint64, f => { b with uint64s := f b.uint64s }
  | .float32, f => { b with float32s := f b.float32s }
  | .float64, f => { b with float64s := f b.float64s }
  | .text, f => { b with texts := f b.texts }

/-- The number of entries in all tables. -/
def size (b : Board) : Nat :=
  b.bools.size + b.int32s.size + b.int64s.size + b.uint32s.size + b.uint64s.size +
    b.float32s.size + b.float64s.size + b.texts.size + b.objects.size

/-! ## Values -/

def get? (b : Board) (t : ValueType) (id : UInt64) : Option t.Carrier := (b.table t)[id]?

def contains (b : Board) (t : ValueType) (id : UInt64) : Bool := (b.table t).contains id

def set (b : Board) (t : ValueType) (id : UInt64) (x : t.Carrier) : Board :=
  b.onTable t (·.insert id x)

def remove (b : Board) (t : ValueType) (id : UInt64) : Board := b.onTable t (·.erase id)

/-! ## Objects -/

/-- The object under `id`, which has to be of type `t`. -/
def getObj (b : Board) (t : ObjType) (id : UInt64) : Except Fault (Option t.Carrier) :=
  match b.objects[id]? with
  | none => .ok none
  | some o => match o.as? t with
    | some x => .ok (some x)
    | none => .error (.typeMismatch id)

def containsObj (b : Board) (id : UInt64) : Bool := b.objects.contains id

def setObj (b : Board) (t : ObjType) (id : UInt64) (x : t.Carrier) : Board :=
  { b with objects := b.objects.insert id ⟨t, x⟩ }

/-- Changes the object under `id`, which has to be of type `t`, and returns the new one. -/
def modifyObj (b : Board) (t : ObjType) (id : UInt64) (f : t.Carrier → t.Carrier) :
    Except Fault (Option t.Carrier × Board) :=
  match b.getObj t id with
  | .ok (some x) => .ok (some (f x), b.setObj t id (f x))
  | .ok none => .ok (none, b)
  | .error e => .error e

/-- Moves the object under `id` out; it has to be of type `t`. -/
def removeObj (b : Board) (t : ObjType) (id : UInt64) :
    Except Fault (Option t.Carrier × Board) :=
  match b.getObj t id with
  | .ok (some x) => .ok (some x, { b with objects := b.objects.erase id })
  | .ok none => .ok (none, b)
  | .error e => .error e

/-! ## What objects of another type lead to -/

theorem getObj_error {b : Board} {t : ObjType} {id : UInt64} {fault : Fault} (h : b.getObj t id = .error fault) :
    fault = .typeMismatch id := by
  unfold getObj at h
  split at h
  · cases h
  · split at h
    · cases h
    · cases h
      rfl

theorem modifyObj_error {b : Board} {t : ObjType} {id : UInt64} {f : t.Carrier → t.Carrier} {fault : Fault}
    (h : b.modifyObj t id f = .error fault) : fault = .typeMismatch id := by
  unfold modifyObj at h
  split at h
  · cases h
  · cases h
  · next failed =>
    cases h
    exact getObj_error failed

/-! ## What each operation does to `table` -/

theorem table_onTable_self (b : Board) (t : ValueType) (f : Table t.Carrier → Table t.Carrier) :
    (b.onTable t f).table t = f (b.table t) := by
  cases t <;> rfl

theorem table_onTable_of_ne (b : Board) {t u : ValueType} (h : t ≠ u)
    (f : Table t.Carrier → Table t.Carrier) : (b.onTable t f).table u = b.table u := by
  cases t <;> cases u <;> first | rfl | exact absurd rfl h

theorem objects_onTable (b : Board) (t : ValueType) (f : Table t.Carrier → Table t.Carrier) :
    (b.onTable t f).objects = b.objects := by
  cases t <;> rfl

end Board

end BehaviorTree
