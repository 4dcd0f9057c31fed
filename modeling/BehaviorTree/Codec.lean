/-
  BehaviorTree.Codec: limits, events and logs as JSON.

  Encoding lists the fields in order. Decoding accepts objects and lists of fields
  (`Json.recordFields`), natural numbers of 64 bits, and `null` only for an absent
  capacity. Fields may be missing from limits, where the defaults stand in, and from
  nothing else.
-/

import BehaviorTree.Json.Printer
import BehaviorTree.Json.Reader
import BehaviorTree.Limits
import BehaviorTree.Trace.Event

namespace BehaviorTree

namespace Json

def ofWord (n : UInt64) : Json := ofNat n.toNat

/-- A natural number of 64 bits. -/
def word? : Json → Option UInt64
  | number n => do
    let n ← n.nat?
    if n < UInt64.size then some (UInt64.ofNat n) else none
  | _ => none

def string? : Json → Option String
  | text s => s
  | _ => none

end Json

namespace Limits

def toJson (l : Limits) : Json :=
  .ofMembers [("max_call_depth", .ofWord l.maxCallDepth),
    ("call_stack_capacity", match l.stackCapacity with
      | none => .null
      | some capacity => .ofWord capacity)]

/-- A capacity, or none. -/
def capacityOfJson? : Json → Option (Option UInt64)
  | .null => some none
  | j => some <$> j.word?

def ofJson? (j : Json) : Option Limits := do
  match ← j.recordFields ["max_call_depth", "call_stack_capacity"] with
  | [depth, capacity] =>
    let defaults : Limits := {}
    let maxCallDepth ← match depth with
      | none => some defaults.maxCallDepth
      | some j => j.word?
    let stackCapacity ← match capacity with
      | none => some defaults.stackCapacity
      | some j => capacityOfJson? j
    return { maxCallDepth, stackCapacity }
  | _ => none

end Limits

namespace TraceEvent

def toJson (e : TraceEvent) : Json :=
  .ofMembers [("tick", .ofWord e.tick), ("tag", .ofString e.tag), ("a", .ofWord e.a),
    ("b", .ofWord e.b)]

def ofJson? (j : Json) : Option TraceEvent := do
  match ← j.recordFields ["tick", "tag", "a", "b"] with
  | [some tick, some tag, some a, some b] =>
    return { tick := ← tick.word?, tag := ← tag.string?, a := ← a.word?, b := ← b.word? }
  | _ => none

end TraceEvent

namespace TraceLog

def toJson (l : TraceLog) : Json :=
  .ofMembers [("events", .list (l.events.toList.map TraceEvent.toJson))]

/-- A list of events. -/
def eventsOfJson? : Json → Option (List TraceEvent)
  | .list items => items.mapM TraceEvent.ofJson?
  | _ => none

def ofJson? (j : Json) : Option TraceLog := do
  match ← j.recordFields ["events"] with
  | [some events] => return ⟨(← eventsOfJson? events).toArray⟩
  | _ => none

end TraceLog

end BehaviorTree
