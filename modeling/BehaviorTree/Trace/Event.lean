/-
  BehaviorTree.Trace.Event: one recorded step of a run, the log that collects steps, and
  the sinks that pass them on.
-/

namespace BehaviorTree

/-- One recorded step of a run. -/
structure TraceEvent where
  tick : UInt64
  tag : String
  a : UInt64 := 0
  b : UInt64 := 0
  deriving DecidableEq

namespace Tag

/-! The tags of the library's own events. `a` is a call depth; `b` is a status code, or the limit
for `subtreeOverflow`. -/

def subtreeEnter : String := "flow.subtree.enter"
def subtreeExit : String := "flow.subtree.exit"
def subtreeOverflow : String := "flow.subtree.overflow"
def scopeEnter : String := "flow.scope.enter"
def scopeExit : String := "flow.scope.exit"
def earlyReturn : String := "flow.return"

/-- How every tag of the library begins. -/
def reserved : String := "flow."

end Tag

/-- The tag begins with `start`. -/
def TraceEvent.tagStartsWith (e : TraceEvent) (start : String) : Bool :=
  start.toList.isPrefixOf e.tag.toList

/-- The event is one of the library's own. -/
def TraceEvent.isRuntime (e : TraceEvent) : Bool := e.tagStartsWith Tag.reserved

/-- The events of a run in the order they were emitted. -/
structure TraceLog where
  events : Array TraceEvent := #[]
  deriving DecidableEq

namespace TraceLog

def push (l : TraceLog) (e : TraceEvent) : TraceLog := ⟨l.events.push e⟩

/-- The events with exactly this tag. -/
def tagged (l : TraceLog) (tag : String) : Array TraceEvent := l.events.filter (·.tag = tag)

/-- The events of one tick. -/
def atTick (l : TraceLog) (tick : UInt64) : Array TraceEvent := l.events.filter (·.tick = tick)

end TraceLog

/-- Where events are streamed to. -/
inductive Sink where
  | silent
  | recorder
  | logger
  | startingWith (start : String) (inner : Sink)
  deriving DecidableEq

/-- What becomes of an event that a sink lets through. -/
inductive Delivery where
  | recorded (e : TraceEvent)
  | logged (e : TraceEvent)
  deriving DecidableEq

/-- What a sink does with an event. -/
def Sink.deliver : Sink → TraceEvent → Option Delivery
  | silent, _ => none
  | recorder, e => some (.recorded e)
  | logger, e => some (.logged e)
  | startingWith start inner, e => if e.tagStartsWith start then inner.deliver e else none

end BehaviorTree
