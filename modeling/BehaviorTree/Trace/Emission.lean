/-
  BehaviorTree.Trace.Emission: handing an event to the destinations on a board.

  A board can hold a log and a sink, each as an object under an id of its own. An event
  goes to the log first and to the sink after it; an object of another type under either
  id is a fault, and what was written before it stays written.
-/

import BehaviorTree.Board

namespace BehaviorTree

/-- The id of the log object. -/
def TraceLog.key : UInt64 := 0xF10E7ACE00000001

/-- The id of the sink object. -/
def Sink.key : UInt64 := 0xF10E7ACE00000002

/-- The board after an event was handed over, and what its sink made of the event. -/
def Board.emit (b : Board) (e : TraceEvent) : Board × Except Fault (Option Delivery) :=
  match b.modifyObj .traceLog TraceLog.key (·.push e) with
  | .error fault => (b, .error fault)
  | .ok (_, logged) => match logged.getObj .traceSink Sink.key with
    | .error fault => (logged, .error fault)
    | .ok none => (logged, .ok none)
    | .ok (some sink) => (logged, .ok (sink.deliver e))

/-- What may go wrong is that there is something else under one of the ids. -/
theorem Board.emit_error {b : Board} {e : TraceEvent} {fault : Fault} (h : (b.emit e).2 = .error fault) :
    ∃ id, fault = .typeMismatch id := by
  unfold emit at h
  split at h
  · next failed =>
    cases h
    exact ⟨_, modifyObj_error failed⟩
  · split at h
    · next failed =>
      cases h
      exact ⟨_, getObj_error failed⟩
    · cases h
    · cases h

end BehaviorTree
