/-
  BehaviorTree.Diagnostic: what a running tree reports to whoever watches it.

  Each diagnostic has a level, the part of the library that it comes from, and fields
  with texts; `Diagnostic.record` is their one wording.
-/

import BehaviorTree.CallStack
import BehaviorTree.Status
import BehaviorTree.Trace.Event

namespace BehaviorTree

/-- What a running tree reports. -/
inductive Diagnostic where
  | reentrantTick (tree : String)
  | noTree (depth : Nat)
  | entering (tree : String) (depth : Nat)
  | finished (tree : String) (depth : Nat) (status : Status)
  | refused (overflow : Overflow)
  | returnConsumed (depth : Nat) (requested : Status)
  | event (e : TraceEvent)

/-- A diagnostic in words. -/
structure DiagnosticRecord where
  level : String
  target : String
  fields : List (String × String)

def Diagnostic.record : Diagnostic → DiagnosticRecord
  | reentrantTick tree =>
    ⟨"WARN", "flow_tree::tree",
      [("message", "tree ticked re-entrantly; failing this tick"), ("tree", tree)]⟩
  | noTree depth =>
    ⟨"DEBUG", "flow_tree::nodes::subtree",
      [("message", "subtree source produced no tree"), ("depth", depth.repr)]⟩
  | entering tree depth =>
    ⟨"DEBUG", "flow_tree::nodes::subtree",
      [("message", "entering subtree"), ("tree", tree), ("depth", depth.repr)]⟩
  | finished tree depth status =>
    ⟨"DEBUG", "flow_tree::nodes::subtree",
      [("message", "subtree finished"), ("tree", tree), ("depth", depth.repr),
        ("status", status.name)]⟩
  | refused o =>
    ⟨"WARN", "flow_tree::nodes::subtree",
      [("message", "subtree invocation exceeded recursion limit"), ("tree", o.tree),
        ("depth", o.depth.repr), ("limit", o.limit.repr), ("kind", o.kind.name)]⟩
  | returnConsumed depth requested =>
    ⟨"TRACE", "flow_tree::nodes::decorator",
      [("message", "scope consumed early return"), ("depth", depth.repr),
        ("requested", requested.name)]⟩
  | event e =>
    ⟨"DEBUG", "flow_tools::trace",
      [("message", "trace event"), ("tick", e.tick.toNat.repr), ("tag", e.tag),
        ("a", e.a.toNat.repr), ("b", e.b.toNat.repr)]⟩

end BehaviorTree
