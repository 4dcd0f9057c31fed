/-
  BehaviorTree.CallStack: the active calls of a tick, at most `capacity` of them.

  A frame is pushed when a tree is called and popped when the call returns from its tick.
  The stack only guards against runaway recursion: where an unfinished call resumes is
  kept by the nodes. An `Overflow` says which call was refused, and by which limit.
-/

namespace BehaviorTree

/-- An active call. -/
structure Frame where
  tree : String
  depth : Nat
  deriving DecidableEq

/-- The limit that refused a call. -/
inductive LimitKind where
  | capacity
  | maxDepth
  deriving DecidableEq

def LimitKind.name : LimitKind → String
  | capacity => "Capacity"
  | maxDepth => "MaxDepth"

/-- A call that the recursion guard refused. -/
structure Overflow where
  tree : String
  depth : Nat
  limit : Nat
  kind : LimitKind
  deriving DecidableEq

def Overflow.message (o : Overflow) : String :=
  "call stack overflow entering `" ++ o.tree ++ "` at depth " ++ o.depth.repr ++
    " (" ++ o.kind.name ++ " limit " ++ o.limit.repr ++ ")"

/-- The active calls, outermost first. -/
structure CallStack where
  capacity : Nat
  frames : List Frame := []
  deriving DecidableEq

namespace CallStack

def isFull (s : CallStack) : Bool := s.capacity ≤ s.frames.length

/-- Adds a frame on top, unless the stack is full. -/
def push (s : CallStack) (f : Frame) : Except Overflow CallStack :=
  if s.isFull then .error ⟨f.tree, f.depth, s.capacity, .capacity⟩
  else .ok { s with frames := s.frames ++ [f] }

/-- Removes the top frame, if there is one. -/
def pop (s : CallStack) : Option Frame × CallStack :=
  (s.frames.getLast?, { s with frames := s.frames.dropLast })

def top? (s : CallStack) : Option Frame := s.frames.getLast?

def clear (s : CallStack) : CallStack := { s with frames := [] }

theorem pop_push {s t : CallStack} {f : Frame} (h : s.push f = .ok t) : t.pop = (some f, s) := by
  unfold push at h
  split at h
  · cases h
  · cases h; simp [pop]

end CallStack

end BehaviorTree
