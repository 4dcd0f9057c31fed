import BehaviorTree.Behaviour.Call
import BehaviorTree.Behaviour.Choice
import BehaviorTree.Behaviour.Concurrent
import BehaviorTree.Behaviour.Leaf
import BehaviorTree.Behaviour.Ordered
import BehaviorTree.Behaviour.Reactive
import BehaviorTree.Behaviour.Repetition
import BehaviorTree.Behaviour.Result
import BehaviorTree.Behaviour.Scope
import BehaviorTree.Behaviour.Timed
import BehaviorTree.Board
import BehaviorTree.Board.Layers
import BehaviorTree.CallStack
import BehaviorTree.Callback
import BehaviorTree.Codec
import BehaviorTree.Context
import BehaviorTree.Decimal
import BehaviorTree.DepthSlots
import BehaviorTree.Diagnostic
import BehaviorTree.Fault
import BehaviorTree.Json.Basic
import BehaviorTree.Json.Printer
import BehaviorTree.Json.Reader
import BehaviorTree.Limits
import BehaviorTree.Machine
import BehaviorTree.Node
import BehaviorTree.Node.Behaviour
import BehaviorTree.Proofs.Abandon
import BehaviorTree.Proofs.Accord
import BehaviorTree.Proofs.Accord.Behaviours
import BehaviorTree.Proofs.Accord.Trees
import BehaviorTree.Proofs.Archive
import BehaviorTree.Proofs.AtWork
import BehaviorTree.Proofs.Availability
import BehaviorTree.Proofs.Bracket
import BehaviorTree.Proofs.Brackets
import BehaviorTree.Proofs.CallGuard
import BehaviorTree.Proofs.CleanExit
import BehaviorTree.Proofs.Conduct
import BehaviorTree.Proofs.Conduct.Behaviours
import BehaviorTree.Proofs.Conduct.Several
import BehaviorTree.Proofs.Conduct.Trees
import BehaviorTree.Proofs.ContextFrame
import BehaviorTree.Proofs.Copies
import BehaviorTree.Proofs.Course
import BehaviorTree.Proofs.Course.Behaviours
import BehaviorTree.Proofs.Course.Trees
import BehaviorTree.Proofs.Decisions
import BehaviorTree.Proofs.Deeds
import BehaviorTree.Proofs.Depth
import BehaviorTree.Proofs.Diary
import BehaviorTree.Proofs.Discipline
import BehaviorTree.Proofs.Discipline.Resets
import BehaviorTree.Proofs.Discipline.Several
import BehaviorTree.Proofs.Discipline.Single
import BehaviorTree.Proofs.Discipline.Trees
import BehaviorTree.Proofs.Draws
import BehaviorTree.Proofs.Dropped
import BehaviorTree.Proofs.Duality
import BehaviorTree.Proofs.Duality.Concurrent
import BehaviorTree.Proofs.Duality.Inverters
import BehaviorTree.Proofs.Duality.Ordered
import BehaviorTree.Proofs.Duality.Wrapped
import BehaviorTree.Proofs.EarlyReturn
import BehaviorTree.Proofs.Elapsed
import BehaviorTree.Proofs.Entries
import BehaviorTree.Proofs.Erasure
import BehaviorTree.Proofs.Flattening
import BehaviorTree.Proofs.Flattening.Nested
import BehaviorTree.Proofs.Flattening.Ordered
import BehaviorTree.Proofs.Flattening.Reactive
import BehaviorTree.Proofs.Guard
import BehaviorTree.Proofs.History
import BehaviorTree.Proofs.Indices
import BehaviorTree.Proofs.LastLeft
import BehaviorTree.Proofs.Leeway
import BehaviorTree.Proofs.Leeway.Room
import BehaviorTree.Proofs.Lending
import BehaviorTree.Proofs.Lending.Calls
import BehaviorTree.Proofs.Lending.Stays
import BehaviorTree.Proofs.Lending.Trees
import BehaviorTree.Proofs.Lockstep
import BehaviorTree.Proofs.Lockstep.Behaviours
import BehaviorTree.Proofs.Lockstep.Calls
import BehaviorTree.Proofs.Lockstep.Cases
import BehaviorTree.Proofs.Lockstep.Nodes
import BehaviorTree.Proofs.Lockstep.Resets
import BehaviorTree.Proofs.Lockstep.Several
import BehaviorTree.Proofs.Lockstep.Sharing
import BehaviorTree.Proofs.Lockstep.Trees
import BehaviorTree.Proofs.Minutes
import BehaviorTree.Proofs.Minutes.Polls
import BehaviorTree.Proofs.Minutes.Starts
import BehaviorTree.Proofs.Mirror
import BehaviorTree.Proofs.Mirror.Trees
import BehaviorTree.Proofs.Nested
import BehaviorTree.Proofs.Nested.Behaviours
import BehaviorTree.Proofs.Nested.Log
import BehaviorTree.Proofs.Nested.Trees
import BehaviorTree.Proofs.Nested.Unfinished
import BehaviorTree.Proofs.Nested.Words
import BehaviorTree.Proofs.Overlay
import BehaviorTree.Proofs.Overlay.Outward
import BehaviorTree.Proofs.Overlay.Suspended
import BehaviorTree.Proofs.Overlay.Trees
import BehaviorTree.Proofs.Overlay.Views
import BehaviorTree.Proofs.Passage
import BehaviorTree.Proofs.Period
import BehaviorTree.Proofs.Place
import BehaviorTree.Proofs.Reached
import BehaviorTree.Proofs.ReadBack
import BehaviorTree.Proofs.Recall
import BehaviorTree.Proofs.Reentry
import BehaviorTree.Proofs.Refusals
import BehaviorTree.Proofs.ResetComplete
import BehaviorTree.Proofs.ResetDiscipline
import BehaviorTree.Proofs.ResetFrame
import BehaviorTree.Proofs.Resets
import BehaviorTree.Proofs.Residue
import BehaviorTree.Proofs.Returns.Goes
import BehaviorTree.Proofs.Returns.Quiet
import BehaviorTree.Proofs.Returns.Several
import BehaviorTree.Proofs.Returns.Trees
import BehaviorTree.Proofs.Rounding
import BehaviorTree.Proofs.Rounds
import BehaviorTree.Proofs.Rounds.Choice
import BehaviorTree.Proofs.Rounds.Concurrent
import BehaviorTree.Proofs.Rounds.Ordered
import BehaviorTree.Proofs.Rounds.Reactive
import BehaviorTree.Proofs.Rounds.Repetition
import BehaviorTree.Proofs.Rounds.Timed
import BehaviorTree.Proofs.Run
import BehaviorTree.Proofs.Setting
import BehaviorTree.Proofs.Shares
import BehaviorTree.Proofs.Sharing
import BehaviorTree.Proofs.Shuffling
import BehaviorTree.Proofs.SlotFrame
import BehaviorTree.Proofs.Spells
import BehaviorTree.Proofs.Standing
import BehaviorTree.Proofs.Sweep
import BehaviorTree.Proofs.Tame
import BehaviorTree.Proofs.Ticks.Calls
import BehaviorTree.Proofs.Ticks.Concurrent
import BehaviorTree.Proofs.Ticks.Several
import BehaviorTree.Proofs.Ticks.Single
import BehaviorTree.Proofs.Tracing
import BehaviorTree.Proofs.Tracing.Destinations
import BehaviorTree.Proofs.Trial
import BehaviorTree.Proofs.Turns
import BehaviorTree.Proofs.Unroll
import BehaviorTree.Proofs.Unroll.Calls
import BehaviorTree.Proofs.Unroll.Copies
import BehaviorTree.Proofs.Unroll.Episodes
import BehaviorTree.Proofs.Unroll.Layers
import BehaviorTree.Proofs.Unroll.Nodes
import BehaviorTree.Proofs.Unroll.Trees
import BehaviorTree.Proofs.Unwinding
import BehaviorTree.Proofs.Upkeep
import BehaviorTree.Proofs.Upkeep.Behaviours
import BehaviorTree.Proofs.Upkeep.Trees
import BehaviorTree.Proofs.Walks
import BehaviorTree.Proofs.Walks.Behaviours
import BehaviorTree.Proofs.Walks.Calls
import BehaviorTree.Proofs.Walks.Several
import BehaviorTree.Proofs.Walks.Trees
import BehaviorTree.Random.Generator
import BehaviorTree.Random.Picker
import BehaviorTree.Scenario.Desk
import BehaviorTree.Scenario.Plan
import BehaviorTree.Scenario.Script
import BehaviorTree.Scenario.Session
import BehaviorTree.Slot
import BehaviorTree.Stage
import BehaviorTree.Status
import BehaviorTree.Store
import BehaviorTree.System
import BehaviorTree.Trace.Emission
import BehaviorTree.Trace.Event
import BehaviorTree.Value
