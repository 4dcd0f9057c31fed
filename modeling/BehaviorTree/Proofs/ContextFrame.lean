/-
  BehaviorTree.Proofs.ContextFrame: what a node's tick leaves of the context.

  A node that returns gives its parent the context back as it got it: the call depth, the frames
  of the call stack, the state, the limits and the time of the tick, and the layers of the board,
  each at its place. It may have written into the layers, asked for an early return, and noted
  the first refused call if none was noted (`context_restored`). That a layer is still the same
  one is told by what writes leave: whatever is so between a board and what any single write
  makes of it is so between the layer before and the layer after.
-/

import Mathlib.Data.List.Forall2
import BehaviorTree.Proofs.SlotFrame
import BehaviorTree.Proofs.Walks

namespace BehaviorTree

variable {ρ μ σ α : Type}

/-! ## What writes leave of a board -/

/-- What is so between a board and itself, passes on from write to write, and does not depend on what is
traced. -/
structure Board.Lasting (R : Board → Board → Prop) : Prop where
  refl : ∀ b, R b b
  trans : ∀ {a b c}, R a b → R b c → R a c
  traced : ∀ b e, R b (b.emit e).1

theorem Board.emit_table (b : Board) (e : TraceEvent) (t : ValueType) : (b.emit e).1.table t = b.table t := by
  unfold emit modifyObj
  cases b.getObj .traceLog TraceLog.key with
  | error fault => rfl
  | ok log =>
    cases log
    all_goals
      dsimp only
      split <;> cases t <;> rfl

/-- What a layer holds under a key, if nothing but events is written. -/
theorem Board.lasting_entry (t : ValueType) (id : UInt64) : Lasting fun b c => c.get? t id = b.get? t id where
  refl _ := rfl
  trans h k := k.trans h
  traced b e := by rw [get?, get?, emit_table]

/-- Each write of the callback to a layer respects the relation. -/
def Callback.Respects (R : Board → Board → Prop) : Callback μ σ α → Prop
  | done _ => True
  | look next => ∀ context memory, (next context memory).Respects R
  | remember _ next | trace _ _ _ next | requestReturn _ next | resetTree _ _ next => next.Respects R
  | edit _ e next => (∀ b, R b (e.apply b)) ∧ next.Respects R
  | setGlobal t id x next => (∀ b, R b (b.remove t id) ∧ R b (b.set t id x)) ∧ next.Respects R
  | takeReturn next => ∀ request, (next request).Respects R
  | takeOverflow next => ∀ overflow, (next overflow).Respects R
  | tickTree _ _ next => ∀ status, (next status).Respects R

def Node.Respects (R : Board → Board → Prop) : Node μ σ → Prop
  | action body | custom body _ => body.Respects R
  | scope hooks _ => hooks.onEnter.Respects R
  | _ => True

/-- All writes of the system's callbacks respect the relation. -/
def System.Respects (sys : System μ σ) (R : Board → Board → Prop) : Prop :=
  ∀ site node, sys.nodeAt site = some node → node.Respects R

/-! ## What a tick leaves of the context -/

/-- Every layer is at its place, with what writes leave of it. -/
structure Layers.Kept (R : Board → Board → Prop) (l k : Layers) : Prop where
  overlays : List.Forall₂ R l.overlays k.overlays
  root : R l.root k.root

/-- The context is back. A request to return early may be pending that was not, or be gone; a refused call may
be noted where none was. -/
structure Context.Kept (R : Board → Board → Prop) (c d : Context σ) : Prop where
  depth : d.depth = c.depth
  stack : d.stack = c.stack
  state : d.state = c.state
  tick : d.tick = c.tick
  delta : d.delta = c.delta
  maxDepth : d.maxDepth = c.maxDepth
  layers : c.layers.Kept R d.layers
  overflow : ∀ o, c.overflow = some o → d.overflow = some o

variable {R : Board → Board → Prop}

namespace Layers

theorem forall₂_refl (lasting : Board.Lasting R) (bs : List Board) : List.Forall₂ R bs bs :=
  List.forall₂_same.mpr fun b _ => lasting.refl b

theorem Kept.refl (lasting : Board.Lasting R) (l : Layers) : l.Kept R l :=
  ⟨forall₂_refl lasting _, lasting.refl _⟩

theorem forall₂_trans (lasting : Board.Lasting R) {as bs cs : List Board} (h : List.Forall₂ R as bs)
    (k : List.Forall₂ R bs cs) : List.Forall₂ R as cs := by
  induction h generalizing cs with
  | nil => exact k
  | cons here _ ih => cases k with
    | cons next later => exact .cons (lasting.trans here next) (ih later)

theorem Kept.trans (lasting : Board.Lasting R) {k l m : Layers} (h : k.Kept R l) (h' : l.Kept R m) : k.Kept R m :=
  ⟨forall₂_trans lasting h.overlays h'.overlays, lasting.trans h.root h'.root⟩

/-- A layer is taken off that was put on. -/
theorem Kept.pop {b : Board} {l k : Layers} (h : (l.push b).Kept R k) :
    l.Kept R { k with overlays := k.overlays.tail } := by
  obtain ⟨overlays, root⟩ := h
  refine ⟨?_, root⟩
  generalize k.overlays = bs at overlays
  cases overlays with
  | cons _ outer => exact outer

theorem kept_onRoot (lasting : Board.Lasting R) (l : Layers) {f : Board → Board} (writes : ∀ b, R b (f b)) :
    l.Kept R (l.onRoot f) := ⟨forall₂_refl lasting _, writes _⟩

theorem forall₂_modify (lasting : Board.Lasting R) (bs : List Board) (n : Nat) {f : Board → Board}
    (writes : ∀ b, R b (f b)) : List.Forall₂ R bs (bs.modify n f) := by
  induction bs generalizing n with
  | nil => cases n <;> exact .nil
  | cons b bs ih =>
    cases n with
    | zero => exact .cons (writes b) (forall₂_refl lasting bs)
    | succ n => exact .cons (lasting.refl b) (ih n)

theorem kept_onLayer (lasting : Board.Lasting R) (l : Layers) (n : Nat) {f : Board → Board}
    (writes : ∀ b, R b (f b)) : l.Kept R (l.onLayer n f) := by
  by_cases near : n < l.overlays.length
  · rw [onLayer_near near]
    exact ⟨forall₂_modify lasting _ n writes, lasting.refl _⟩
  · rw [onLayer_far near]
    exact kept_onRoot lasting l writes

theorem kept_applyAt (lasting : Board.Lasting R) (l : Layers) (e : Edit) (reach : Reach)
    (writes : ∀ b, R b (e.apply b)) : l.Kept R (e.applyAt reach l) := by
  cases reach with
  | layer steps => exact kept_onLayer lasting l steps writes
  | root => exact kept_onRoot lasting l writes

theorem kept_setGlobal (l : Layers) {t : ValueType} {id : UInt64} {x : t.Carrier}
    (writes : ∀ b, R b (b.remove t id) ∧ R b (b.set t id x)) : l.Kept R (l.setGlobal t id x) where
  overlays := List.forall₂_map_right_iff.mpr (List.forall₂_same.mpr fun b _ => (writes b).1)
  root := (writes _).2

end Layers

namespace Context

theorem Kept.of_layers {c : Context σ} {l : Layers} (h : c.layers.Kept R l) :
    c.Kept R { c with layers := l } := ⟨rfl, rfl, rfl, rfl, rfl, rfl, h, fun _ => id⟩

theorem Kept.refl (lasting : Board.Lasting R) (c : Context σ) : c.Kept R c := .of_layers (.refl lasting _)

/-- Nodes give the context back. -/
def Kept.passing (lasting : Board.Lasting R) : Passing σ where
  holds := Kept R
  refl := .refl lasting
  trans h k := {
    depth := k.depth.trans h.depth
    stack := k.stack.trans h.stack
    state := k.state.trans h.state
    tick := k.tick.trans h.tick
    delta := k.delta.trans h.delta
    maxDepth := k.maxDepth.trans h.maxDepth
    layers := h.layers.trans lasting k.layers
    overflow := fun o ho => k.overflow o (h.overflow o ho) }
  depth h := h.depth
  request c s := { Kept.refl lasting c with }
  emitted c e := .of_layers ⟨Layers.forall₂_refl lasting _, lasting.traced _ _⟩
  refused c o := { Kept.refl lasting c with
    overflow := fun o' ho => by
      show some (c.overflow.getD o) = some o'
      rw [ho]
      rfl }
  overlaid _ h := { h with layers := h.layers.pop }
  lent state h := { h with state := rfl }
  called {c d e name} entered h := by
    have back := Context.leave_enter entered
    obtain ⟨stack, rfl⟩ := Behaviour.enter_ok entered
    exact { h with
      depth := congrArg (· - 1) h.depth
      stack := by
        show e.stack.map (·.pop.2) = c.stack
        rw [h.stack]
        exact congrArg Context.stack back }

end Context

/-! ## Ticks of nodes -/

namespace System

variable {sys : System μ σ} {stage : Stage ρ μ σ}

variable (sys stage) in
/-- Whatever is done to the run states and the memory, the context is given back. -/
def restoring (lasting : Board.Lasting R) : Conduct sys stage where
  does _ _ _ _ := True
  passing := Context.Kept.passing lasting
  spares _ _ := True
  refl _ _ := trivial
  trans _ _ := trivial
  broken _ := trivial
  spared _ _ _ := trivial
  aside _ _ _ _ := trivial
  inside _ _ _ := trivial
  callee _ _ _ := trivial
  givenUp _ _ _ := trivial
  lookedUp _ _ _ _ _ := trivial

theorem restoring_callback (lasting : Board.Lasting R) {host : Host ρ μ σ} {p : Place} {body : Callback μ σ α}
    (only : body.Only fun _ => False) (modest : body.Modest False) (respects : body.Respects R) :
    (sys.restoring stage lasting).Heeds True p (body.run host) := by
  induction body with
  | done x => exact .pure x
  | look next ih => exact fun m => ih m.context m.memory (only _ _) (modest _ _) (respects _ _) m
  | remember f next ih => exact (Conduct.Heeds.remember fun _ => trivial).bind fun _ => ih only modest respects
  | edit reach e next ih =>
    refine .bind (.onContext fun c => ?_) fun _ => ih only modest respects.2
    exact .of_layers (Layers.kept_applyAt lasting c.layers e reach respects.1)
  | setGlobal t id x next ih =>
    refine .bind (.onContext fun c => ?_) fun _ => ih only modest respects.2
    exact .of_layers (Layers.kept_setGlobal c.layers respects.1)
  | requestReturn s next ih => exact Conduct.Heeds.requestReturn.bind fun _ => ih only modest respects
  | takeReturn next ih => exact Conduct.Heeds.takeReturn.bind fun _ => ih _ (only _) (modest _) (respects _)
  | takeOverflow next ih => exact modest.1.elim
  | trace tag x y next ih => exact Conduct.Heeds.trace.bind fun _ => ih only modest respects
  | tickTree => exact only.1.elim
  | resetTree => exact only.1.elim

theorem restoring_upheld (lasting : Board.Lasting R) (aloof : sys.Aloof) (modest : sys.Modest False)
    (respects : sys.Respects R) (watch : ∀ site b, stage.watch site b = b) :
    (sys.restoring stage lasting).Upheld := by
  refine .plain (fun {p node} here => ?_) (fun p => ⟨fun _ _ _ _ => trivial, fun _ _ => trivial⟩) watch
    fun {p hooks child} here => ?_
  · have calls : ∀ body : Callback μ σ Status, body.Only (fun _ => False) → body.Modest False → body.Respects R →
        ∀ host : Host ρ μ σ, (sys.restoring stage lasting).Heeds True p (body.run host) :=
      fun body only modest respects host => restoring_callback lasting only modest respects
    have only := aloof _ _ here
    have modest := modest _ _ here
    have respects := respects _ _ here
    cases node with
    | action => exact calls _ only modest respects
    | custom => exact ⟨calls _ only modest respects, fun _ _ _ => trivial⟩
    | condition | waitUntil | guard => exact fun _ _ => trivial
    | selectOne policy => cases policy with
      | picker => trivial
      | custom => exact ⟨fun _ _ => trivial, fun _ _ => trivial⟩
    | call => exact ⟨fun _ _ _ => trivial, fun _ _ _ _ => trivial⟩
    | _ => trivial
  · have only : hooks.onEnter.Only fun _ => False := aloof _ _ here
    have respects : hooks.onEnter.Respects R := respects _ _ here
    exact ⟨fun host => restoring_callback lasting only (modest _ _ here) respects, fun _ _ => trivial⟩

variable (sys) in
/-- The context is back as it was: the same depth, frames and state, the same time and limits, and as many layers,
each of them the one that was at its place. -/
structure Restores (c d : Context σ) : Prop where
  depth : d.depth = c.depth
  stack : d.stack = c.stack
  state : d.state = c.state
  tick : d.tick = c.tick
  delta : d.delta = c.delta
  maxDepth : d.maxDepth = c.maxDepth
  overlays : d.layers.overlays.length = c.layers.overlays.length
  layers : ∀ R, Board.Lasting R → sys.Respects R → c.layers.Kept R d.layers
  overflow : ∀ o, c.overflow = some o → d.overflow = some o

theorem respects_any : sys.Respects fun _ _ => True := by
  have anything : ∀ {α : Type} (body : Callback μ σ α), body.Respects fun _ _ => True := by
    intro α body
    induction body with
    | done => trivial
    | look next ih => exact ih
    | remember _ _ ih | trace _ _ _ _ ih | requestReturn _ _ ih | resetTree _ _ _ ih => exact ih
    | edit _ _ _ ih => exact ⟨fun _ => trivial, ih⟩
    | setGlobal _ _ _ _ ih => exact ⟨fun _ => ⟨trivial, trivial⟩, ih⟩
    | takeReturn _ ih | takeOverflow _ ih | tickTree _ _ _ ih => exact ih
  intro site node _
  cases node <;> first | trivial | exact anything _

end System

/-- Every node gives the context back when it returns, on whatever path, in whatever context and state of the
trees it was ticked. -/
theorem context_restored (sys : System μ σ) (aloof : sys.Aloof) (modest : sys.Modest False) (site : Address)
    (node : Node μ σ) (here : sys.nodeAt site = some node) (host : Host (Store σ) μ σ) (levels : Nat)
    (m m' : Machine (Store σ) μ σ) (st : Status)
    (ok : (node.behaviour (sys.tickLinks .plain host (sys.tickRoot .plain host levels)) site).tick m = .ok st m') :
    sys.Restores m.context m'.context := by
  have kept : ∀ R, Board.Lasting R → sys.Respects R → m.context.Kept R m'.context := by
    intro R lasting respects
    have upheld : (sys.restoring .plain lasting).Upheld :=
      System.restoring_upheld lasting aloof modest respects fun _ _ => rfl
    have came := (upheld.inTick host levels here m.context.depth).tick m fun _ => rfl
    rw [ok] at came
    cases came with
    | ok _ passed => exact passed
  have any := kept _ ⟨fun _ => trivial, fun _ _ => trivial, fun _ _ => trivial⟩ System.respects_any
  exact { any with
    overlays := any.layers.overlays.length_eq.symm
    layers := fun R lasting respects => (kept R lasting respects).layers }

/-! ## In the middle of a recursion -/

/-- A refused call. -/
def refusedBefore : Overflow := ⟨"elsewhere", 7, 6, .maxDepth⟩

/-- A board that holds a mark. -/
def markedBoard (mark : Int32) : Board := ({} : Board).set .int32 1 mark

/-- A context one call deep, over marked layers, with a refused call noted. -/
def midway : Context Unit where
  layers := { overlays := [markedBoard 1, markedBoard 2], root := markedBoard 3 }
  state := some ()
  stack := some { frames := [⟨"nested", 1⟩], capacity := 5 }
  maxDepth := 2
  depth := 1
  overflow := some refusedBefore

/-- What a layer holds under the marks' key. -/
def Board.mark (b : Board) : Option Int32 := b.get? .int32 1

/-- Whether the node is running after a tick there. -/
def midwayRun : Run (Store Unit) (List Status) Unit Bool := do
  let status ← nestedParallel.tick
  return status = .running

/-- The inner calls are refused, and the context is back with every mark at its place. -/
theorem nested_context_back : ∃ m', nestedParallel.tick { nestedStart with context := midway } = .ok .running m' ∧
    m'.context.depth = 1 ∧ m'.context.stack = midway.stack ∧ m'.context.state = some () ∧
    m'.context.overflow = some refusedBefore ∧
    m'.context.layers.overlays.map Board.mark = [some 1, some 2] ∧ m'.context.layers.root.mark = some 3 := by
  obtain ⟨_, ran⟩ := Run.ok_of_answer (a := midwayRun) (m := { nestedStart with context := midway }) (x := true)
    (by decide +kernel)
  simp only [midwayRun, Run.bind_eq_ok, Run.pure_eq_ok, decide_eq_true_eq] at ran
  obtain ⟨_, m', ticked, rfl, rfl⟩ := ran
  have modest : nested.Modest False := by
    intro site node h
    rcases nested_nodes site node h with ⟨-, rfl⟩ | ⟨-, rfl⟩ | ⟨-, rfl⟩ | ⟨-, rfl⟩ <;> trivial
  have respects : nested.Respects fun b c => c.mark = b.mark := by
    intro site node h
    rcases nested_nodes site node h with ⟨-, rfl⟩ | ⟨-, rfl⟩ | ⟨-, rfl⟩ | ⟨-, rfl⟩ <;> trivial
  have back := context_restored nested nested_aloof modest [0, 0] _ rfl (nested.host .plain) 2 _ m' .running ticked
  obtain ⟨overlays, root⟩ := back.layers _ (Board.lasting_entry .int32 1) respects
  refine ⟨m', ticked, back.depth, back.stack, back.state, back.overflow _ rfl, ?_, root.trans (by decide +kernel)⟩
  have marks : midway.layers.overlays.map Board.mark = m'.context.layers.overlays.map Board.mark := by
    rw [← List.forall₂_eq_eq_eq, List.forall₂_map_left_iff, List.forall₂_map_right_iff]
    exact overlays.imp fun _ _ same => same.symm
  exact marks.symm.trans (by decide +kernel)

end BehaviorTree
