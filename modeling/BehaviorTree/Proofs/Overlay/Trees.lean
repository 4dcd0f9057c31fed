/-
  BehaviorTree.Proofs.Overlay.Trees: overlays keep what is written below them, and are handed on.

  The course of all nodes: around all overlays the layers are as outward changes leave them, made by
  nodes that were entered meanwhile, and overlays are handed on from tick to tick. A node's own
  changes are permitted in its own tick only; whoever looks from outside finds it entered. The node
  that puts an overlay in place is looked at step by step, as the records and the history agree
  before its first step and after its last one only.
-/

import BehaviorTree.Proofs.Course.Trees
import BehaviorTree.Proofs.Overlay.Outward
import BehaviorTree.Proofs.Overlay.Suspended
import BehaviorTree.Proofs.ResetFrame

namespace BehaviorTree

open Recorded (add scene)

variable {μ σ α : Type} {sys : System μ σ} {own may : Outward → Prop}

namespace Behaviour

variable {ρ : Type}

/-- The overlay of the run is taken out of the slot and put in place. -/
def opened (cell : Cell ρ σ) (m : Machine ρ μ σ) : Machine ρ μ σ :=
  { m with
    context := m.context.covered (cell.get m.runs m.context.depth).board
    runs := cell.reset m.runs m.context.depth }

/-- The overlay is taken off, and kept if the run goes on. -/
def closed (cell : Cell ρ σ) (depth : Nat) (status : Status) (m : Machine ρ μ σ) : Machine ρ μ σ :=
  { m with
    context := m.context.uncovered
    runs := if status.isRunning then cell.set m.runs depth (.overlay m.context.layers.innermost) else m.runs }

theorem localScope_tick (cell : Cell ρ σ) (child : Behaviour ρ μ σ) (m : Machine ρ μ σ) :
    (localScope cell child).tick m = match child.tick (opened cell m) with
      | .ok status n => .ok status (closed cell m.context.depth status n)
      | .error e n => .error e n := by
  show EStateM.bind child.tick _ (opened cell m) = _
  unfold EStateM.bind
  cases child.tick (opened cell m) with
  | ok status n => cases status <;> rfl
  | error e n => rfl

end Behaviour

/-- A recorded tick of a node with an overlay, whatever it comes to. -/
theorem recording_localScope (site : Address) (b : Behaviour (Recorded μ σ) μ σ) (m : Machine (Recorded μ σ) μ σ) :
    (Stage.recording.watch site (.localScope (Stage.recording.cell site) b)).tick m =
      match b.tick (Behaviour.opened (Stage.recording.cell site) (add (.entered site (scene m)) m)) with
      | .ok st n =>
        let k := Behaviour.closed (Stage.recording.cell site) m.context.depth st n
        .ok st (add (.left site st (scene k)) k)
      | .error e n => .error e n := by
  rw [recording_tick, Behaviour.localScope_tick]
  cases b.tick (Behaviour.opened (Stage.recording.cell site) (add (.entered site (scene m)) m)) <;> rfl

namespace System

/-! ## The course -/

variable (sys) in
/-- What a run has done to the layers around all overlays, and what it has told. -/
structure Overlaid (own : Outward → Prop) (m n : Machine (Recorded μ σ) μ σ) : Prop where
  depth : n.context.depth = m.context.depth
  length : n.context.layers.overlays.length = m.context.layers.overlays.length
  told : ∃ xs, sys.Handed m n xs ∧ m.context.layers.Changed (fun w => own w ∨ sys.Made xs w) n.context.layers

theorem Made.left {xs : List (Moment μ σ)} {w : Outward} (ys : List (Moment μ σ)) (h : sys.Made xs w) :
    sys.Made (xs ++ ys) w := by
  obtain ⟨site, scene, node, entered, rest⟩ := h
  exact ⟨site, scene, node, List.mem_append_left _ entered, rest⟩

theorem Made.right {ys : List (Moment μ σ)} {w : Outward} (xs : List (Moment μ σ)) (h : sys.Made ys w) :
    sys.Made (xs ++ ys) w := by
  obtain ⟨site, scene, node, entered, rest⟩ := h
  exact ⟨site, scene, node, List.mem_append_right _ entered, rest⟩

namespace Overlaid

variable {m n o : Machine (Recorded μ σ) μ σ}

/-- The layers change, or something that is told beside the slots of overlays. -/
theorem still (runs : sys.Handed m n []) (depth : n.context.depth = m.context.depth)
    (length : n.context.layers.overlays.length = m.context.layers.overlays.length)
    (layers : m.context.layers.Changed own n.context.layers) : sys.Overlaid own m n :=
  ⟨depth, length, [], runs, layers.mono fun _ => .inl⟩

/-- The context is as it was. -/
theorem offstage {xs : List (Moment μ σ)} (handed : sys.Handed m n xs) (context : n.context = m.context) :
    sys.Overlaid own m n := ⟨by rw [context], by rw [context], xs, handed, by rw [context]; exact .refl _⟩

theorem refl (m : Machine (Recorded μ σ) μ σ) : sys.Overlaid own m m := .still (.refl m) rfl rfl (.refl _)

theorem trans (h : sys.Overlaid own m n) (k : sys.Overlaid own n o) : sys.Overlaid own m o where
  depth := k.depth.trans h.depth
  length := k.length.trans h.length
  told := by
    obtain ⟨xs, first, changed⟩ := h.told
    obtain ⟨ys, second, changed'⟩ := k.told
    refine ⟨xs ++ ys, first.trans second, Layers.Changed.trans (changed.mono fun w => ?_) (changed'.mono fun w => ?_) h.length⟩
    · exact Or.imp id (.left ys)
    · exact Or.imp id (.right xs)

theorem mono (h : sys.Overlaid own m n) (weaker : ∀ w, own w → may w) : sys.Overlaid may m n := by
  obtain ⟨xs, handed, changed⟩ := h.told
  exact ⟨h.depth, h.length, xs, handed, changed.mono fun w => Or.imp (weaker w) id⟩

end Overlaid

theorem Handed.same_slots {m n : Machine (Recorded μ σ) μ σ} (history : n.runs.history = m.runs.history)
    (slots : ∀ q, n.runs.store.slot q = m.runs.store.slot q) : sys.Handed m n [] := .still history fun p _ _ => slots p

variable (sys) in
/-- Overlays keep what is written below them, and are handed on. -/
def overlaying (own : Outward → Prop) : Course (Stage.recording (μ := μ) (σ := σ)) where
  goes := sys.Overlaid own
  breaks m n := ∃ xs, sys.Handed m n xs
  refl := .refl
  trans h k := h.trans k
  broken m := ⟨[], .refl m⟩
  further h k := by
    obtain ⟨xs, first, -⟩ := h.told
    obtain ⟨ys, second⟩ := k
    exact ⟨xs ++ ys, first.trans second⟩
  depth h := h.depth
  passive runs layers depth :=
    .still (.same_slots (by rw [runs]) fun _ => by rw [runs]) depth (by rw [layers]) (by rw [layers]; exact .refl _)
  aside m slots := .still (.same_slots rfl (slots _)) rfl rfl (.refl _)
  lent {m n c c'} same h layers depth := by
    obtain ⟨-, length, xs, handed, changed⟩ := h
    rw [same] at changed length
    rw [← layers] at changed length
    exact ⟨depth, length, xs, ⟨handed.history, handed.threads⟩, changed⟩
  lost h := by
    obtain ⟨xs, handed⟩ := h
    exact ⟨xs, handed.history, handed.threads⟩

/-- Nothing is permitted beside what the nodes entered meanwhile may do. -/
def Nothing (_ : Outward) : Prop := False

theorem overlaying_mono {a : Run (Recorded μ σ) μ σ α} (h : (sys.overlaying own).Leads a)
    (weaker : ∀ w, own w → may w) : (sys.overlaying may).Leads a := by
  intro m
  have came := h m
  generalize a m = r at came
  cases came with
  | ok goes => exact .ok (goes.mono weaker)
  | error breaks => exact .error breaks

theorem overlaying_carries {b : Behaviour (Recorded μ σ) μ σ} (h : (sys.overlaying Nothing).Carries b) :
    (sys.overlaying own).Carries b :=
  ⟨overlaying_mono h.tick fun _ => False.elim, fun d fire => overlaying_mono (h.reset d fire) fun _ => False.elim⟩

theorem overlaying_trace {tag : String} {x y : UInt64} (here : ∀ tick, own (.event { tick, tag, a := x, b := y })) :
    (sys.overlaying own).Leads (Run.trace (σ := σ) (μ := μ) tag x y) := by
  intro m
  have goes : sys.Overlaid own m (m.emitted { tick := m.context.tick, tag, a := x, b := y }) :=
    .still (.same_slots rfl fun _ => rfl) rfl rfl (.single (here m.context.tick) fun _ => rfl)
  obtain ⟨_, _, ran⟩ | ⟨_, -, ran⟩ := Run.trace_spec tag x y m <;> rw [ran]
  · exact .ok ((sys.overlaying own).trans goes ((sys.overlaying own).passive rfl rfl rfl))
  · exact .error ⟨[], .same_slots rfl fun _ => rfl⟩

/-- Callbacks do what they may. -/
theorem overlaying_callback {host : Host (Recorded μ σ) μ σ} (hosts : (sys.overlaying own).Hosts host)
    (body : Callback μ σ α) (reaches : ∀ w, body.Reaches w → own w) : (sys.overlaying own).Leads (body.run host) := by
  induction body with
  | done x => exact .pure x
  | look next ih => exact fun m => ih m.context m.memory (fun w h => reaches w ⟨_, _, h⟩) m
  | remember f next ih => exact Course.Leads.remember.bind fun _ => ih reaches
  | edit reach e next ih =>
    refine .bind (fun m => .ok ?_) fun _ => ih fun w h => reaches w (by cases reach <;> exact .inr h)
    cases reach with
    | root => exact .still (.same_slots rfl fun _ => rfl) rfl rfl (.single (reaches _ (.inl rfl)) fun n => rfl)
    | layer steps =>
      refine .still (.same_slots rfl fun _ => rfl) rfl (Layers.length_onLayer _) (.edit e fun outer closer => ?_)
      exact reaches _ (.inl ⟨outer, closer, rfl⟩)
  | setGlobal t id x next ih =>
    refine .bind (fun m => .ok ?_) fun _ => ih fun w h => reaches w (.inr h)
    refine .still (.same_slots rfl fun _ => rfl) rfl (List.length_map _) (.single (reaches _ (.inl rfl)) fun n => ?_)
    exact Layers.outside_setGlobal t id x
  | requestReturn s next ih => exact Course.Leads.requestReturn.bind fun _ => ih reaches
  | takeReturn next ih => exact Course.Leads.takeReturn.bind fun r => ih r fun w h => reaches w ⟨r, h⟩
  | takeOverflow next ih => exact Course.Leads.takeOverflow.bind fun o => ih o fun w h => reaches w ⟨o, h⟩
  | trace tag x y next ih =>
    exact .bind (overlaying_trace fun tick => reaches _ (.inl ⟨tick, rfl⟩)) fun _ => ih fun w h => reaches w (.inr h)
  | tickTree tree delta next ih => exact (hosts.tick tree delta).bind fun s => ih s fun w h => reaches w ⟨s, h⟩
  | resetTree tree fire next ih => exact (hosts.reset tree fire).bind fun _ => ih reaches

/-! ## What is told around a node -/

variable {site : Address} {node : Node μ σ} {b : Behaviour (Recorded μ σ) μ σ}

/-- Of each tick it is told first that the node is entered, and last that it is left. -/
structure Narrated (site : Address) (b : Behaviour (Recorded μ σ) μ σ) : Prop where
  ended : ∀ {m status n}, b.tick m = .ok status n → ∃ xs, n.runs.history = m.runs.history ++
    (.entered site (scene m) :: xs ++ [.left site status (scene n)])
  broken : ∀ {m e n}, b.tick m = .error e n → ∃ xs, n.runs.history = m.runs.history ++ .entered site (scene m) :: xs

variable (sys) in
/-- A node, with what is told around it. -/
structure Heeded (site : Address) (b : Behaviour (Recorded μ σ) μ σ) : Prop
    extends (sys.overlaying Nothing).Carries b, Narrated site b

section
variable (here : sys.nodeAt site = some node) (bare : ∀ child, node ≠ .localScope child)
include here bare

theorem bare_apart {p : Place} {child : Node μ σ}
    (there : sys.nodeAt p.site = some (.localScope child)) (d : Nat) : (⟨site, d⟩ : Place) ≠ p := by
  rintro rfl
  exact bare child (Option.some.inj (here.symm.trans there))

theorem Handed.entered (m : Machine (Recorded μ σ) μ σ) (s : Scene μ σ) :
    sys.Handed m (add (.entered site s) m) [.entered site s] := by
  refine .note m (fun site' same child there => ?_) fun p child there => ?_
  · exact bare child (Option.some.inj (here.symm.trans (same ▸ there)))
  · rw [overlayLeft_entered, if_neg (bare_apart here bare there _)]

theorem Handed.left (m : Machine (Recorded μ σ) μ σ) (st : Status) (s : Scene μ σ) :
    sys.Handed m (add (.left site st s) m) [.left site st s] := by
  refine .note m (fun site' same child there => ?_) fun p child there => ?_
  · exact bare child (Option.some.inj (here.symm.trans (same ▸ there)))
  · rw [overlayLeft_left, if_neg fun both => bare_apart here bare there _ both.1]

theorem Handed.abandoned (m : Machine (Recorded μ σ) μ σ) (d : Nat) (fire : Bool) (s : Scene μ σ) :
    sys.Handed m (add (.abandoned site d fire s) m) [.abandoned site d fire s] :=
  .note m (fun _ no => no.elim) fun p child there => by
    rw [overlayLeft_abandoned, if_neg (bare_apart here bare there _)]

/-- From outside, a node does what a node may that is entered. Abandoning its run does nothing to the layers. -/
theorem heeded_of_carries (body : (sys.overlaying node.Reaches).Carries b)
    (quiet : (Stage.recording.watch site b).ResetsOffstage) : sys.Heeded site (Stage.recording.watch site b) where
  tick m := by
    have enters := Handed.entered here bare m (scene m)
    have came := body.tick (add (.entered site (scene m)) m)
    rw [recording_tick]
    generalize b.tick _ = r at came
    cases came with
    | error breaks =>
      obtain ⟨xs, handed⟩ := breaks
      exact .error ⟨_, enters.trans handed⟩
    | @ok st n goes =>
      obtain ⟨depth, length, xs, handed, changed⟩ := goes
      refine .ok ⟨depth, length, _, (enters.trans handed).trans (.left here bare n st _), changed.mono ?_⟩
      rintro w (own | made)
      · exact .inr ⟨site, scene m, node, by simp, here, own⟩
      · exact .inr ((made.right _).left _)
  reset d fire m := by
    have cut := Handed.abandoned here bare m d fire (scene m)
    have came := body.reset d fire (add (.abandoned site d fire (scene m)) m)
    have same := quiet d fire m
    rw [recording_reset] at same ⊢
    generalize b.reset d fire _ = r at came same
    cases came with
    | error breaks =>
      obtain ⟨xs, handed⟩ := breaks
      exact .error ⟨_, cut.trans handed⟩
    | @ok x n goes =>
      obtain ⟨-, -, xs, handed, -⟩ := goes
      exact .ok (.offstage (cut.trans handed) (same x n rfl).context)
  ended {m status n} ran := by
    obtain ⟨m₁, ticked, rfl⟩ := recording_tick_ok ran
    have came := body.tick (add (.entered site (scene m)) m)
    rw [ticked] at came
    cases came with
    | ok goes =>
      obtain ⟨-, -, xs, handed, -⟩ := goes
      refine ⟨xs, ?_⟩
      rw [Recorded.add_history, handed.history, Recorded.add_history, List.append_assoc, List.append_assoc]
      rfl
  broken {m e n} broke := by
    have came := body.tick (add (.entered site (scene m)) m)
    rw [recording_tick] at broke
    generalize b.tick _ = r at came broke
    cases came with
    | ok goes => cases broke
    | error breaks =>
      cases broke
      obtain ⟨xs, handed⟩ := breaks
      exact ⟨xs, by rw [handed.history, Recorded.add_history, List.append_assoc]; rfl⟩

end

/-! ## The node with an overlay -/

section
variable {child : Node μ σ} {m n : Machine (Recorded μ σ) μ σ} {xs : List (Moment μ σ)} {status : Status}

/-- While the node ticks its child nothing is suspended at its place. -/
theorem Threaded.opened (h : sys.Threaded m) :
    sys.Threaded (Behaviour.opened (Stage.recording.cell site) (add (.entered site (scene m)) m)) := by
  intro p child' there
  refine (m.runs.store.slot_reset ⟨site, m.context.depth⟩ p).trans ?_
  show _ = Slot.holding (overlayLeft p (m.runs.history ++ [Moment.entered site (scene m)]))
  rw [overlayLeft_entered, h p child' there]
  show _ = Slot.holding (if (⟨site, m.context.depth⟩ : Place) = p then none else _)
  split <;> rfl

/-- Afterwards what its child left running is. -/
theorem Threaded.closed (h : sys.Threaded n)
    (last : n.runs.history = xs ++ [Moment.left (0 :: site) status (scene n)]) :
    let k := Behaviour.closed (Stage.recording.cell site) n.context.depth status n
    sys.Threaded (add (.left site status (scene k)) k) := by
  intro k p child' there
  show k.runs.store.slot p = .holding (overlayLeft p (k.runs.history ++ [Moment.left site status (scene k)]))
  rw [overlayLeft_left]
  cases status with
  | running =>
    have written := n.runs.store.slot_set ⟨site, n.context.depth⟩ p (.overlay n.context.layers.innermost)
    have kept : k.runs.history.getLast? = some (.left (0 :: site) .running (scene n)) := by
      rw [show k.runs.history = n.runs.history from rfl, last, List.getLast?_concat]
    by_cases same : (⟨site, (scene k).context.depth⟩ : Place) = p
    · rw [if_pos ⟨same, rfl⟩, kept]
      exact written.trans (if_pos same)
    · rw [if_neg (same ·.1)]
      exact (written.trans (if_neg same)).trans (h p child' there)
  | success | failure =>
    rw [if_neg fun both => nomatch both.2]
    exact h p child' there

/-- The child is handed what was suspended. -/
theorem Handed.opened (here : sys.nodeAt site = some (.localScope child)) :
    let k := Behaviour.opened (Stage.recording.cell site) (add (.entered site (scene m)) m)
    sys.Handed k n (.entered (0 :: site) (scene k) :: xs) →
      sys.Handed m n (.entered site (scene m) :: .entered (0 :: site) (scene k) :: xs) := by
  intro k handed
  refine ⟨handed.history.trans (List.append_cons ..).symm, fun threaded => ?_⟩
  obtain ⟨after, hands⟩ := handed.threads threaded.opened
  refine ⟨after, .opens ?_ hands⟩
  show m.context.covered (m.runs.store.slot ⟨site, m.context.depth⟩).board = _
  rw [threaded ⟨site, m.context.depth⟩ child here, Slot.board_holding]
  rfl

/-- The child hands it back. -/
theorem Handed.closed (handed : sys.Handed m n (xs ++ [Moment.left (0 :: site) status (scene n)])) :
    let k := Behaviour.closed (Stage.recording.cell site) n.context.depth status n
    sys.Handed m (add (.left site status (scene k)) k)
      (xs ++ [Moment.left (0 :: site) status (scene n)] ++ [Moment.left site status (scene k)]) := by
  intro k
  have same : k.runs.history = n.runs.history := by cases status <;> rfl
  refine ⟨?_, fun threaded => ?_⟩
  · rw [Recorded.add_history, same, handed.history, List.append_assoc]
  · obtain ⟨after, hands⟩ := handed.threads threaded
    exact ⟨after.closed ((handed.history.trans (List.append_assoc ..).symm)), .closes rfl hands⟩

/-- A tick of the node that comes to an end. -/
theorem overlaid_localScope (here : sys.nodeAt site = some (.localScope child)) (below : sys.Heeded (0 :: site) b)
    (ran : b.tick (Behaviour.opened (Stage.recording.cell site) (add (.entered site (scene m)) m)) = .ok status n) :
    let k := Behaviour.closed (Stage.recording.cell site) m.context.depth status n
    ∃ xs, k.context.depth = m.context.depth ∧
      k.context.layers.overlays.length = m.context.layers.overlays.length ∧
      sys.Handed m (add (.left site status (scene k)) k)
        (.entered site (scene m) :: xs ++ [Moment.left site status (scene k)]) ∧
      (m.context.layers.push ((Stage.recording.cell site).get m.runs m.context.depth).board).Changed (sys.Made xs)
        n.context.layers := by
  intro k
  obtain ⟨zs, history⟩ := below.ended ran
  have came := below.tick (Behaviour.opened (Stage.recording.cell site) (add (.entered site (scene m)) m))
  rw [ran] at came
  cases came with
  | ok goes =>
    obtain ⟨depth, length, xs, handed, changed⟩ := goes
    obtain rfl := List.append_cancel_left (handed.history.symm.trans history)
    have handed : sys.Handed m n (.entered site (scene m) :: .entered (0 :: site) _ :: zs ++
      [Moment.left (0 :: site) status (scene n)]) := handed.opened here
    have closed := handed.closed
    rw [show n.context.depth = m.context.depth from depth] at closed
    refine ⟨_, depth, ?_, closed, ?_⟩
    · show n.context.layers.overlays.tail.length = _
      rw [List.length_tail, length]
      rfl
    · exact changed.mono fun w => Or.rec False.elim id

/-- A tick of the node that a fault breaks off. -/
theorem broken_localScope (here : sys.nodeAt site = some (.localScope child)) (below : sys.Heeded (0 :: site) b)
    {e : Fault} (broke : b.tick (Behaviour.opened (Stage.recording.cell site) (add (.entered site (scene m)) m)) =
      .error e n) : ∃ xs, sys.Handed m n (.entered site (scene m) :: xs) := by
  obtain ⟨zs, history⟩ := below.broken broke
  have came := below.tick (Behaviour.opened (Stage.recording.cell site) (add (.entered site (scene m)) m))
  rw [broke] at came
  cases came with
  | error breaks =>
    obtain ⟨xs, handed⟩ := breaks
    obtain rfl := List.append_cancel_left (handed.history.symm.trans history)
    exact ⟨_, handed.opened here⟩

/-- What is suspended is dropped with the run. -/
theorem Handed.cut (site : Address) (m : Machine (Recorded μ σ) μ σ) (d : Nat) (fire : Bool) :
    sys.Handed m ((add (.abandoned site d fire (scene m)) m).onRuns ((Stage.recording.cell site).reset · d))
      [.abandoned site d fire (scene m)] where
  history := rfl
  threads threaded := by
    refine ⟨fun p child there => ?_, .single fun _ no => no.elim⟩
    refine (m.runs.store.slot_reset ⟨site, d⟩ p).trans ?_
    show _ = Slot.holding (overlayLeft p (m.runs.history ++ [Moment.abandoned site d fire (scene m)]))
    rw [overlayLeft_abandoned, threaded p child there]
    split <;> rfl

/-- The node hands its overlay to the child, and keeps what the child has done to the other layers. -/
theorem heeded_localScope (here : sys.nodeAt site = some (.localScope child)) (below : sys.Heeded (0 :: site) b) :
    sys.Heeded site (Stage.recording.watch site (.localScope (Stage.recording.cell site) b)) where
  tick m := by
    rw [recording_localScope]
    split
    · next st n ran =>
      obtain ⟨xs, depth, length, handed, changed⟩ := overlaid_localScope here below ran
      exact .ok ⟨depth, length, _, handed, (Layers.Changed.overlaid changed).mono fun w made =>
        .inr ((made.right [_]).left [_])⟩
    · next e n broke =>
      obtain ⟨xs, handed⟩ := broken_localScope here below broke
      exact .error ⟨_, handed⟩
  reset d fire m := by
    have cut : (sys.overlaying Nothing).goes m _ := .offstage (Handed.cut site m d fire) rfl
    rw [recording_reset, Behaviour.localScope_reset_apply]
    cases (Stage.recording.cell site).get (add (.abandoned site d fire (scene m)) m).runs d
    case overlay => exact (below.reset d fire _).after cut
    all_goals exact .ok cut
  ended {m status n} ran := by
    rw [recording_localScope] at ran
    split at ran
    · next st n ran' =>
      cases ran
      obtain ⟨xs, -, -, handed, -⟩ := overlaid_localScope here below ran'
      exact ⟨xs, handed.history⟩
    · cases ran
  broken {m e n} broke := by
    rw [recording_localScope] at broke
    split at broke
    · cases broke
    · next e n broke' =>
      cases broke
      obtain ⟨xs, handed⟩ := broken_localScope here below broke'
      exact ⟨xs, handed.history⟩

end

/-! ## All nodes -/

/-- Only nodes with an overlay write the slots of nodes with an overlay. -/
theorem overlaying_writes (here : sys.nodeAt site = some node) (bare : ∀ child, node ≠ .localScope child) :
    (sys.overlaying own).Writes (Stage.recording.cell site) where
  set m d slot := .still (.still rfl fun p _ there =>
    (m.runs.store.slot_set ⟨site, d⟩ p slot).trans (if_neg (bare_apart here bare there d))) rfl rfl (.refl _)
  reset m d := .still (.still rfl fun p _ there =>
    (m.runs.store.slot_reset ⟨site, d⟩ p).trans (if_neg (bare_apart here bare there d))) rfl rfl (.refl _)

theorem overlaying_tells (node : Node μ σ) : (sys.overlaying node.Reaches).Tells node.tags :=
  fun _ among _ _ => overlaying_trace fun _ => .inl ⟨_, rfl, among⟩

theorem Hosts.weaken {host : Host (Recorded μ σ) μ σ} (hosts : (sys.overlaying Nothing).Hosts host) :
    (sys.overlaying own).Hosts host :=
  ⟨fun tree delta => overlaying_mono (hosts.tick tree delta) fun _ => False.elim,
    fun tree fire => overlaying_mono (hosts.reset tree fire) fun _ => False.elim⟩

/-- What the nodes find around them. -/
structure Enfolds (sys : System μ σ) (links : Links (Recorded μ σ) μ σ) : Prop where
  cell : links.cell = Stage.recording.cell
  chooser : links.chooser = Stage.recording.chooser
  watch : links.watch = Stage.recording.watch
  host : (sys.overlaying Nothing).Hosts links.host
  resolve : ∀ source, (sys.overlaying Nothing).Leads (links.resolve source)
  callee : ∀ tree, (sys.overlaying Nothing).Carries (links.callee tree).root
  quiet : ∀ tree, (links.callee tree).root.ResetsOffstage

theorem recording_offstage (site : Address) (b : Behaviour (Recorded μ σ) μ σ) (h : b.ResetsOffstage) :
    (Stage.recording.watch site b).ResetsOffstage := fun d fire =>
  .bind (fun m x m' h => by cases h; exact ⟨rfl, rfl, rfl⟩) fun _ => h d fire

theorem node_heeded {links : Links (Recorded μ σ) μ σ} (around : sys.Enfolds links) (node : Node μ σ) :
    ∀ site, sys.nodeAt site = some node → sys.Heeded site (node.behaviour links site) := by
  intro site here
  induction here using nodeAt_upward with
  | step site node here below =>
  have one : ∀ child : Node μ σ, node.children[0]? = some child →
      (sys.overlaying node.Reaches).Carries (child.behaviour links (0 :: site)) :=
    fun child hc => overlaying_carries (below 0 child hc).toCarries
  have several : ∀ b ∈ Node.behaviours links site 0 node.children, (sys.overlaying node.Reaches).Carries b :=
    Node.forall_behaviours fun i child hc => overlaying_carries (below i child hc).toCarries
  have quiet := node_resets links around.quiet (around.watch ▸ recording_offstage) node site
  have tells : (sys.overlaying node.Reaches).Tells node.tags := overlaying_tells node
  have hosts : (sys.overlaying node.Reaches).Hosts links.host := Hosts.weaken around.host
  have calls : ∀ body : Callback μ σ Status, (∀ w, body.Reaches w → node.Reaches w) →
      (sys.overlaying node.Reaches).Leads (body.run links.host) := fun body => overlaying_callback hosts body
  have own : (∀ child, node ≠ .localScope child) → (sys.overlaying node.Reaches).Writes (Stage.recording.cell site) :=
    fun bare => overlaying_writes here bare
  rw [Node.behaviour.eq_def, around.watch, around.cell] at quiet ⊢
  cases node
  case localScope child => exact heeded_localScope here (below 0 child rfl)
  all_goals refine heeded_of_carries here (by simp) ?_ quiet
  all_goals specialize own (by simp)
  case action => exact .ofTick (calls _ fun _ => .inr)
  case custom => exact .custom (calls _ fun _ => .inr)
  case condition => exact own.condition
  case waitUntil => exact own.waitUntil
  case wait => exact own.wait
  case pause => exact own.pause
  case earlyReturn => exact .earlyReturn tells
  case invert child => exact own.invert (one child rfl)
  case force child => exact own.force (one child rfl)
  case guard child => exact own.guard (one child rfl)
  case repeatTimes child | retry child => exact own.iterate (one child rfl)
  case repeatUntil child => exact own.repeatUntil (one child rfl)
  case timeout child => exact own.timeout (one child rfl)
  case delay child => exact own.delay (one child rfl)
  case scope hooks child => exact own.scope (one child rfl) tells (overlaying_callback hosts _ fun _ => .inr)
  case sequence | selector => exact own.inOrder several
  case reactiveSequence | reactiveSelector => exact own.reactive several
  case parallel => exact own.parallel several
  case join => exact own.join several
  case race => exact own.race several
  case selectOne =>
    rw [around.chooser]
    exact own.selectOne .pick .complete several
  case call source makeState =>
    exact own.call tells (overlaying_mono (around.resolve source) fun _ => False.elim)
      fun tree => overlaying_carries (around.callee tree)

/-! ## Trees -/

theorem rootOf_carries {links : Links (Recorded μ σ) μ σ} (around : sys.Enfolds links) (tree : TreeId) :
    (sys.overlaying Nothing).Carries (sys.rootOf links tree) := by
  unfold rootOf
  cases ht : sys.trees[tree]? with
  | none => exact .ofTick (.pure _)
  | some t => exact (node_heeded around t.root [tree] (sys.nodeAt_root ht)).toCarries

theorem resetRoot_leads (levels : Nat) (tree : TreeId) (d : Nat) (fire : Bool) :
    (sys.overlaying Nothing).Leads (sys.resetRoot .recording levels tree d fire) := by
  induction levels generalizing tree d fire with
  | zero => exact .throw _
  | succ levels ih =>
    have around : sys.Enfolds (sys.resetLinks .recording (sys.resetRoot .recording levels)) := {
      cell := rfl
      chooser := rfl
      watch := rfl
      host := ⟨fun _ _ => .throw _, fun _ _ => .throw _⟩
      resolve := fun _ => .throw _
      callee := fun tree => ⟨.throw _, ih tree⟩
      quiet := fun tree d fire => resetRoot_offstage recording_offstage levels tree d fire }
    exact (rootOf_carries around tree).reset d fire

theorem resetAt_leads (tree : TreeId) (d : Nat) (fire : Bool) :
    (sys.overlaying Nothing).Leads (sys.resetAt .recording tree d fire) :=
  fun m => resetRoot_leads (m.runs.store.height - d + 1) tree d fire m

theorem enfolds_ticks {host : Host (Recorded μ σ) μ σ} {below : TreeId → Run (Recorded μ σ) μ σ Status}
    (hosts : (sys.overlaying Nothing).Hosts host) (ticks : ∀ tree, (sys.overlaying Nothing).Leads (below tree)) :
    sys.Enfolds (sys.tickLinks .recording host below) where
  cell := rfl
  chooser := rfl
  watch := rfl
  host := hosts
  resolve _ := .resolve
  callee tree := ⟨ticks tree, resetAt_leads tree⟩
  quiet tree d fire := reset_offstage recording_offstage tree d fire

theorem tickRoot_leads {host : Host (Recorded μ σ) μ σ} (hosts : (sys.overlaying Nothing).Hosts host) (levels : Nat)
    (tree : TreeId) : (sys.overlaying Nothing).Leads (sys.tickRoot .recording host levels tree) := by
  induction levels generalizing tree with
  | zero => exact .throw _
  | succ levels ih => exact (rootOf_carries (enfolds_ticks hosts ih) tree).tick.inUse

/-- Callbacks may tick and reset trees. -/
theorem nestedHost_hosts (nesting : Nat) : (sys.overlaying Nothing).Hosts (sys.nestedHost .recording nesting) := by
  induction nesting with
  | zero => exact ⟨fun _ _ => .throw _, fun tree fire => resetAt_leads tree 0 fire⟩
  | succ nesting ih =>
    exact ⟨fun tree delta => .tickWith (tickRoot_leads ih), fun tree fire => resetAt_leads tree 0 fire⟩

end System

end BehaviorTree
