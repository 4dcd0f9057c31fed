/-
  BehaviorTree.Proofs.Overlay.Suspended: which overlay waits for the next tick of a run.

  A run that a tick leaves running is suspended at its place until another tick enters it or it is
  abandoned. The history tells which runs of a node with an overlay are suspended, and what their
  overlays held when the child was left (`overlayLeft`). The node's slot holds just that (`Threaded`),
  and each tick of the node hands it on to the child (`Hands`). A tick that a callback starts inside
  a tick of the same place finds nothing suspended there, and what it leaves running is a run of its own.
-/

import Mathlib.Data.List.Induction
import BehaviorTree.Proofs.Residue
import BehaviorTree.Proofs.Unwinding

namespace BehaviorTree

variable {μ σ : Type}

/-- The context over one more overlay. -/
def Context.covered (c : Context σ) (b : Board) : Context σ := { c with layers := c.layers.push b }

/-- The context over one overlay less. -/
def Context.uncovered (c : Context σ) : Context σ :=
  { c with layers := { c.layers with overlays := c.layers.overlays.tail } }

/-- The slot of a run with this overlay, if there is one. -/
def Slot.holding : Option Board → Slot σ
  | some b => .overlay b
  | none => .idle

@[simp] theorem Slot.board_holding (o : Option Board) : (holding o : Slot σ).board = o.getD {} := by cases o <;> rfl

/-- A tick enters or leaves the node at an address. -/
def Moment.Visits (site : Address) : Moment μ σ → Prop
  | .entered site' _ | .left site' _ _ => site' = site
  | .abandoned _ _ _ _ => False

/-- The node at the place is entered, left or abandoned. -/
def Moment.At (p : Place) : Moment μ σ → Prop
  | .entered site scene | .left site _ scene => ⟨site, scene.context.depth⟩ = p
  | .abandoned site depth _ _ => ⟨site, depth⟩ = p

/-- The overlay that is suspended at a place, the latest moment first. A node with an overlay is left right after
its child, which saw the overlay innermost. -/
def overlayBefore (p : Place) : List (Moment μ σ) → Option Board
  | [] => none
  | .entered site scene :: earlier => if ⟨site, scene.context.depth⟩ = p then none else overlayBefore p earlier
  | .abandoned site depth _ _ :: earlier => if ⟨site, depth⟩ = p then none else overlayBefore p earlier
  | .left site status scene :: earlier =>
    if ⟨site, scene.context.depth⟩ = p ∧ status.isRunning then
      earlier.head?.map (·.scene.context.layers.innermost)
    else overlayBefore p earlier

/-- The overlay that is suspended at a place after a history. -/
def overlayLeft (p : Place) (history : List (Moment μ σ)) : Option Board := overlayBefore p history.reverse

section
variable {p : Place} {xs : List (Moment μ σ)} {site : Address} {scene : Scene μ σ} {status : Status}

theorem overlayLeft_snoc {x : Moment μ σ} : overlayLeft p (xs ++ [x]) = overlayBefore p (x :: xs.reverse) := by
  rw [overlayLeft, List.reverse_concat]

theorem overlayLeft_entered : overlayLeft p (xs ++ [Moment.entered site scene]) =
    if ⟨site, scene.context.depth⟩ = p then none else overlayLeft p xs := overlayLeft_snoc

theorem overlayLeft_abandoned {d : Nat} {fire : Bool} : overlayLeft p (xs ++ [Moment.abandoned site d fire scene]) =
    if ⟨site, d⟩ = p then none else overlayLeft p xs := overlayLeft_snoc

theorem overlayLeft_left : overlayLeft p (xs ++ [Moment.left site status scene]) =
    if ⟨site, scene.context.depth⟩ = p ∧ status.isRunning then xs.getLast?.map (·.scene.context.layers.innermost)
    else overlayLeft p xs := by
  rw [overlayLeft_snoc, ← List.head?_reverse]
  rfl

/-- What happens elsewhere does not matter. -/
theorem overlayLeft_quiet {quiet : List (Moment μ σ)} (elsewhere : ∀ x ∈ quiet, ¬ x.At p) :
    overlayLeft p (xs ++ quiet) = overlayLeft p xs := by
  induction quiet using List.reverseRecOn with
  | nil => rw [List.append_nil]
  | append_singleton quiet x ih =>
    obtain ⟨before, now⟩ := List.forall_mem_append.mp elsewhere
    rw [← List.append_assoc, ← ih before]
    have apart := now x (List.mem_singleton_self x)
    cases x with
    | entered => exact overlayLeft_entered.trans (if_neg apart)
    | abandoned => exact overlayLeft_abandoned.trans (if_neg apart)
    | left => exact overlayLeft_left.trans (if_neg fun both => apart both.1)

/-- What is left running waits as it was left. -/
theorem overlayLeft_running {child : Address} {answer : Status} {inner : Scene μ σ} :
    overlayLeft ⟨site, scene.context.depth⟩ (xs ++ [Moment.left child answer inner, .left site .running scene]) =
      some inner.context.layers.innermost := by
  rw [List.append_cons, overlayLeft_left, if_pos ⟨rfl, rfl⟩, List.getLast?_concat]
  rfl

/-- Nothing waits where a tick has ended and left no other run behind meanwhile. -/
theorem overlayLeft_terminal {during : List (Moment μ σ)} {first last : Scene μ σ} (terminal : status.isTerminal)
    (once : ∀ st scene, .left site st scene ∈ during → scene.context.depth ≠ first.context.depth) :
    overlayLeft ⟨site, first.context.depth⟩ (xs ++ .entered site first :: during ++ [Moment.left site status last]) =
      none := by
  have ended : ¬ status.isRunning = true := by cases status <;> cases terminal <;> decide
  rw [overlayLeft_left, if_neg (ended ·.2), List.append_cons]
  induction during using List.reverseRecOn with
  | nil => rw [List.append_nil, overlayLeft_entered, if_pos rfl]
  | append_singleton during x ih =>
    have rest := ih fun st scene here => once st scene (List.mem_append_left _ here)
    rw [← List.append_assoc]
    cases x with
    | entered site' scene =>
      rw [overlayLeft_entered, rest]
      exact ite_self _
    | abandoned site' d fire scene =>
      rw [overlayLeft_abandoned, rest]
      exact ite_self _
    | left site' st scene =>
      have apart : ¬ (⟨site', scene.context.depth⟩ : Place) = ⟨site, first.context.depth⟩ := fun same => by
        obtain ⟨rfl, depth⟩ := Place.mk.inj same
        exact once st scene (List.mem_append_right _ (List.mem_singleton_self _)) depth
      rw [overlayLeft_left, rest, if_neg (apart ·.1)]

end

namespace System

variable (sys : System μ σ)

/-- The slots of the nodes with an overlay hold what is suspended there. -/
def Threaded (m : Machine (Recorded μ σ) μ σ) : Prop :=
  ∀ p child, sys.nodeAt p.site = some (.localScope child) →
    m.runs.store.slot p = .holding (overlayLeft p m.runs.history)

/-- After a history, each time that a node with an overlay is entered its child is entered next, over the overlay
that is suspended there or else an empty one; and each time that the node is left its child was left just before,
with the same answer and with the same layers under the overlay. -/
structure Hands (history xs : List (Moment μ σ)) : Prop where
  enters : ∀ before site scene after child, xs = before ++ .entered site scene :: after →
    sys.nodeAt site = some (.localScope child) → ∃ inner rest, after = .entered (0 :: site) inner :: rest ∧
      inner.context = scene.context.covered ((overlayLeft ⟨site, scene.context.depth⟩ (history ++ before)).getD {})
  leaves : ∀ before site status scene after child, xs = before ++ .left site status scene :: after →
    sys.nodeAt site = some (.localScope child) → ∃ earlier inner, before = earlier ++ [.left (0 :: site) status inner] ∧
      scene.context = inner.context.uncovered

/-- This came to the history, and the overlays are handed on. -/
structure Handed (m n : Machine (Recorded μ σ) μ σ) (xs : List (Moment μ σ)) : Prop where
  history : n.runs.history = m.runs.history ++ xs
  threads : sys.Threaded m → sys.Threaded n ∧ sys.Hands m.runs.history xs

variable {sys} {H xs ys : List (Moment μ σ)} {m n o : Machine (Recorded μ σ) μ σ}

theorem Hands.nil : sys.Hands H [] where
  enters before _ _ _ _ same _ := by cases before <;> cases same
  leaves before _ _ _ _ _ same _ := by cases before <;> cases same

theorem Hands.append (h : sys.Hands H xs) (k : sys.Hands (H ++ xs) ys) : sys.Hands H (xs ++ ys) where
  enters before site scene after child same here := by
    rcases append_eq_split same with ⟨ws, rfl, rfl⟩ | ⟨ws, rfl, rest⟩
    · obtain ⟨inner, rest, rfl, covered⟩ := h.enters before site scene ws child rfl here
      exact ⟨inner, rest ++ ys, rfl, covered⟩
    · rw [← List.append_assoc]
      exact k.enters ws site scene after child rest here
  leaves before site status scene after child same here := by
    rcases append_eq_split same with ⟨ws, rfl, rfl⟩ | ⟨ws, rfl, rest⟩
    · exact h.leaves before site status scene ws child rfl here
    · obtain ⟨earlier, inner, rfl, under⟩ := k.leaves ws site status scene after child rest here
      exact ⟨xs ++ earlier, inner, (List.append_assoc ..).symm, under⟩

/-- Nothing is handed on when no node with an overlay is entered or left. -/
theorem Hands.single {x : Moment μ σ} (elsewhere : ∀ site, x.Visits site → ∀ child,
    sys.nodeAt site ≠ some (.localScope child)) : sys.Hands H [x] where
  enters before site scene after child same here := by
    have visited : .entered site scene ∈ [x] := same ▸ List.mem_append_right _ List.mem_cons_self
    rw [← List.mem_singleton.mp visited] at elsewhere
    exact absurd here (elsewhere site rfl child)
  leaves before site status scene after child same here := by
    have visited : .left site status scene ∈ [x] := same ▸ List.mem_append_right _ List.mem_cons_self
    rw [← List.mem_singleton.mp visited] at elsewhere
    exact absurd here (elsewhere site rfl child)

/-- A node with an overlay hands it to its child. -/
theorem Hands.opens {site : Address} {scene inner : Scene μ σ}
    (covered : inner.context = scene.context.covered ((overlayLeft ⟨site, scene.context.depth⟩ H).getD {}))
    (rest : sys.Hands (H ++ [Moment.entered site scene]) (.entered (0 :: site) inner :: xs)) :
    sys.Hands H (.entered site scene :: .entered (0 :: site) inner :: xs) where
  enters before site' scene' after child same here := by
    cases before with
    | nil =>
      cases same
      exact ⟨inner, xs, rfl, by rwa [List.append_nil]⟩
    | cons x before =>
      obtain ⟨rfl, later⟩ := List.cons.inj same
      rw [List.append_cons]
      exact rest.enters before site' scene' after child later here
  leaves before site' status scene' after child same here := by
    cases before with
    | nil => cases same
    | cons x before =>
      obtain ⟨rfl, later⟩ := List.cons.inj same
      obtain ⟨earlier, last, rfl, under⟩ := rest.leaves before site' status scene' after child later here
      exact ⟨.entered site scene :: earlier, last, rfl, under⟩

/-- The node is left after its child. -/
theorem Hands.closes {site : Address} {status : Status} {scene inner : Scene μ σ}
    (under : scene.context = inner.context.uncovered) (h : sys.Hands H (xs ++ [Moment.left (0 :: site) status inner])) :
    sys.Hands H (xs ++ [Moment.left (0 :: site) status inner] ++ [Moment.left site status scene]) where
  enters before site' scene' after child same here := by
    rcases append_eq_split same with ⟨ws, first, rfl⟩ | ⟨ws, rfl, last⟩
    · obtain ⟨inner', rest, rfl, covered⟩ := h.enters before site' scene' ws child first here
      exact ⟨inner', _, rfl, covered⟩
    · rcases List.singleton_eq_append_iff.mp last with ⟨-, no⟩ | ⟨-, no⟩ <;> cases no
  leaves before site' status' scene' after child same here := by
    rcases append_eq_split same with ⟨ws, first, rfl⟩ | ⟨ws, rfl, last⟩
    · exact h.leaves before site' status' scene' ws child first here
    · rcases List.singleton_eq_append_iff.mp last with ⟨rfl, now⟩ | ⟨-, no⟩
      · cases now
        exact ⟨xs, inner, List.append_nil _, under⟩
      · cases no

theorem Handed.refl (m : Machine (Recorded μ σ) μ σ) : sys.Handed m m [] :=
  ⟨(List.append_nil _).symm, fun threaded => ⟨threaded, .nil⟩⟩

theorem Handed.trans (h : sys.Handed m n xs) (k : sys.Handed n o ys) : sys.Handed m o (xs ++ ys) where
  history := by rw [k.history, h.history, List.append_assoc]
  threads threaded := by
    obtain ⟨between, first⟩ := h.threads threaded
    obtain ⟨after, second⟩ := k.threads between
    exact ⟨after, first.append (h.history ▸ second)⟩

/-- Something is noted of another node. -/
theorem Handed.note {x : Moment μ σ} (m : Machine (Recorded μ σ) μ σ) (elsewhere : ∀ site, x.Visits site → ∀ child,
      sys.nodeAt site ≠ some (.localScope child))
    (left : ∀ p child, sys.nodeAt p.site = some (.localScope child) →
      overlayLeft p (m.runs.history ++ [x]) = overlayLeft p m.runs.history) :
    sys.Handed m (Recorded.add x m) [x] where
  history := rfl
  threads threaded := ⟨fun p child here => (threaded p child here).trans (by rw [Recorded.add_history, left p child here]),
    .single elsewhere⟩

/-- No slot of a node with an overlay is written, and nothing is noted. -/
theorem Handed.still (history : n.runs.history = m.runs.history) (slots : ∀ p child,
    sys.nodeAt p.site = some (.localScope child) → n.runs.store.slot p = m.runs.store.slot p) : sys.Handed m n [] where
  history := history.trans (List.append_nil _).symm
  threads threaded := ⟨fun p child here => by rw [slots p child here, history]; exact threaded p child here, .nil⟩

end System

end BehaviorTree
