/-
  BehaviorTree.Proofs.Duality.Wrapped: an inverted node over inverted children, and what it shows.

  Such a node has slots in three layers: its own, those of the inverter around it, and those of
  the inverter around each child. What it shows are its own slots with all results swapped
  (`Wrapped.front`); the inverters' slots only decide whether a reset reaches the child, and
  wherever the node's own slot says that a child is running they let it through (`Standing`).
  A run shows another one when it does to the front what the other does to its slots, and ends
  the same way (`Shows`).
-/

import BehaviorTree.Behaviour.Concurrent
import BehaviorTree.Behaviour.Result
import BehaviorTree.Proofs.Trial

namespace BehaviorTree

variable {κ ρ μ σ α β γ δ : Type}

/-! ## Slots with all results swapped -/

/-- The result of a child that has ended is swapped. -/
def ChildState.invert : ChildState → ChildState
  | finished s => finished s.invert
  | state => state

namespace ChildState

@[simp] theorem invert_eq_running {state : ChildState} : state.invert = running ↔ state = running := by
  cases state <;> simp [invert]

theorem after_invert (s : Status) : after s.invert = (after s).invert := by cases s <;> rfl

theorem after_ne_idle (s : Status) : idle ≠ after s := by cases s <;> simp [after, Status.isRunning]

theorem finished_running_ne_after (s : Status) : finished .running ≠ after s := by
  cases s <;> simp [after, Status.isRunning]

theorem running_mem_invert {states : List ChildState} : running ∈ states.map invert ↔ running ∈ states := by
  simp [List.mem_map]

end ChildState

/-- The results of the children are swapped. -/
def Slot.invert : Slot σ → Slot σ
  | children states => children (states.map ChildState.invert)
  | slot => slot

namespace Slot

@[simp] theorem invert_idle : (idle : Slot σ).invert = idle := rfl

@[simp] theorem invert_child? (slot : Slot σ) : slot.invert.child? = slot.child? := by cases slot <;> rfl

theorem invert_childStates (slot : Slot σ) (n : Nat) :
    slot.invert.childStates n = (slot.childStates n).map ChildState.invert := by
  cases slot
  case children states =>
    simp only [invert, childStates, List.length_map]
    split <;> simp [ChildState.invert]
  all_goals simp [invert, childStates, ChildState.invert]

end Slot

namespace DepthSlots

variable {τ υ : Type} [Inhabited τ] [Inhabited υ]

/-- Every value is replaced. -/
def map (f : τ → υ) (s : DepthSlots τ) : DepthSlots υ := ⟨s.cells.map f⟩

variable {f : τ → υ} (fresh : f default = default) (s : DepthSlots τ) (d : Nat)
include fresh

theorem get_map : (s.map f).get d = f (s.get d) := by
  simp only [get, map, Array.getD_eq_getD_getElem?, Array.getElem?_map]
  cases s.cells[d]? <;> simp [fresh]

theorem map_set (x : τ) : (s.set d x).map f = (s.map f).set d (f x) := by
  simp [set, grow, map, Array.map_setIfInBounds, fresh]

theorem map_reset : (s.reset d).map f = (s.map f).reset d := by
  simp [reset, map, Array.map_setIfInBounds, fresh]

omit [Inhabited υ] fresh in
/-- Where nothing was left a reset changes nothing. -/
theorem reset_eq_self (h : s.get d = default) : s.reset d = s := by
  obtain ⟨cells⟩ := s
  simp only [get, Array.getD_eq_getD_getElem?] at h
  simp only [reset, DepthSlots.mk.injEq]
  refine Array.ext_getElem? fun i => ?_
  simp only [Array.getElem?_setIfInBounds]
  split
  · subst i
    cases here : cells[d]? with
    | none => simpa using here
    | some x =>
      have : d < cells.size := (Array.getElem?_eq_some_iff.mp here).1
      simp_all
  · rfl

end DepthSlots

/-! ## Three layers of slots -/

/-- The slots of a node, of the inverter around it and of those around its children. -/
structure Wrapped (σ : Type) where
  around : DepthSlots (Slot σ) := {}
  node : DepthSlots (Slot σ) := {}
  child : Nat → DepthSlots (Slot σ) := fun _ => {}

namespace Wrapped

/-- What a node shows of its slots. -/
def front (w : Wrapped σ) : DepthSlots (Slot σ) := w.node.map Slot.invert

theorem get_front (w : Wrapped σ) (d : Nat) : w.front.get d = (w.node.get d).invert :=
  DepthSlots.get_map (f := Slot.invert) rfl w.node d

def setAround (w : Wrapped σ) (slots : DepthSlots (Slot σ)) : Wrapped σ := { w with around := slots }

def setNode (w : Wrapped σ) (slots : DepthSlots (Slot σ)) : Wrapped σ := { w with node := slots }

def setChild (i : Nat) (w : Wrapped σ) (slots : DepthSlots (Slot σ)) : Wrapped σ :=
  { w with child := fun j => if i = j then slots else w.child j }

theorem set_front (w : Wrapped σ) (d : Nat) (slot : Slot σ) :
    w.front.set d slot.invert = (w.setNode (w.node.set d slot)).front :=
  (DepthSlots.map_set (f := Slot.invert) rfl w.node d slot).symm

theorem reset_front (w : Wrapped σ) (d : Nat) : w.front.reset d = (w.setNode (w.node.reset d)).front :=
  (DepthSlots.map_reset (f := Slot.invert) rfl w.node d).symm

def aroundCell : Cell (Trial (Wrapped σ) ρ) σ := Trial.cell around setAround

def nodeCell : Cell (Trial (Wrapped σ) ρ) σ := Trial.cell node setNode

def childCell (i : Nat) : Cell (Trial (Wrapped σ) ρ) σ := Trial.cell (child · i) (setChild i)

/-- The inverters know these children to be running. -/
def Knows (w : Wrapped σ) (d : Nat) (states : List ChildState) : Prop :=
  .finished .running ∉ states ∧ ∀ i, states[i]? = some .running → (w.child i).get d = .started

/-- The node's slot names only children that the inverters around them know to be running. -/
def Ready (w : Wrapped σ) (d : Nat) : Prop :=
  match w.node.get d with
  | .child i => (w.child i).get d = .started
  | .children states => w.Knows d states
  | _ => True

/-- Wherever a reset finds a running child in the node's slot, it gets there through the inverters. -/
structure Standing (w : Wrapped σ) (d : Nat) : Prop where
  ready : w.Ready d
  around : w.node.get d = .idle ∨ w.around.get d = .started

/-- At all other depths the slots stand. -/
def Elsewhere (d : Nat) (w : Wrapped σ) : Prop := ∀ e, e ≠ d → w.Standing e

theorem Ready.of_child {w : Wrapped σ} {d i : Nat} (h : w.Ready d) (slot : w.node.get d = .child i) :
    (w.child i).get d = .started := by simpa [Ready, slot] using h

theorem Ready.of_children {w : Wrapped σ} {d : Nat} {states : List ChildState} (h : w.Ready d)
    (slot : w.node.get d = .children states) : w.Knows d states := by simpa [Ready, slot] using h

/-- What the node reads of its children is known. -/
theorem Ready.knows {w : Wrapped σ} {d : Nat} (h : w.Ready d) (n : Nat) : w.Knows d ((w.node.get d).childStates n) := by
  have none : w.Knows d (List.replicate n .idle) :=
    ⟨fun among => (nomatch List.eq_of_mem_replicate among),
      fun _ running => (nomatch List.eq_of_mem_replicate (List.mem_of_getElem? running))⟩
  unfold Ready at h
  cases slot : w.node.get d
  case children states =>
    rw [slot] at h
    show w.Knows d (if _ then _ else _)
    split
    · exact h
    · exact none
  all_goals exact none

theorem Ready.of_idle {w : Wrapped σ} {d : Nat} (h : w.node.get d = .idle) : w.Ready d := by simp [Ready, h]

theorem Standing.congr {w w' : Wrapped σ} {d : Nat} (h : w.Standing d) (around : w'.around.get d = w.around.get d)
    (node : w'.node.get d = w.node.get d) (child : ∀ i, (w'.child i).get d = (w.child i).get d) : w'.Standing d where
  ready := by simpa only [Ready, Knows, node, child] using h.ready
  around := by rw [node, around]; exact h.around

variable {w : Wrapped σ} {d : Nat} {slots : DepthSlots (Slot σ)}

theorem child_setChild (i j : Nat) : ((w.setChild i slots).child j) = if i = j then slots else w.child j := rfl

theorem Elsewhere.setAround (h : Elsewhere d w) (same : ∀ e, e ≠ d → slots.get e = w.around.get e) :
    Elsewhere d (w.setAround slots) := fun e other => (h e other).congr (same e other) rfl fun _ => rfl

theorem Elsewhere.setNode (h : Elsewhere d w) (same : ∀ e, e ≠ d → slots.get e = w.node.get e) :
    Elsewhere d (w.setNode slots) := fun e other => (h e other).congr rfl (same e other) fun _ => rfl

theorem Elsewhere.setChild {i : Nat} (h : Elsewhere d w) (same : ∀ e, e ≠ d → slots.get e = (w.child i).get e) :
    Elsewhere d (w.setChild i slots) := fun e other => (h e other).congr rfl rfl fun j => by
  rw [child_setChild]
  split
  · subst j
    exact same e other
  · rfl

end Wrapped

/-! ## Runs that show another run -/

/-- What is seen of a machine from the front. -/
def Machine.front (m : Machine (Trial (Wrapped σ) ρ) μ σ) : Machine (Trial (DepthSlots (Slot σ)) ρ) μ σ :=
  m.withRuns (m.runs.view Wrapped.front)

/-- What comes of a run is what comes of the other one, from the front. The answers may be read differently. -/
inductive Shown (φ : β → α) (post : β → Machine (Trial (Wrapped σ) ρ) μ σ → Prop) :
    EStateM.Result Fault (Machine (Trial (DepthSlots (Slot σ)) ρ) μ σ) α →
      EStateM.Result Fault (Machine (Trial (Wrapped σ) ρ) μ σ) β → Prop
  | ok {y : β} {n : Machine (Trial (Wrapped σ) ρ) μ σ} : post y n → Shown φ post (.ok (φ y) n.front) (.ok y n)
  | error {e : Fault} {n : Machine (Trial (Wrapped σ) ρ) μ σ} : Shown φ post (.error e n.front) (.error e n)

/-- At this call depth, and with such slots, what the second run does looks from the front like the first run.
What the slots are then may depend on the answer. -/
def Shows (d : Nat) (pre : Wrapped σ → Prop) (φ : β → α) (a : Run (Trial (DepthSlots (Slot σ)) ρ) μ σ α)
    (b : Run (Trial (Wrapped σ) ρ) μ σ β) (post : β → Wrapped σ → Prop) : Prop :=
  ∀ m, m.context.depth = d → pre m.runs.own →
    Shown φ (fun y n => n.context.depth = d ∧ post y n.runs.own) (a m.front) (b m)

theorem Shown.bind {φ : β → α} {ψ : δ → γ} {post : β → Machine (Trial (Wrapped σ) ρ) μ σ → Prop}
    {after : δ → Machine (Trial (Wrapped σ) ρ) μ σ → Prop} {a : Run (Trial (DepthSlots (Slot σ)) ρ) μ σ α}
    {b : Run (Trial (Wrapped σ) ρ) μ σ β} {f : α → Run (Trial (DepthSlots (Slot σ)) ρ) μ σ γ}
    {g : β → Run (Trial (Wrapped σ) ρ) μ σ δ} {m : Machine (Trial (Wrapped σ) ρ) μ σ}
    (first : Shown φ post (a m.front) (b m)) (rest : ∀ y n, post y n → Shown ψ after (f (φ y) n.front) (g y n)) :
    Shown ψ after ((a >>= f) m.front) ((b >>= g) m) := by
  show Shown ψ after (EStateM.bind a f m.front) (EStateM.bind b g m)
  unfold EStateM.bind
  generalize a m.front = x at first
  generalize b m = y at first
  cases first with
  | ok h => exact rest _ _ h
  | error => exact .error

namespace Shows

variable {d e : Nat} {pre : Wrapped σ → Prop} {φ : β → α} {ψ : δ → γ} {post : β → Wrapped σ → Prop}
  {a : Run (Trial (DepthSlots (Slot σ)) ρ) μ σ α} {b : Run (Trial (Wrapped σ) ρ) μ σ β}

theorem pure {y : β} (h : ∀ w, pre w → post y w) : Shows (ρ := ρ) (μ := μ) d pre φ (pure (φ y)) (pure y) post :=
  fun m depth own => .ok ⟨depth, h m.runs.own own⟩

theorem throw {e : Fault} : Shows d pre φ (throw e : Run (Trial _ ρ) μ σ α) (throw e) post := fun _ _ _ => .error

theorem bind {f : α → Run (Trial (DepthSlots (Slot σ)) ρ) μ σ γ} {g : β → Run (Trial (Wrapped σ) ρ) μ σ δ}
    {after : δ → Wrapped σ → Prop} (first : Shows d pre φ a b post)
    (rest : ∀ y, Shows d (post y) ψ (f (φ y)) (g y) after) : Shows d pre ψ (a >>= f) (b >>= g) after :=
  fun m depth own => (first m depth own).bind fun y n h => rest y n h.1 h.2

/-- The conditions need only be equivalent. -/
theorem ite {c c' : Prop} [Decidable c] [Decidable c'] {a' : Run (Trial (DepthSlots (Slot σ)) ρ) μ σ α}
    {b' : Run (Trial (Wrapped σ) ρ) μ σ β} (same : c ↔ c') (yes : c' → Shows d pre φ a b post)
    (no : ¬ c' → Shows d pre φ a' b' post) : Shows d pre φ (if c then a else a') (if c' then b else b') post := by
  by_cases h : c'
  · rw [if_pos h, if_pos (same.mpr h)]
    exact yes h
  · rw [if_neg h, if_neg (mt same.mp h)]
    exact no h

theorem weaken {pre' : Wrapped σ → Prop} {post' : β → Wrapped σ → Prop} (h : Shows d pre φ a b post)
    (before : ∀ w, pre' w → pre w) (after : ∀ y w, post y w → post' y w) : Shows d pre' φ a b post' := by
  intro m depth own
  have shown := h m depth (before _ own)
  generalize a m.front = x at shown ⊢
  generalize b m = y at shown ⊢
  cases shown with
  | ok h => exact .ok ⟨h.1, after _ _ h.2⟩
  | error => exact .error

/-- What is known of the slots at the start may be used. -/
theorem given (h : ∀ w, pre w → Shows d (· = w) φ a b post) : Shows d pre φ a b post :=
  fun m depth own => h m.runs.own own m depth rfl

/-- The second run first changes slots that are not seen from the front. -/
theorem unseen {q : Wrapped σ → Prop} {c : Run (Trial (Wrapped σ) ρ) μ σ β} {f : Wrapped σ → Wrapped σ}
    (does : ∀ m, pre m.runs.own → b m = c { m with runs := m.runs.view f })
    (same : ∀ w, pre w → (f w).front = w.front) (moves : ∀ w, pre w → q (f w)) (rest : Shows d q φ a c post) :
    Shows d pre φ a b post := by
  intro m depth own
  have front : m.front = Machine.front { m with runs := m.runs.view f } := by
    simp only [Machine.front, Machine.withRuns, Trial.view, same m.runs.own own]
  rw [does m own, front]
  exact rest _ depth (moves _ own)

/-- The second run asks for the depth. -/
theorem knowing {g : Nat → Run (Trial (Wrapped σ) ρ) μ σ β} (h : Shows d pre φ a (g d) post) :
    Shows d pre φ a (Run.depth >>= g) post := by
  intro m depth own
  show Shown φ _ _ (g m.context.depth m)
  rw [depth]
  exact h m depth own

theorem depth {f : Nat → Run (Trial (DepthSlots (Slot σ)) ρ) μ σ α} {g : Nat → Run (Trial (Wrapped σ) ρ) μ σ β}
    (h : Shows d pre φ (f d) (g d) post) : Shows d pre φ (Run.depth >>= f) (Run.depth >>= g) post := by
  intro m depth own
  show Shown φ _ (f m.context.depth m.front) (g m.context.depth m)
  rw [depth]
  exact h m depth own

theorem returning : Shows (ρ := ρ) (μ := μ) d pre id Run.returning Run.returning fun _ => pre :=
  fun m depth own => .ok (y := m.context.returnRequest.isSome) (n := m) ⟨depth, own⟩

/-! ## Work of the children -/

theorem asks {errand : Errand} : Shows (ρ := ρ) (μ := μ) d pre id (Run.asks errand) (Run.asks errand) fun _ => pre :=
  fun m depth own => .ok (y := ()) (n := { m with runs := { m.runs with errands := m.runs.errands ++ [errand] } })
    ⟨depth, own⟩

theorem below {work : Run ρ μ σ α} (level : ∀ m x m', work m = .ok x m' → m'.context.depth = m.context.depth) :
    Shows d pre id work.below work.below fun _ => pre := by
  intro m depth own
  have ends := level (m.withRuns m.runs.below)
  have same : m.front.withRuns m.front.runs.below = m.withRuns m.runs.below := rfl
  unfold Run.below
  rw [same]
  generalize work (m.withRuns m.runs.below) = result at ends
  cases result with
  | ok x n =>
    exact .ok (y := x) (n := n.withRuns { m.runs with below := n.runs }) ⟨(ends x n rfl).trans depth, own⟩
  | error e n => exact .error (e := e) (n := n.withRuns { m.runs with below := n.runs })

section
variable {child : Behaviour ρ μ σ} (level : child.Level) (i : Nat)
include level

theorem seat_tick : Shows d pre id (child.seat i).tick (child.seat i).tick fun _ => pre :=
  depth (asks.bind fun _ => below level.tick)

theorem seat_reset (fire : Bool) :
    Shows d pre id ((child.seat i).reset e fire) ((child.seat i).reset e fire) fun _ => pre :=
  asks.bind fun _ => below fun m _ m' => level.reset e fire m m'

end

/-! ## The node's own slots -/

section
variable {x : Slot σ}

theorem read {q : Slot σ → Wrapped σ → Prop} (h : ∀ w, pre w → q (w.node.get e) w) :
    Shows (ρ := ρ) (μ := μ) d pre Slot.invert (Trial.slots.read e) (Wrapped.nodeCell.read e) q := by
  intro m depth own
  show Shown _ _ (.ok (m.runs.own.front.get e) m.front) _
  rw [Wrapped.get_front]
  exact .ok (n := m) ⟨depth, h _ own⟩

theorem take {q : Slot σ → Wrapped σ → Prop}
    (h : ∀ w, pre w → q (w.node.get e) (w.setNode (w.node.reset e))) :
    Shows (ρ := ρ) (μ := μ) d pre Slot.invert (Trial.slots.take e) (Wrapped.nodeCell.take e) q := by
  intro m depth own
  show Shown _ _ (.ok (m.runs.own.front.get e)
    { m.front with runs := { m.front.runs with own := m.runs.own.front.reset e } }) _
  rw [Wrapped.get_front, Wrapped.reset_front]
  exact .ok (n := { m with runs := m.runs.view fun w => w.setNode (w.node.reset e) }) ⟨depth, h _ own⟩

theorem keep {q : Unit → Wrapped σ → Prop} (h : ∀ w, pre w → q () (w.setNode (w.node.set e x))) :
    Shows (ρ := ρ) (μ := μ) d pre id (Trial.slots.keep e x.invert) (Wrapped.nodeCell.keep e x) q := by
  intro m depth own
  show Shown _ _ (.ok () { m.front with runs := { m.front.runs with own := m.runs.own.front.set e x.invert } }) _
  rw [Wrapped.set_front]
  exact .ok (y := ()) (n := { m with runs := m.runs.view fun w => w.setNode (w.node.set e x) }) ⟨depth, h _ own⟩

theorem forget {q : Unit → Wrapped σ → Prop} (h : ∀ w, pre w → q () (w.setNode (w.node.reset e))) :
    Shows (ρ := ρ) (μ := μ) d pre id (Trial.slots.forget e) (Wrapped.nodeCell.forget e) q := by
  intro m depth own
  show Shown _ _ (.ok () { m.front with runs := { m.front.runs with own := m.runs.own.front.reset e } }) _
  rw [Wrapped.reset_front]
  exact .ok (y := ()) (n := { m with runs := m.runs.view fun w => w.setNode (w.node.reset e) }) ⟨depth, h _ own⟩

end

end Shows

end BehaviorTree
