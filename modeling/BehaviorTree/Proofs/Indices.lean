/-
  BehaviorTree.Proofs.Indices: the children that are named are there.

  A node that keeps the number of a child, or a state for each of its children, keeps it in its
  slot from tick to tick, at each depth apart, and a picker keeps an order of children beside all
  depths. Whatever is ticked and reset, at whatever depths, what they keep is about children that
  are there (`System.InRange`): pickers of the library only pick such (`Picker.pick_lt`), however
  they are asked and told in between. So no run ever looks for a child that is not there
  (`indices_in_range`).
-/

import BehaviorTree.Proofs.Lockstep
import BehaviorTree.Proofs.Shares
import BehaviorTree.Proofs.Turns
import BehaviorTree.Proofs.Upkeep.Trees

namespace BehaviorTree

variable {μ σ α : Type}

/-! ## Pickers -/

namespace ShuffleBag

variable {b : ShuffleBag} {count i : Nat}

/-- The order names none but the children that it is for. -/
def InRange (b : ShuffleBag) : Prop := ∀ i ∈ b.order, i < b.order.size

theorem ofSeed_inRange (seed : UInt64) : (ofSeed seed).InRange := fun i h => absurd h (Array.not_mem_empty i)

theorem complete_inRange (h : b.InRange) (i : Nat) : (b.complete i).InRange := by
  unfold complete
  split <;> exact h

theorem refill_order (b : ShuffleBag) (count : Nat) : (b.refill count).order.Perm (Array.range count) :=
  Generator.shuffle_perm (Array.range count) b.generator

/-- A bag that is asked is filled for these children, and not used up. -/
theorem pick_ready (positive : 0 < count) (h : b.InRange) : ∃ r : ShuffleBag, b.pick count = (r.order[r.next]?, r) ∧
    r.InRange ∧ r.order.size = count ∧ r.next < count := by
  have asked : b.pick count = ((if b.isSpent count then b.refill count else b).order[
      (if b.isSpent count then b.refill count else b).next]?, if b.isSpent count then b.refill count else b) :=
    if_neg (Nat.ne_of_gt positive)
  refine ⟨_, asked, ?_⟩
  split
  case isTrue =>
    have size : (b.refill count).order.size = count := by simpa using (refill_order b count).size_eq
    refine ⟨fun i mem => ?_, size, positive⟩
    rw [size]
    exact Array.mem_range.mp ((refill_order b count).mem_iff.mp mem)
  case isFalse filled =>
    simp only [isSpent, Bool.or_eq_true, decide_eq_true_eq, not_or, not_not, Nat.not_le] at filled
    exact ⟨h, filled⟩

theorem pick_inRange (h : b.InRange) (count : Nat) : (b.pick count).2.InRange := by
  obtain rfl | positive := Nat.eq_zero_or_pos count
  · exact h
  · obtain ⟨r, asked, range, -⟩ := pick_ready positive h
    rw [asked]
    exact range

theorem pick_lt (h : b.InRange) (picks : (b.pick count).1 = some i) : i < count := by
  obtain rfl | positive := Nat.eq_zero_or_pos count
  · cases picks
  · obtain ⟨r, asked, range, size, -⟩ := pick_ready positive h
    rw [asked] at picks
    rw [← size]
    exact range i (Array.mem_of_getElem? picks)

/-- The place in the order is within the order. -/
theorem pick_isSome (positive : 0 < count) (h : b.InRange) : (b.pick count).1.isSome := by
  obtain ⟨r, asked, -, size, room⟩ := pick_ready positive h
  rw [asked, Array.getElem?_eq_getElem (size ▸ room)]
  rfl

end ShuffleBag

namespace WeightedDraw

theorem pick_lt {d : WeightedDraw} {count i : Nat} (picks : (d.pick count).1 = some i) : i < count := by
  unfold pick at picks
  split at picks
  · cases picks
  · exact (scan_weights_some picks).1

end WeightedDraw

theorem Rotation.pick_lt {r : Rotation} {count i : Nat} (picks : r.pick count = some i) : i < count := by
  unfold pick at picks
  split at picks
  · cases picks
  · cases picks
    exact Nat.mod_lt _ (Nat.pos_of_ne_zero ‹_›)

namespace Picker

variable {p : Picker} {count i : Nat}

/-- A picker of the library, whatever it was asked and told since it was made. -/
inductive Built : Picker → Prop
  | bag (seed : UInt64) : Built (.bag (.ofSeed seed))
  | weighted (d : WeightedDraw) : Built (.weighted d)
  | rotation : Built (.rotation {})
  | pick {p : Picker} (count : Nat) : Built p → Built (p.pick count).2
  | complete {p : Picker} (i : Nat) : Built p → Built (p.complete i)

/-- What the picker remembers names children that are there. -/
def InRange : Picker → Prop
  | .bag b => b.InRange
  | .weighted _ | .rotation _ => True

theorem InRange.pick (h : p.InRange) (count : Nat) : (p.pick count).2.InRange := by
  cases p with
  | bag b => exact ShuffleBag.pick_inRange h count
  | weighted d => exact h
  | rotation r => exact h

theorem InRange.complete (h : p.InRange) (i : Nat) : (p.complete i).InRange := by
  cases p with
  | bag b => exact ShuffleBag.complete_inRange h i
  | weighted d => exact h
  | rotation r => exact h

theorem Built.inRange (h : p.Built) : p.InRange := by
  induction h with
  | bag seed => exact ShuffleBag.ofSeed_inRange seed
  | weighted d => trivial
  | rotation => trivial
  | pick count _ ih => exact ih.pick count
  | complete i _ ih => exact ih.complete i

theorem pick_lt (h : p.InRange) (picks : (p.pick count).1 = some i) : i < count := by
  cases p with
  | bag b => exact ShuffleBag.pick_lt h picks
  | weighted d => exact WeightedDraw.pick_lt picks
  | rotation r => exact Rotation.pick_lt picks

end Picker

/-! ## Trees -/

theorem Store.pickerAt_setPicker (s : Store σ) (site site' : Address) (p initial : Picker) :
    (s.setPicker site p).pickerAt site' initial = if site = site' then p else s.pickerAt site' initial := by
  simp only [pickerAt, setPicker, Std.ExtTreeMap.getD_insert, Std.LawfulEqCmp.compare_eq_iff_eq]

namespace System

variable {sys : System μ σ}

/-- All that choose do it by pickers of the library. -/
def PicksBuiltIn (sys : System μ σ) : Prop :=
  ∀ site policy children, sys.nodeAt site = some (.selectOne policy children) →
    ∃ p, policy = .picker p ∧ p.Built

/-- What nodes and pickers remember is about children that are there. -/
structure InRange (sys : System μ σ) (s : Store σ) : Prop where
  slots : ∀ {p node}, sys.nodeAt p.site = some node → (s.slot p).Within node.children.length
  pickers : ∀ {site p children}, sys.nodeAt site = some (.selectOne (.picker p) children) →
    (s.pickerAt site p).InRange

theorem InRange.start {s : Store σ} (builtIn : sys.PicksBuiltIn) (idle : ∀ p, s.slot p = .idle)
    (untouched : s.pickers = ∅) : sys.InRange s where
  slots {p _} _ := by rw [idle p]; trivial
  pickers {site p children} here := by
    obtain ⟨_, ⟨⟩, built⟩ := builtIn site _ children here
    simpa [Store.pickerAt, untouched] using built.inRange

theorem InRange.of_same {s t : Store σ} (h : sys.InRange s) (slots : ∀ q, t.slot q = s.slot q)
    (pickers : t.pickers = s.pickers) : sys.InRange t where
  slots {p _} here := by rw [slots p]; exact h.slots here
  pickers here := by rw [Store.pickerAt, pickers]; exact h.pickers here

variable (sys) in
/-- Children that are named stay in range, and none is looked for that is not there. -/
def inRange : Upkeep (Stage.plain (μ := μ) (σ := σ)) where
  holds m := sys.InRange m.runs
  breaks e m := sys.InRange m.runs ∧ ∀ count i, e ≠ .noSuchChild count i
  passive held runs _ _ _ := by rw [runs]; exact held
  aside held slots pickers := held.of_same (slots _) (pickers _)

theorem inRange_owns {site : Address} {node : Node μ σ} (here : sys.nodeAt site = some node) :
    sys.inRange.Owns (Stage.plain.cell (μ := μ) site) node.children.length where
  reads {m d i} held child := by
    have within := held.slots (p := ⟨site, d⟩) here
    rw [show m.runs.slot ⟨site, d⟩ = .child i from child] at within
    exact .inl within
  set {m d slot} held within := by
    refine ⟨fun {p other} there => ?_, fun there => held.pickers there⟩
    show (((Store.cell site).set m.runs d slot).slot p).Within _
    rw [Store.slot_set (p := ⟨site, d⟩)]
    split
    case isTrue same =>
      subst same
      rwa [Option.some.inj (there.symm.trans here)]
    case isFalse => exact held.slots there
  reset {m d} held := by
    refine ⟨fun {p other} there => ?_, fun there => held.pickers there⟩
    show (((Store.cell site).reset m.runs d).slot p).Within _
    rw [Store.slot_reset (p := ⟨site, d⟩)]
    split
    · trivial
    · exact held.slots there

theorem inRange_chooses (builtIn : sys.PicksBuiltIn) {site : Address} {policy : Policy μ}
    {children : List (Node μ σ)} (here : sys.nodeAt site = some (.selectOne policy children)) :
    sys.inRange.Chooses (Stage.plain.chooser site policy) children.length := by
  obtain ⟨p, rfl, -⟩ := builtIn site policy children here
  have keeps {s : Store σ} {q : Picker} (held : sys.InRange s) (range : q.InRange) :
      sys.InRange (s.setPicker site q) := by
    refine ⟨fun there => held.slots there, fun {site' p' children'} there => ?_⟩
    rw [Store.pickerAt_setPicker]
    split
    · exact range
    · exact held.pickers there
  refine ⟨fun m held => ?_, fun i m held => ?_⟩
  · have range := held.pickers here
    exact .ok ⟨fun i picks => .inl (Picker.pick_lt range picks), keeps held (range.pick _)⟩
  · exact .ok ⟨trivial, keeps held ((held.pickers here).complete i)⟩

theorem inRange_upheld (builtIn : sys.PicksBuiltIn) : sys.inRange.Upheld sys where
  unbound _ _ held := held
  allows other _ held := ⟨held, other⟩
  owns := inRange_owns
  chooses := inRange_chooses builtIn
  watched tends := tends

/-! ## All that may be done -/

/-- What may be done to trees and to nodes in them, from outside: ticks at the depth of the context in
place, or in a context of their own, and resets at any depth. -/
inductive Handling (σ : Type) where
  | tick (tree : TreeId) (delta : Float32) (state : Option σ)
  | tickHere (tree : TreeId)
  | reset (tree : TreeId) (depth : Nat) (fire : Bool)
  | tickNode (site : Address)
  | resetNode (site : Address) (depth : Nat) (fire : Bool)

/-- The node at an address, as trees run it; where there is none, nothing can be done. -/
def part (sys : System μ σ) (levels : Nat) (site : Address) : Behaviour (Store σ) μ σ :=
  match sys.nodeAt site with
  | some node =>
    node.behaviour (sys.tickLinks .plain (sys.host .plain) (sys.tickRoot .plain (sys.host .plain) levels)) site
  | none => .ofTick (pure .failure)

/-- Does it. -/
def handle (sys : System μ σ) : Handling σ → Run (Store σ) μ σ Unit
  | .tick tree delta state => discard (sys.tick .plain tree delta state)
  | .tickHere tree => discard (sys.tickHere .plain (sys.host .plain) tree)
  | .reset tree depth fire => sys.resetAt .plain tree depth fire
  | .tickNode site => fun m => discard (sys.part (m.context.maxDepth - m.context.depth) site).tick m
  | .resetNode site depth fire => (sys.part 0 site).reset depth fire

/-- The machines that such handling leads to. In between, anything may happen but to the slots and
pickers, also to the depth of the context. -/
inductive Handled (sys : System μ σ) (start : Machine (Store σ) μ σ) : Machine (Store σ) μ σ → Prop
  | start : Handled sys start start
  | between {m n : Machine (Store σ) μ σ} : Handled sys start m → (∀ p, n.runs.slot p = m.runs.slot p) →
      n.runs.pickers = m.runs.pickers → Handled sys start n
  | handle {m : Machine (Store σ) μ σ} (act : Handling σ) : Handled sys start m →
    Handled sys start ((sys.handle act).last m)

theorem handle_keeps (builtIn : sys.PicksBuiltIn) (act : Handling σ) : sys.inRange.Keeps (sys.handle act) := by
  have upheld := inRange_upheld builtIn
  have hosts := upheld.nestedHost nestingBound
  have parts : ∀ levels site, sys.inRange.Tends True (sys.part levels site) := fun levels site => by
    unfold part
    split
    case h_1 node here => exact upheld.node (upheld.ticks hosts (upheld.tickRoot hosts levels)) node site here
    case h_2 => exact .ofTick fun _ => .pure _
  have drops {a : Run (Store σ) μ σ Status} (h : sys.inRange.Keeps a) : sys.inRange.Keeps (discard a) :=
    h.bind fun _ => .pure _
  cases act with
  | tick tree delta state => exact drops (upheld.tick tree delta state)
  | tickHere tree => exact drops (upheld.tickHere hosts tree)
  | reset tree depth fire => exact upheld.resetAt tree depth fire
  | tickNode site => exact fun m => drops ((parts _ site).tick trivial) m
  | resetNode site depth fire => exact (parts 0 site).reset depth fire

theorem Handled.inRange {start m : Machine (Store σ) μ σ} (h : sys.Handled start m) (builtIn : sys.PicksBuiltIn)
    (fresh : sys.InRange start.runs) : sys.InRange m.runs := by
  induction h with
  | start => exact fresh
  | between _ slots pickers ih => exact ih.of_same slots pickers
  | @handle m act _ ih =>
    have came := handle_keeps builtIn act m ih
    unfold Run.last
    generalize sys.handle act m = r at came
    cases came with
    | ok came => exact came.2
    | error breaks => exact breaks.1

end System

/-- In every system whose choosing nodes have pickers of the library, wherever ticks and resets at any
depths lead: what the nodes remember names children that are there, or tells of as many as there are,
and nothing that is done next looks for a child that is not there. Whatever a picker of the library
was asked and told, it picks one of the children that it is asked for, if any; and a bag finds one in
its order if there are any children. -/
theorem indices_in_range (sys : System μ σ) (builtIn : sys.PicksBuiltIn) (start m : Machine (Store σ) μ σ)
    (idle : ∀ p, start.runs.slot p = .idle) (untouched : start.runs.pickers = ∅) (handled : sys.Handled start m) :
    (∀ p node, sys.nodeAt p.site = some node → (m.runs.slot p).Within node.children.length) ∧
    (∀ act e n, sys.handle act m = .error e n → ∀ count i, e ≠ .noSuchChild count i) ∧
    (∀ p : Picker, p.Built → ∀ count i, (p.pick count).1 = some i → i < count) ∧
    ∀ b, (Picker.bag b).Built → ∀ count, 0 < count → (b.pick count).1.isSome := by
  have range := handled.inRange builtIn (.start builtIn idle untouched)
  refine ⟨fun p node here => range.slots here, fun act e n failed => ?_,
    fun p built count i => Picker.pick_lt built.inRange,
    fun b built count positive => ShuffleBag.pick_isSome positive built.inRange⟩
  have came := System.handle_keeps builtIn act m range
  rw [failed] at came
  cases came with
  | error breaks => exact breaks.2

/-! ## One bag at two depths -/

/-- Chooses out of a bag among children that take two ticks each. -/
def juggle : Node Unit Unit := .selectOne (.picker (.bag (.ofSeed 2))) [.pause, .sequence [.pause], .pause]

/-- It is the whole tree. -/
def juggling : System Unit Unit where
  trees := #[{ name := "juggle", root := juggle }]

/-- Nothing happened yet. -/
def jugglingStart : Machine (Store Unit) Unit Unit := { context := {}, memory := (), runs := {} }

/-- The child that the node remembers at a depth. -/
def juggled (depth : Nat) (m : Machine (Store Unit) Unit Unit) : Option Nat := (m.runs.slot ⟨[0], depth⟩).child?

/-- The node is ticked at one depth and at the next, and is done at the first then: what it remembers. -/
def jugglingRun : Run (Store Unit) Unit Unit (Option Nat × Option Nat) := do
  juggling.handle (.tickNode [0])
  Run.onContext ({ · with depth := 1 })
  juggling.handle (.tickNode [0])
  Run.onContext ({ · with depth := 0 })
  juggling.handle (.tickNode [0])
  let m ← get
  return (juggled 0 m, juggled 1 m)

theorem juggling_builtIn : juggling.PicksBuiltIn := by
  intro site policy children here
  have all : ∀ tree ∈ juggling.trees, tree.root.All fun node =>
      ∀ policy children, node = .selectOne policy children → ∃ p, policy = .picker p ∧ p.Built := by
    simp only [juggling, juggle, List.mem_toArray, List.forall_mem_singleton]
    refine .mk (fun _ _ is => by cases is; exact ⟨_, rfl, .bag 2⟩) ?_
    simp only [Node.children, List.forall_mem_cons, List.not_mem_nil, false_imp_iff, implies_true, and_true]
    refine ⟨.leaf (fun _ _ is => by cases is) rfl, .mk (fun _ _ is => by cases is) fun child hc => ?_,
      .leaf (fun _ _ is => by cases is) rfl⟩
    cases List.mem_singleton.mp hc
    exact .leaf (fun _ _ is => by cases is) rfl
  exact System.forall_nodes all site _ here policy children rfl

/-- The second run goes on with its child although the bag has gone on without it. -/
theorem juggling_in_range : ∃ m, juggling.Handled jugglingStart m ∧ juggled 0 m = none ∧ juggled 1 m = some 2 ∧
    (m.runs.slot ⟨[0], 1⟩).Within 3 ∧
    ∀ e n, juggling.handle (.reset 0 1 true) m = .error e n → ∀ count i, e ≠ .noSuchChild count i := by
  obtain ⟨_, ran⟩ := Run.ok_of_answer (a := jugglingRun) (m := jugglingStart) (x := (none, some 2))
    (by decide +kernel)
  simp only [jugglingRun, Run.bind_eq_ok, Run.get_eq_ok, Run.onContext_eq_ok, Run.pure_eq_ok,
    Prod.mk.injEq] at ran
  obtain ⟨_, m₁, first, _, _, rfl, _, m₂, second, _, _, rfl, _, m₃, third, _, _, ⟨rfl, rfl⟩,
    ⟨done, held⟩, rfl⟩ := ran
  have handled : juggling.Handled jugglingStart m₃ := by
    have once : juggling.Handled jugglingStart _ := System.Handled.start.handle (.tickNode [0])
    rw [Run.last_ok first] at once
    have deeper : juggling.Handled jugglingStart { m₁ with context := { m₁.context with depth := 1 } } :=
      once.between (fun _ => rfl) rfl
    have twice := deeper.handle (.tickNode [0])
    rw [Run.last_ok second] at twice
    have back : juggling.Handled jugglingStart { m₂ with context := { m₂.context with depth := 0 } } :=
      twice.between (fun _ => rfl) rfl
    have again := back.handle (.tickNode [0])
    rwa [Run.last_ok third] at again
  obtain ⟨slots, safe, -⟩ :=
    indices_in_range juggling juggling_builtIn jugglingStart m₃ (fun _ => Store.slot_empty _) rfl handled
  exact ⟨m₃, handled, done, held, slots ⟨[0], 1⟩ juggle rfl, safe _⟩

end BehaviorTree
