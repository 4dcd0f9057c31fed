/-
  BehaviorTree.Proofs.Nested.Behaviours: a tick opens and closes brackets as it starts and ends runs.

  A tick at a place finds brackets open for the scopes and calls in a run there, inside of those
  that were open outside (`Poised`), and leaves it so (`Leaves`): a run that has ended has closed what
  it opened, and a request to return early comes up with the end of a run only. One lemma for each
  behaviour that runs its children in turn. They go by the passage of a tick, but for the events
  of scopes and calls.
-/

import BehaviorTree.Proofs.Guard
import BehaviorTree.Proofs.Nested.Log
import BehaviorTree.Proofs.Nested.Unfinished
import BehaviorTree.Proofs.Overlay.Trees

namespace BehaviorTree

variable {μ σ : Type}

/-! ## Slots of a place -/

namespace Store

variable {p : Place} {s : Store σ} {d : Nat}

theorem apart_set (hd : d = p.depth) (x : Slot σ) : s.Apart p ((cell p.site).set s d x) := by
  subst hd
  exact fun q other => (slot_set s p q x).trans (if_neg (Ne.symm other))

theorem apart_reset (hd : d = p.depth) : s.Apart p ((cell p.site).reset s d) := by
  subst hd
  exact fun q other => (slot_reset s p q).trans (if_neg (Ne.symm other))

theorem slot_set_own (hd : d = p.depth) (x : Slot σ) : ((cell p.site).set s d x).slot p = x := by
  subst hd
  exact (slot_set s p p x).trans (if_pos rfl)

theorem slot_reset_own (hd : d = p.depth) : ((cell p.site).reset s d).slot p = .idle := by
  subst hd
  exact (slot_reset s p p).trans (if_pos rfl)

theorem get_eq_slot (hd : d = p.depth) : (cell p.site).get s d = s.slot p := by rw [hd]; rfl

end Store

/-- The overlays that the node puts on its children. -/
def Node.overlays : Node μ σ → Nat
  | .localScope _ => 1
  | _ => 0

namespace System

variable (sys : System μ σ) (limits : Limits)

/-- The overlays that the nodes above put on a node of a tree. -/
def overlaysAbove : Address → Nat
  | [] => 0
  | _ :: site => overlaysAbove site + ((sys.nodeAt site).map Node.overlays).getD 0

/-- The stack that has brackets open for a chain, inside of others. -/
def stack (base : List Mark) (places : List Place) : List Mark := (places.map sys.mark).reverse ++ base

theorem stack_cons (base : List Mark) (p : Place) (places : List Place) :
    sys.stack base (p :: places) = sys.stack (sys.mark p :: base) places := by
  simp [stack]

/-- A tick of the node at a place may begin: inside of some brackets, those of its chain are open. -/
structure Poised (base : List Mark) (p : Place) (places : List Place) (m : Machine (Store σ) μ σ) : Prop where
  depth : m.context.depth = p.depth
  guards : ∃ path, sys.Guards limits path m.context
  overlays : sys.overlaysAbove p.site ≤ m.context.layers.overlays.length
  calm : m.context.returnRequest = none
  chain : sys.Chain limits m.runs p places
  told : m.unclosed = some (sys.stack base places)

/-- A tick of the node at a place has ended with an answer, and with a chain. -/
structure Leaves (base : List Mark) (p : Place) (m : Machine (Store σ) μ σ) (status : Status) (m' : Machine (Store σ) μ σ)
    (places : List Place) : Prop where
  level : m.context.Level m'.context
  frame : ∀ q, ¬ p.Covers q → m'.runs.slot q = m.runs.slot q
  chain : sys.Chain limits m'.runs p places
  told : m'.unclosed = some (sys.stack base places)
  ended : status.isTerminal = true → places = []
  request : ∀ r, m'.context.returnRequest = some r → r.isTerminal = true ∧ status.isTerminal = true

/-- The ticks of a behaviour open and close brackets as runs at the place begin and end. -/
structure Nests (p : Place) (b : Behaviour (Store σ) μ σ) : Prop where
  tick : ∀ {base places m status m'}, sys.Poised limits base p places m → b.tick m = .ok status m' →
    ∃ places', sys.Leaves limits base p m status m' places'

/-- Besides the slot of the place nothing has happened that matters to its children. -/
structure Beside (p : Place) (m m' : Machine (Store σ) μ σ) : Prop where
  depth : m'.context.depth = m.context.depth
  maxDepth : m'.context.maxDepth = m.context.maxDepth
  stack : m'.context.stack = m.context.stack
  request : m'.context.returnRequest = m.context.returnRequest
  slots : m.runs.Apart p m'.runs
  told : ∀ {stack}, m.unclosed = some stack → m'.unclosed = some stack

variable {sys limits} {base : List Mark} {p : Place} {places : List Place} {node : Node μ σ} {i d : Nat}
  {m m₀ m₁ m' : Machine (Store σ) μ σ} {status st : Status} {b : Behaviour (Store σ) μ σ}
  {children : List (Behaviour (Store σ) μ σ)}

theorem overlaysAbove_child (here : sys.nodeAt p.site = some node) :
    sys.overlaysAbove (i :: p.site) = sys.overlaysAbove p.site + node.overlays := by
  rw [overlaysAbove, here]
  rfl

namespace Beside

theorem of_context (context : m'.context = m.context) (slots : m.runs.Apart p m'.runs) : Beside p m m' := by
  refine ⟨by rw [context], by rw [context], by rw [context], by rw [context], slots, fun heard => ?_⟩
  rw [Machine.unclosed, context]
  exact heard

theorem refl (p : Place) (m : Machine (Store σ) μ σ) : Beside p m m := .of_context rfl fun _ _ => rfl

theorem withMemory (p : Place) (m : Machine (Store σ) μ σ) (x : μ) : Beside p m (m.withMemory x) :=
  .of_context rfl fun _ _ => rfl

theorem set (hd : d = p.depth) (x : Slot σ) : Beside p m (m.onRuns ((Store.cell p.site).set · d x)) :=
  .of_context rfl (Store.apart_set hd x)

theorem reset (hd : d = p.depth) : Beside p m (m.onRuns ((Store.cell p.site).reset · d)) :=
  .of_context rfl (Store.apart_reset hd)

end Beside

/-! ## Down to a child and up again -/

namespace Poised

variable (h : sys.Poised limits base p places m)
include h

/-- What is not in the chain is not in a run. -/
theorem silent (empty : places = []) (q : Place) (covers : p.Covers q) : ¬ sys.InRun m.runs q := by
  subst empty
  exact h.chain.silent q covers

/-- A child may be ticked, if the chain goes on there. -/
theorem below (first : Beside p m m₀) (goes : sys.Chain limits m.runs (p.inside i) places)
    (overlays : sys.overlaysAbove (i :: p.site) ≤ m₀.context.layers.overlays.length) :
    sys.Poised limits base (p.inside i) places m₀ where
  depth := first.depth.trans h.depth
  guards := h.guards.imp fun _ guards => guards.congr first.depth first.maxDepth first.stack
  overlays := overlays
  calm := first.request.trans h.calm
  chain := goes.congr fun q covers => first.slots q (Place.ne_of_covers_inside covers)
  told := first.told h.told

/-- The child that is in a run, or may be. -/
theorem down (here : sys.nodeAt p.site = some node) (unmarked : node.isMarked = false) (first : Beside p m m₀)
    (only : ∀ j < node.children.length, node.Runs (m.runs.slot p) j → j = i)
    (overlays : sys.overlaysAbove (i :: p.site) ≤ m₀.context.layers.overlays.length) :
    sys.Poised limits base (p.inside i) places m₀ ∧ sys.Narrows m₀.runs p (p.inside i) := by
  obtain ⟨below, narrows⟩ := h.chain.down here unmarked only
  exact ⟨h.below first below overlays, narrows.of_apart first.slots⟩

/-- The overlays are as many as the child needs, where its parent puts none there. -/
theorem room (here : sys.nodeAt p.site = some node) (none : node.overlays = 0) (i : Nat) :
    sys.overlaysAbove (i :: p.site) ≤ m.context.layers.overlays.length := by
  rw [overlaysAbove_child here, none]
  exact h.overlays

end Poised

/-- A tick that has only waited, or written the slot of its node. -/
theorem Poised.leaf (h : sys.Poised limits base p [] m) (level : m.context.Level m'.context)
    (slots : m.runs.Apart p m'.runs) (idle : ¬ sys.InRun m'.runs p)
    (told : m'.unclosed = some (sys.stack base [])) (request : ∀ r, m'.context.returnRequest = some r →
      r.isTerminal = true ∧ st.isTerminal = true) : sys.Leaves limits base p m st m' [] where
  level := level
  frame q outside := slots q (Place.ne_of_not_covers outside)
  chain := by
    refine .nil fun q covers runs => ?_
    by_cases same : q = p
    · exact idle (same ▸ runs)
    · exact h.chain.silent q covers (runs.congr (slots q same).symm)
  told := told
  ended _ := rfl
  request := request

namespace Leaves

/-- Work that comes after other work at the same place. -/
theorem after (level : m.context.Level m₁.context) (frame : ∀ q, ¬ p.Covers q → m₁.runs.slot q = m.runs.slot q)
    (h : sys.Leaves limits base p m₁ st m' places) : sys.Leaves limits base p m st m' places where
  level := level.trans h.level
  frame q outside := (h.frame q outside).trans (frame q outside)
  chain := h.chain
  told := h.told
  ended := h.ended
  request := h.request

/-- A child was ticked, between other work of its parent. -/
theorem up (first : Beside p m m₀) (narrows : sys.Narrows m₀.runs p (p.inside i))
    (child : sys.Leaves limits base (p.inside i) m₀ status m₁ places) (last : Beside p m₁ m')
    (here : sys.nodeAt p.site = some node) (unmarked : node.isMarked = false) (among : i < node.children.length)
    (level : m.context.Level m'.context) (runs : status = .running → node.Runs (m'.runs.slot p) i)
    (ended : st.isTerminal = true → status.isTerminal = true)
    (request : status.isTerminal = true → m₁.context.returnRequest.isSome = true → st.isTerminal = true) :
    sys.Leaves limits base p m st m' places where
  level := level
  frame q outside := by
    have other := Place.ne_of_not_covers outside
    exact ((last.slots q other).trans (child.frame q fun covers => outside covers.of_inside)).trans (first.slots q other)
  chain := by
    have below : sys.Chain limits m'.runs (p.inside i) places :=
      child.chain.congr fun q covers => last.slots q (Place.ne_of_covers_inside covers)
    refine below.up here unmarked among ((narrows.framed child.frame).of_apart last.slots) fun more => runs ?_
    by_contra other
    exact more (child.ended (Status.isTerminal_iff.mpr other))
  told := last.told child.told
  ended terminal := child.ended (ended terminal)
  request r pending := by
    rw [last.request] at pending
    obtain ⟨requested, terminal⟩ := child.request r pending
    exact ⟨requested, request terminal (by rw [pending]; rfl)⟩

end Leaves

/-! ## Leaves -/

section
variable (here : sys.nodeAt p.site = some node) (unmarked : node.isMarked = false) (none : ∀ slot j, ¬ node.Runs slot j)
include here unmarked none

/-- Callbacks may run anywhere. -/
theorem nests_callback {body : Run (Store σ) μ σ Status}
    (waits : ∀ m st m', sys.overlaysAbove p.site ≤ m.context.layers.overlays.length → body m = .ok st m' → m.Waits m')
    {reset : (depth : Nat) → (fire : Bool) → Run (Store σ) μ σ Unit} : sys.Nests limits p ⟨body, reset⟩ := by
  refine ⟨fun {base places m status m'} h ran => ?_⟩
  obtain rfl := h.chain.eq_nil here unmarked fun j _ => none _ j
  have waits := waits m status m' h.overlays ran
  refine ⟨[], h.leaf waits.level (fun q _ => by rw [waits.runs]) (not_inRun_unmarked here unmarked) (waits.told h.told) ?_⟩
  intro r pending
  cases (waits.calm h.calm).symm.trans pending

/-- A leaf may write its own slot. -/
theorem nests_leaf (own : ∀ m st m', m.context.depth = p.depth → b.tick m = .ok st m' →
    m'.context = m.context ∧ m.runs.Apart p m'.runs) : sys.Nests limits p b := by
  refine ⟨fun {base places m status m'} h ran => ?_⟩
  obtain rfl := h.chain.eq_nil here unmarked fun j _ => none _ j
  obtain ⟨context, slots⟩ := own m status m' h.depth ran
  refine ⟨[], h.leaf (context ▸ .refl _) slots (not_inRun_unmarked here unmarked) ?_ fun r pending => ?_⟩
  · rw [Machine.unclosed, context]
    exact h.told
  · rw [context, h.calm] at pending
    cases pending

theorem nests_timed (holds : Behaviour.HoldsWhileRunning (Store.cell p.site) b) : sys.Nests limits p b := by
  refine nests_leaf here unmarked none fun m st m' depth ran => ?_
  obtain ⟨x, ⟨-, rfl⟩ | ⟨-, slot, rfl⟩⟩ := holds m st m' ran
  · exact ⟨rfl, Store.apart_reset depth⟩
  · exact ⟨rfl, Store.apart_set depth _⟩

theorem nests_earlyReturn {v : Verdict} : sys.Nests limits p (.earlyReturn v) := by
  refine ⟨fun {base places m status m'} h ran => ?_⟩
  obtain rfl := h.chain.eq_nil here unmarked fun j _ => none _ j
  have terminal : v.status.isTerminal = true := by cases v <;> rfl
  obtain ⟨rfl, alike⟩ := Behaviour.earlyReturn_ok ran
  simp only [Behaviour.earlyReturn, Behaviour.ofTick, Run.requestReturn, Run.bind_eq_ok, Run.onContext_eq_ok,
    Run.depth_eq_ok, Run.pure_eq_ok] at ran
  obtain ⟨_, _, rfl, _, _, ⟨-, rfl⟩, _, n, traced, -, rfl⟩ := ran
  have waits := Run.trace_waits (fun e same => TraceEvent.paren?_eq_none (by rw [same]; decide)) traced
  have level : m.context.Level n.context :=
    ⟨waits.level.depth, waits.level.maxDepth, waits.level.stack, waits.level.overlays⟩
  refine ⟨[], h.leaf level (fun q _ => by rw [waits.runs]) (not_inRun_unmarked here unmarked) (waits.told h.told) ?_⟩
  intro r pending
  cases alike.request.symm.trans pending
  exact ⟨terminal, terminal⟩

end

theorem nests_condition {holds : Predicate μ σ} {every : Duration}
    (here : sys.nodeAt p.site = some (.condition holds every)) :
    sys.Nests limits p (.condition (Store.cell p.site) holds every) := by
  refine nests_leaf here rfl (fun _ _ => id) fun m st m' depth ran => ?_
  obtain ⟨-, x, rfl | ⟨slot, rfl⟩⟩ := Behaviour.condition_ok ran
  · exact ⟨rfl, fun _ _ => rfl⟩
  · exact ⟨rfl, Store.apart_set depth _⟩

/-! ## One child -/

section
variable {child : Node μ σ} (below : sys.Nests limits (p.inside 0) b)
include below

/-- The tick of an only child, with what its parent may make of it. -/
theorem Poised.through (h : sys.Poised limits base p places m) (here : sys.nodeAt p.site = some node)
    (one : node.children = [child]) (unmarked : node.isMarked = false) (flat : node.overlays = 0) (first : Beside p m m₀)
    (level : m.context.Level m₀.context) (ticked : b.tick m₀ = .ok status m₁) :
    ∃ places', sys.Leaves limits base (p.inside 0) m₀ status m₁ places' ∧ ∀ {st m'}, Beside p m₁ m' →
      m'.context = m₁.context → (status = .running → node.Runs (m'.runs.slot p) 0) →
      (st.isTerminal = true → status.isTerminal = true) →
      (status.isTerminal = true → m₁.context.returnRequest.isSome = true → st.isTerminal = true) →
      sys.Leaves limits base p m st m' places' := by
  have only : ∀ j < node.children.length, node.Runs (m.runs.slot p) j → j = 0 := fun j among _ => by
    rw [one] at among
    exact Nat.lt_one_iff.mp among
  have room := h.room here flat 0
  rw [← level.overlays] at room
  obtain ⟨ready, narrows⟩ := h.down here unmarked first only room
  obtain ⟨places', left⟩ := below.tick ready ticked
  refine ⟨places', left, fun last context runs ended request => ?_⟩
  refine left.up first narrows last here unmarked (one ▸ Nat.one_pos) ?_ runs ended request
  exact level.trans (context ▸ left.level)

/-- For the nodes that note whether they left their child running. -/
theorem nests_noted {B : Behaviour (Store σ) μ σ} (here : sys.nodeAt p.site = some node) (one : node.children = [child])
    (unmarked : node.isMarked = false) (flat : node.overlays = 0)
    (runs : ∀ (slot : Slot σ) j, node.Runs slot j ↔ slot = .started)
    (notes : Behaviour.NotesChild (Store.cell p.site) b B) : sys.Nests limits p B := by
  refine ⟨fun {base places m status m'} h ran => ?_⟩
  rcases notes m status m' ran with ⟨fresh, rfl, x, rfl⟩ | ⟨x, s, m₁, e, ticked, noted, rfl, running, ends⟩
  · rw [Store.get_eq_slot h.depth] at fresh
    obtain rfl := h.chain.eq_nil here unmarked fun j _ at_ => fresh ((runs _ j).mp at_)
    refine ⟨[], h.leaf (.refl _) (fun _ _ => rfl) (not_inRun_unmarked here unmarked) h.told fun r pending => ?_⟩
    cases h.calm.symm.trans pending
  · obtain ⟨places', left, up⟩ := h.through below here one unmarked flat (.withMemory p m x) (.refl _) ticked
    have depth : m₁.context.depth = p.depth := left.level.depth.trans h.depth
    have own : e = p.depth := noted.elim (·.trans h.depth) (·.trans depth)
    refine ⟨places', up (.set own _) rfl ?_ (fun terminal => ?_) fun terminal pending => ends pending terminal⟩
    · rintro rfl
      exact (runs _ 0).mpr (Store.slot_set_own own _)
    · exact Status.isTerminal_iff.mpr fun still => Status.isTerminal_iff.mp terminal (running still)

/-- For both nodes that count iterations. -/
theorem nests_iterate {goOn : Verdict} {spent : UInt32 → Bool} (here : sys.nodeAt p.site = some node)
    (one : node.children = [child]) (unmarked : node.isMarked = false) (flat : node.overlays = 0)
    (counts : ∀ count, node.Runs (.iterations count true) 0) :
    sys.Nests limits p (.iterate (Store.cell p.site) goOn spent b) := by
  refine ⟨fun {base places m status m'} h ran => ?_⟩
  obtain ⟨s, m₁, ticked, passage⟩ := Behaviour.iterate_ok ran
  obtain ⟨places', left, up⟩ := h.through below here one unmarked flat (.refl p m) (.refl _) ticked
  rcases passage with ⟨ends, rfl, rfl⟩ | ⟨calm, rfl, n, rfl⟩
  · have terminal : status.isTerminal = true := by
      refine ends.elim (fun pending => ?_) id
      obtain ⟨r, pending⟩ := Option.isSome_iff_exists.mp pending
      exact (left.request r pending).2
    refine ⟨places', up (.reset h.depth) rfl ?_ id fun terminal _ => terminal⟩
    rintro rfl
    cases terminal
  · refine ⟨places', up (.set h.depth _) rfl ?_ nofun fun _ pending => ?_⟩
    · rintro rfl
      exact (Store.slot_set_own h.depth _).symm ▸ counts n
    · rw [calm] at pending
      cases pending

theorem nests_delay {duration : Duration} (here : sys.nodeAt p.site = some (.delay duration child)) :
    sys.Nests limits p (.delay (Store.cell p.site) duration b) := by
  refine ⟨fun {base places m status m'} h ran => ?_⟩
  rcases Behaviour.delay_ok ran with ⟨waits, rfl⟩ | ⟨m₀, m₁, released, ticked, passage⟩
  · rcases Behaviour.release_ok waits with ⟨no, -⟩ | ⟨waiting, t, rfl⟩
    · cases no
    · rw [Store.get_eq_slot h.depth] at waiting
      obtain rfl := h.chain.eq_nil here rfl fun _ _ => waiting
      refine ⟨[], h.leaf (.refl _) (Store.apart_set h.depth _) (not_inRun_unmarked here rfl) h.told fun r pending => ?_⟩
      cases h.calm.symm.trans pending
  · have first : m₀.context = m.context ∧ Beside p m m₀ ∧ m₀.runs.slot p = .released := by
      rcases Behaviour.release_ok released with ⟨-, slot, rfl⟩ | ⟨-, t, rfl⟩
      · exact ⟨rfl, .refl p _, (Store.get_eq_slot h.depth).symm.trans slot⟩
      · exact ⟨rfl, .set h.depth _, Store.slot_set_own h.depth _⟩
    obtain ⟨places', left, up⟩ := h.through below here rfl rfl rfl first.2.1 (first.1 ▸ .refl _) ticked
    rcases passage with ⟨terminal, rfl⟩ | ⟨rfl, rfl⟩
    · refine ⟨places', up (.reset h.depth) rfl ?_ id fun terminal _ => terminal⟩
      rintro rfl
      cases terminal
    · refine ⟨places', up (.refl p _) rfl (fun _ => ?_) id fun terminal _ => terminal⟩
      exact (left.frame p (p.not_covers_above 0)).trans first.2.2

/-- The overlay is over the child only, and no events go there. -/
theorem nests_localScope (here : sys.nodeAt p.site = some (.localScope child)) :
    sys.Nests limits p (.localScope (Store.cell p.site) b) := by
  refine ⟨fun {base places m status m'} h ran => ?_⟩
  rw [Behaviour.localScope_tick] at ran
  split at ran
  · next s m₁ ticked =>
    cases ran
    have first : Beside p m (Behaviour.opened (Store.cell p.site) m) :=
      ⟨rfl, rfl, rfl, rfl, Store.apart_reset h.depth, id⟩
    have room : sys.overlaysAbove (0 :: p.site) ≤ m.context.layers.overlays.length + 1 := by
      rw [overlaysAbove_child here]
      exact Nat.succ_le_succ h.overlays
    obtain ⟨ready, narrows⟩ := h.down here rfl first (fun j among _ => Nat.lt_one_iff.mp among) room
    obtain ⟨places', left⟩ := below.tick ready ticked
    have last : Beside p m₁ (Behaviour.closed (Store.cell p.site) m.context.depth status m₁) := by
      refine ⟨rfl, rfl, rfl, rfl, ?_, id⟩
      cases status with
      | running => exact Store.apart_set h.depth _
      | success | failure => exact fun _ _ => rfl
    refine ⟨places', left.up first narrows last here rfl Nat.one_pos ?_ ?_ id fun terminal _ => terminal⟩
    · refine ⟨left.level.depth, left.level.maxDepth, left.level.stack, ?_⟩
      show m₁.context.layers.overlays.tail.length = _
      rw [List.length_tail, left.level.overlays]
      rfl
    · rintro rfl
      exact ⟨_, Store.slot_set_own h.depth _⟩
  · cases ran

end

/-! ## One child after the other -/

/-- After a child has ended, nothing below is in a run. -/
theorem Leaves.settled (child : sys.Leaves limits base (p.inside i) m status m₁ []) (h : m.context.depth = p.depth)
    (guards : ∃ path, sys.Guards limits path m.context) (here : sys.nodeAt p.site = some node)
    (unmarked : node.isMarked = false) (narrows : sys.Narrows m.runs p (p.inside i))
    (overlays : sys.overlaysAbove p.site ≤ m.context.layers.overlays.length) (calm : m₁.context.returnRequest = none) :
    sys.Poised limits base p [] m₁ where
  depth := child.level.depth.trans h
  guards := guards.imp fun _ guards => guards.congr child.level.depth child.level.maxDepth child.level.stack
  overlays := child.level.overlays ▸ overlays
  calm := calm
  chain := .nil fun q covers runs => by
    rcases narrows.framed child.frame q covers runs with rfl | inside
    · exact not_inRun_unmarked here unmarked runs
    · exact child.chain.silent q inside runs
  told := child.told

section
variable (here : sys.nodeAt p.site = some node) (unmarked : node.isMarked = false) (flat : node.overlays = 0)
  (keeps : ∀ j, node.Runs (.child j) j)
include here unmarked flat keeps

/-- The children from some place on, the first of which may be in a run. -/
theorem nests_inOrderFrom {pass : Verdict} (rest : List (Behaviour (Store σ) μ σ)) :
    ∀ {i places m st m'}, (∀ j b, rest[j]? = some b → sys.Nests limits (p.inside (i + j)) b) →
      (rest ≠ [] → i + rest.length = node.children.length) → sys.Poised limits base (p.inside i) places m →
      sys.Narrows m.runs p (p.inside i) → (rest = [] → places = []) →
      sys.overlaysAbove p.site ≤ m.context.layers.overlays.length →
      Behaviour.inOrderFrom (Store.cell p.site) pass p.depth i rest m = .ok st m' →
      ∃ places', sys.Leaves limits base p m st m' places' := by
  induction rest with
  | nil =>
    intro i places m st m' _ _ ready narrows empty overlays ran
    obtain ⟨rfl, rfl⟩ := Behaviour.inOrderFrom_nil_ok ran
    obtain rfl := empty rfl
    have silent : ∀ q, p.Covers q → ¬ sys.InRun m.runs q := fun q covers runs => by
      rcases narrows q covers runs with rfl | inside
      · exact not_inRun_unmarked here unmarked runs
      · exact ready.chain.silent q inside runs
    have poised : sys.Poised limits base p [] m := ⟨ready.depth, ready.guards, overlays, ready.calm, .nil silent, ready.told⟩
    refine ⟨[], poised.leaf (.refl _) (Store.apart_reset rfl) (not_inRun_unmarked here unmarked) poised.told ?_⟩
    exact fun r pending => nomatch ready.calm.symm.trans pending
  | cons b rest ih =>
    intro i places m st m' below length ready narrows _ overlays ran
    have length := length (List.cons_ne_nil b rest)
    rw [List.length_cons] at length
    have among : i < node.children.length := by omega
    obtain ⟨s, m₁, ticked, passage⟩ := Behaviour.inOrderFrom_cons_ok ran
    obtain ⟨places', left⟩ := (below 0 b rfl).tick ready ticked
    rcases passage with ⟨ends, rfl, rfl⟩ | ⟨calm, rfl, rfl, rfl⟩ | ⟨calm, rfl, goesOn⟩
    · have terminal : st.isTerminal = true := by
        refine ends.elim (fun pending => ?_) id
        obtain ⟨r, pending⟩ := Option.isSome_iff_exists.mp pending
        exact (left.request r pending).2
      refine ⟨places', left.up (.refl p m) narrows (.reset rfl) here unmarked among left.level ?_ id
        fun terminal _ => terminal⟩
      rintro rfl
      cases terminal
    · refine ⟨places', left.up (.refl p m) narrows (.set rfl _) here unmarked among left.level ?_ id
        fun terminal _ => terminal⟩
      exact fun _ => (Store.slot_set_own rfl _).symm ▸ keeps i
    · -- nothing is in a run any more, and the next child starts afresh
      obtain rfl := left.ended (by cases pass <;> rfl)
      have settled := left.settled ready.depth ready.guards here unmarked narrows overlays calm
      have fresh := settled.below (.refl p m₁) (.nil fun q covers => settled.silent rfl q covers.of_inside)
        (settled.room here flat (i + 1))
      have next : ∀ j b, rest[j]? = some b → sys.Nests limits (p.inside (i + 1 + j)) b := fun j b hb => by
        have found := below (j + 1) b hb
        rwa [show i + (j + 1) = i + 1 + j by omega] at found
      obtain ⟨places', after⟩ := ih next (fun _ => by omega) fresh
        (fun q covers runs => absurd runs (settled.silent rfl q covers)) (fun _ => rfl) settled.overlays goesOn
      exact ⟨places', after.after left.level fun q outside => left.frame q fun covers => outside covers.of_inside⟩

/-- For sequences and selectors. -/
theorem nests_inOrder {pass : Verdict} (among : ∀ slot i, node.Runs slot i → slot = .child i)
    (length : children.length = node.children.length)
    (below : ∀ i b, children[i]? = some b → sys.Nests limits (p.inside i) b) :
    sys.Nests limits p (.inOrder (Store.cell p.site) pass children) := by
  refine ⟨fun {base places m status m'} h ran => ?_⟩
  have ran := Behaviour.inOrder_ok ran
  rw [Store.get_eq_slot h.depth] at ran
  generalize start : (m.runs.slot p).child?.getD 0 = i at ran
  have only : ∀ j < node.children.length, node.Runs (m.runs.slot p) j → j = i := fun j _ runs => by
    rw [← start, among _ j runs]
    rfl
  obtain ⟨ready, narrows⟩ := h.down here unmarked (.refl p m) only (h.room here flat i)
  refine nests_inOrderFrom here unmarked flat keeps (children.drop i) (fun j b hb => ?_) (fun more => ?_) ready narrows
    (fun none => ?_) h.overlays (h.depth ▸ ran)
  · exact below (i + j) b (by rwa [List.getElem?_drop] at hb)
  · rw [Ne, List.drop_eq_nil_iff] at more
    rw [List.length_drop, ← length]
    omega
  · rw [List.drop_eq_nil_iff] at none
    refine h.chain.eq_nil here unmarked fun j among runs => ?_
    obtain rfl := only j among runs
    omega

/-- The chosen child stays chosen while it is in a run. -/
theorem nests_selectOne {chooser : Chooser (Store σ) μ σ} (among : ∀ slot i, node.Runs slot i → slot = .child i)
    (length : children.length = node.children.length)
    (below : ∀ i b, children[i]? = some b → sys.Nests limits (p.inside i) b)
    (picks : ∀ m i m', chooser.pick children.length m = .ok i m' → m'.context = m.context ∧ m.runs.Apart p m'.runs)
    (completes : ∀ i m u m', chooser.complete i m = .ok u m' →
      m'.context = m.context ∧ ∀ q, m'.runs.slot q = m.runs.slot q) :
    sys.Nests limits p (.selectOne (Store.cell p.site) chooser children) := by
  refine ⟨fun {base places m status m'} h ran => ?_⟩
  obtain ⟨o, m₀, chosen, passage⟩ := Behaviour.selectOne_ok ran
  have choice := Behaviour.choose_ok chosen
  rw [Store.get_eq_slot h.depth] at choice
  have first : m₀.context = m.context ∧ m.runs.Apart p m₀.runs := by
    rcases choice with ⟨i, -, -, rfl⟩ | ⟨-, picked⟩
    · exact ⟨rfl, fun _ _ => rfl⟩
    · exact picks m o m₀ picked
  have only : ∀ j, node.Runs (m.runs.slot p) j → o = some j := fun j runs => by
    rw [among _ j runs] at choice
    rcases choice with ⟨i, same, rfl, -⟩ | ⟨no, -⟩
    · exact same.symm
    · cases no
  rcases passage with ⟨rfl, rfl, rfl⟩ | ⟨i, rfl, ticked⟩
  · obtain rfl := h.chain.eq_nil here unmarked fun j _ runs => nomatch only j runs
    refine ⟨[], h.leaf (first.1 ▸ .refl _) first.2 (not_inRun_unmarked here unmarked) ?_ fun r pending => ?_⟩
    · rw [Machine.unclosed, first.1]
      exact h.told
    · rw [first.1, h.calm] at pending
      cases pending
  · obtain ⟨c, m₁, found, ticked, passage⟩ := Behaviour.tickChosen_ok ticked
    have room := h.room here flat i
    rw [← first.1] at room
    obtain ⟨ready, narrows⟩ := h.down here unmarked (.of_context first.1 first.2)
      (fun j _ runs => (Option.some.inj (only j runs)).symm) room
    obtain ⟨places', left⟩ := (below i c found).tick ready ticked
    have inTable : i < node.children.length := length ▸ (List.getElem?_eq_some_iff.mp found).1
    have level : m.context.Level m₁.context := first.1 ▸ left.level
    rcases passage with ⟨rfl, rfl⟩ | ⟨terminal, completed⟩
    · refine ⟨places', left.up (.of_context first.1 first.2) narrows (.set h.depth _) here unmarked inTable level ?_ id
        fun terminal _ => terminal⟩
      exact fun _ => (Store.slot_set_own h.depth _).symm ▸ keeps i
    · obtain ⟨context, slots⟩ := completes _ _ _ _ completed
      have last : Beside p m₁ m' := .of_context context fun q other => (slots q).trans (Store.apart_reset h.depth q other)
      refine ⟨places', left.up (.of_context first.1 first.2) narrows last here unmarked inTable (context ▸ level) ?_ id
        fun terminal _ => terminal⟩
      rintro rfl
      cases terminal

end

/-! ## Scopes -/

theorem mark_scope {hooks : Hooks μ σ} {child : Node μ σ} (here : sys.nodeAt p.site = some (.scope hooks child)) :
    sys.mark p = ⟨.scope, UInt64.ofNat p.depth⟩ := by
  rw [mark, here]

theorem mark_call {source : Source μ} {makeState : Option (StateMaker μ σ)}
    (here : sys.nodeAt p.site = some (.call source makeState)) :
    sys.mark p = ⟨.subtree, UInt64.ofNat (p.depth + 1)⟩ := by
  rw [mark, here]

/-- The end of a run at a place where all below has ended. Nothing there is in a run any more. -/
theorem Leaves.closed {c : Place} (level : m.context.Level m'.context)
    (frame : ∀ q, ¬ p.Covers q → m₁.runs.slot q = m.runs.slot q) (narrows : sys.Narrows m₁.runs p c)
    (ended : sys.Chain limits m₁.runs c []) (runs : m'.runs = (Store.cell p.site).reset m₁.runs p.depth)
    (told : m'.unclosed = some (sys.stack base []))
    (request : ∀ r, m'.context.returnRequest = some r → r.isTerminal = true ∧ st.isTerminal = true) :
    sys.Leaves limits base p m st m' [] where
  level := level
  frame q outside := by
    rw [runs]
    exact (Store.apart_reset rfl q (Place.ne_of_not_covers outside)).trans (frame q outside)
  chain := by
    rw [runs]
    refine .nil fun q covers inRun => ?_
    by_cases same : q = p
    · exact not_inRun_idle (Store.slot_reset_own rfl) (same ▸ inRun)
    · have before := inRun.congr (Store.apart_reset rfl q same).symm
      exact ended.silent q ((narrows q covers before).resolve_left same) before
  told := told
  ended _ := rfl
  request := request

section
variable {hooks : Hooks μ σ} {child : Node μ σ} {host : Host (Store σ) μ σ}
  (here : sys.nodeAt p.site = some (.scope hooks child))
include here

/-- A scope has its bracket open when it ticks its child. -/
theorem Poised.opened (h : sys.Poised limits base p places m) (enters : ∀ m u m', sys.overlaysAbove p.site ≤
      m.context.layers.overlays.length → hooks.onEnter.run host m = .ok u m' → m.Waits m')
    (opened : Behaviour.openScope (Store.cell p.site) host hooks m.context.depth m = .ok () m₀) :
    ∃ rest, sys.Poised limits (sys.mark p :: base) (p.inside 0) rest m₀ ∧ sys.Narrows m₀.runs p (p.inside 0) ∧
      m₀.runs.slot p = .started ∧ m.context.Level m₀.context ∧ m.runs.Apart p m₀.runs := by
  have room := h.room here rfl 0
  simp only [Behaviour.openScope, Run.bind_eq_ok, Cell.read_eq_ok] at opened
  obtain ⟨slot, _, ⟨found, rfl⟩, opened⟩ := opened
  rw [Store.get_eq_slot h.depth] at found
  split at opened
  · simp only [Run.pure_eq_ok, true_and] at opened
    subst opened
    obtain ⟨rest, rfl, chain, narrows⟩ := h.chain.scope_started here found
    refine ⟨rest, ⟨h.depth, h.guards, room, h.calm, chain, ?_⟩, narrows, found, .refl _, fun _ _ => rfl⟩
    exact h.told.trans (congrArg some (sys.stack_cons base p rest))
  · next fresh =>
    have idle : ¬ sys.InRun m.runs p := by
      rintro (⟨_, _, -, started⟩ | ⟨_, _, _, _, there, -⟩)
      · exact fresh (found.symm.trans started)
      · cases here.symm.trans there
    obtain rfl := h.chain.eq_nil_of_idle here rfl idle
    simp only [Run.bind_eq_ok, Cell.keep_eq_ok] at opened
    obtain ⟨_, _, rfl, _, m₁, traced, entered⟩ := opened
    obtain ⟨idles, told⟩ := Run.trace_tells traced
    have waits := enters m₁ () m₀ (idles.level.overlays ▸ h.overlays) entered
    have runs : m₀.runs = (Store.cell p.site).set m.runs m.context.depth .started := waits.runs.trans idles.runs
    have apart : m.runs.Apart p m₀.runs := runs ▸ Store.apart_set h.depth _
    have level : m.context.Level m₀.context := idles.level.trans waits.level
    have silent : ∀ q, (p.inside 0).Covers q → ¬ sys.InRun m₀.runs q := fun q covers inRun => by
      have other := Place.ne_of_covers_inside covers
      exact h.chain.silent q covers.of_inside (inRun.congr (apart q other).symm)
    refine ⟨[], ⟨level.depth.trans h.depth, ?_, level.overlays ▸ room, waits.calm (idles.calm h.calm), .nil silent, ?_⟩,
      fun q covers inRun => ?_, ?_, level, apart⟩
    · exact h.guards.imp fun _ guards => guards.congr level.depth level.maxDepth level.stack
    · refine waits.told ((told h.told).trans ?_)
      rw [paren?_scopeEnter, h.depth, ← mark_scope here]
      rfl
    · by_cases same : q = p
      · exact .inl same
      · exact absurd (inRun.congr (apart q same).symm) (h.chain.silent q covers)
    · rw [runs]
      exact Store.slot_set_own h.depth _

end

/-- A request to return early ends here, and no child is abandoned, since it came up with an end. -/
theorem settleReturn_ended {d : Nat} {ticked : Status} (ends : ∀ r, m.context.returnRequest = some r →
      r.isTerminal = true ∧ ticked.isTerminal = true) (ran : Behaviour.settleReturn b d ticked m = .ok st m') :
    m'.context = m.cleared.context ∧ m'.runs = m.runs ∧ (st.isTerminal = true ↔ ticked.isTerminal = true) := by
  simp only [Behaviour.settleReturn, Run.bind_eq_ok, Run.takeReturn_eq_ok] at ran
  obtain ⟨r, _, ⟨pending, rfl⟩, ran⟩ := ran
  cases r with
  | none =>
    simp only [Run.pure_eq_ok] at ran
    obtain ⟨rfl, rfl⟩ := ran
    exact ⟨rfl, rfl, .rfl⟩
  | some requested =>
    obtain ⟨terminal, ended⟩ := ends requested pending
    have terminates : ticked.isRunning = false := by simpa [Status.isTerminal] using ended
    simp only [terminates, Bool.false_eq_true, if_false, Run.bind_eq_ok, Run.report_eq_ok, Run.pure_eq_ok] at ran
    obtain ⟨_, _, rfl, rfl, rfl⟩ := ran
    exact ⟨rfl, rfl, iff_of_true terminal ended⟩

section
variable {hooks : Hooks μ σ} {child : Node μ σ} (here : sys.nodeAt p.site = some (.scope hooks child))
include here

/-- The end of a run of a scope closes its bracket. -/
theorem Leaves.left_scope {rest : List Place}
    (ran : Behaviour.closeScope (Store.cell p.site) hooks p.depth st m₁ = .ok () m') (level : m.context.Level m₁.context)
    (calm : m₁.context.returnRequest = none) (frame : ∀ q, ¬ p.Covers q → m₁.runs.slot q = m.runs.slot q)
    (slot : m₁.runs.slot p = .started) (narrows : sys.Narrows m₁.runs p (p.inside 0))
    (below : sys.Chain limits m₁.runs (p.inside 0) rest)
    (told : m₁.unclosed = some (sys.stack (sys.mark p :: base) rest)) (ended : st.isTerminal = true → rest = []) :
    ∃ places', sys.Leaves limits base p m st m' places' := by
  simp only [Behaviour.closeScope, Run.bind_eq_ok, Run.ite_eq_ok, Cell.forget_eq_ok, Run.remember_eq_ok,
    Run.pure_eq_ok] at ran
  rcases ran with ⟨terminal, _, _, rfl, _, m₂, traced, rfl⟩ | ⟨running, -, rfl⟩
  · obtain rfl := ended terminal
    obtain ⟨idles, heard⟩ := Run.trace_tells traced
    refine ⟨[], .closed (level.trans idles.level) frame narrows below idles.runs ?_ fun r pending => ?_⟩
    · refine (heard told).trans ?_
      rw [paren?_scopeExit, ← mark_scope here]
      exact if_pos rfl
    · cases (idles.calm calm).symm.trans pending
  · refine ⟨p :: rest, level, frame, .scope here slot narrows below, ?_, fun terminal => absurd terminal running,
      fun r pending => ?_⟩
    · exact told.trans (congrArg some (sys.stack_cons base p rest).symm)
    · cases calm.symm.trans pending

theorem nests_scope {host : Host (Store σ) μ σ} (below : sys.Nests limits (p.inside 0) b)
    (enters : ∀ m u m', sys.overlaysAbove p.site ≤ m.context.layers.overlays.length →
      hooks.onEnter.run host m = .ok u m' → m.Waits m') :
    sys.Nests limits p (.scope (Store.cell p.site) host hooks b) := by
  refine ⟨fun {base places m status m'} h ran => ?_⟩
  obtain ⟨m₀, ticked, m₁, m₂, opened, ran, settled, closed⟩ := Behaviour.scope_ok ran
  obtain ⟨rest, ready, narrows, slot, level, apart⟩ := h.opened here enters opened
  obtain ⟨rest', left⟩ := below.tick ready ran
  obtain ⟨context, runs, ends⟩ := settleReturn_ended left.request settled
  rw [h.depth] at closed
  refine Leaves.left_scope here closed ?_ (by rw [context]; rfl) (fun q outside => ?_) ?_ ?_ (runs ▸ left.chain) ?_
    fun terminal => left.ended (ends.mp terminal)
  · rw [context]
    exact level.trans ⟨left.level.depth, left.level.maxDepth, left.level.stack, left.level.overlays⟩
  · have other := Place.ne_of_not_covers outside
    exact runs ▸ (left.frame q fun covers => outside covers.of_inside).trans (apart q other)
  · exact runs ▸ (left.frame p (p.not_covers_above 0)).trans slot
  · exact runs ▸ narrows.framed left.frame
  · rw [Machine.unclosed, context]
    exact left.told

end

/-! ## Calls -/

section
variable {source : Source μ} {makeState : Option (StateMaker μ σ)} {resolve : Run (Store σ) μ σ (Option TreeId)}
  {tree : TreeId} {own : Option σ} {fresh : Bool}

variable (sys limits) in
/-- A call has a new run of a tree before it, or one that goes on, with a chain there. -/
inductive CallRun (s : Store σ) (p : Place) (tree : TreeId) : (fresh : Bool) → List Place → Prop
  | fresh : CallRun s p tree true []
  | resumed {rest : List Place} : limits.Admits p.depth → sys.Chain limits s (p.callee tree) rest →
      sys.Narrows s p (p.callee tree) → CallRun s p tree false (p :: rest)

/-- Looking for a tree may ask callbacks, and tell that there is none. -/
theorem callTarget_context {cell : Cell (Store σ) σ} {o : Option (TreeId × Option σ × Bool)}
    (finds : ∀ m o m', resolve m = .ok o m' → ∃ x, m' = m.withMemory x)
    (ran : Behaviour.callTarget cell resolve makeState d m = .ok o m₀) : m₀.context = m.context := by
  simp only [Behaviour.callTarget, Run.bind_eq_ok, Cell.read_eq_ok] at ran
  obtain ⟨slot, _, ⟨-, rfl⟩, ran⟩ := ran
  split at ran
  · simp only [Run.pure_eq_ok] at ran
    rw [← ran.2]
  · simp only [Run.bind_eq_ok] at ran
    obtain ⟨r, m₁, found, ran⟩ := ran
    obtain ⟨x, rfl⟩ := finds m r m₁ found
    cases r with
    | none =>
      simp only [Run.bind_eq_ok, Run.report_eq_ok, Run.pure_eq_ok] at ran
      obtain ⟨_, _, rfl, -, rfl⟩ := ran
      rfl
    | some tree =>
      simp only [Run.bind_eq_ok, Cell.keep_eq_ok, Run.pure_eq_ok] at ran
      obtain ⟨own, _, made, _, _, rfl, -, rfl⟩ := ran
      obtain ⟨y, rfl⟩ := Behaviour.stateFor_ok made
      rfl

variable (here : sys.nodeAt p.site = some (.call source makeState))
include here

/-- The tree of a run in progress, or one that is kept for a new run. -/
theorem Poised.targets (h : sys.Poised limits base p places m) {o : Option (TreeId × Option σ × Bool)}
    (finds : ∀ m o m', resolve m = .ok o m' → ∃ x, m' = m.withMemory x)
    (ran : Behaviour.callTarget (Store.cell p.site) resolve makeState m.context.depth m = .ok o m₀) :
    m.runs.Apart p m₀.runs ∧
      (o = none ∧ places = [] ∧ ¬ sys.InRun m₀.runs p ∨
        ∃ tree own fresh, o = some (tree, own, fresh) ∧ m₀.runs.slot p = .call tree own ∧
          sys.CallRun limits m.runs p tree fresh places) := by
  have target := Behaviour.callTarget_ok ran
  simp only [Store.get_eq_slot h.depth] at target
  rcases target with ⟨tree, own, slot, rfl, rfl⟩ | ⟨none, target⟩
  · obtain ⟨rest, rfl, chain, narrows, admits⟩ := h.chain.call_resumed here slot
    exact ⟨fun _ _ => rfl, .inr ⟨tree, own, false, rfl, slot, .resumed admits chain narrows⟩⟩
  · have idle : ¬ sys.InRun m.runs p := by
      rintro (⟨_, _, there, -⟩ | ⟨_, _, tree, own, -, slot⟩)
      · cases here.symm.trans there
      · exact none tree own slot
    obtain rfl := h.chain.eq_nil_of_idle here rfl idle
    rcases target with ⟨m₁, found, rfl, alike⟩ | ⟨tree, own, m₁, x, found, rfl, rfl⟩
    · obtain ⟨x, rfl⟩ := finds m _ m₁ found
      have same : m₀.runs = m.runs := alike.runs
      exact ⟨fun _ _ => by rw [same], .inl ⟨rfl, rfl, same ▸ idle⟩⟩
    · obtain ⟨y, rfl⟩ := finds m _ m₁ found
      exact ⟨Store.apart_set h.depth _, .inr ⟨tree, own, true, rfl, Store.slot_set_own h.depth _, .fresh⟩⟩

/-- A bracket is opened at the start of a run of a called tree. -/
theorem announced {name : String} (ran : Behaviour.announceCall name fresh p.depth m = .ok () m₁) :
    m.Idles m₁ ∧ ∀ {stack}, m.unclosed = some stack →
      m₁.unclosed = some (if fresh = true then sys.mark p :: stack else stack) := by
  simp only [Behaviour.announceCall, Run.bind_eq_ok, Run.ite_eq_ok, Run.report_eq_ok, Run.pure_eq_ok] at ran
  rcases ran with ⟨rfl, _, _, rfl, traced⟩ | ⟨old, -, rfl⟩
  · obtain ⟨idles, heard⟩ := Run.trace_tells traced
    refine ⟨⟨idles.level, idles.request, idles.runs⟩, fun told => (heard told).trans ?_⟩
    rw [paren?_subtreeEnter, ← mark_call here]
    rfl
  · exact ⟨(Machine.Waits.refl m).toIdles, fun told => by rw [if_neg old]; exact told⟩

end

/-- A refusal is told, but under no bracket's tag. -/
theorem refuse_waits {o : Overflow} {u : Unit} (ran : Run.refuse o m = .ok u m') : m.Waits m' := by
  simp only [Run.refuse, Run.bind_eq_ok, Run.report_eq_ok, Run.onContext_eq_ok] at ran
  obtain ⟨_, _, rfl, _, m₁, traced, rfl⟩ := ran
  have waits := Run.trace_waits (fun e same => TraceEvent.paren?_eq_none (by rw [same]; decide)) traced
  have level := waits.level
  exact ⟨⟨⟨level.depth, level.maxDepth, level.stack, level.overlays⟩, waits.request, waits.runs⟩, waits.told⟩

/-- The called tree may be ticked, one call deeper. -/
theorem Poised.called {tree : TreeId} {c : Context σ} (h : sys.Poised limits base p places m)
    (admitted : m.context.enter (sys.nameOf tree) = .ok c) {rest : List Place}
    (below : sys.Chain limits m₀.runs (p.callee tree) rest) (level : c.Level m₀.context)
    (calm : m₀.context.returnRequest = none) (told : m₀.unclosed = some (sys.stack (sys.mark p :: base) rest)) :
    sys.Poised limits (sys.mark p :: base) (p.callee tree) rest m₀ where
  depth := level.depth.trans ((Context.enter_depth admitted).trans (congrArg (· + 1) h.depth))
  guards := by
    obtain ⟨path, guards⟩ := h.guards
    exact ⟨_, (guards.enter h.depth admitted).congr level.depth level.maxDepth level.stack⟩
  overlays := Nat.zero_le _
  calm := calm
  chain := below
  told := told

/-- Leaving a call undoes what entering it did. -/
theorem level_leave {c₀ c c' : Context σ} {name : String} (admitted : c₀.enter name = .ok c) (level : c.Level c') :
    c₀.Level c'.leave := by
  have left := Context.leave_enter admitted
  have overlays : c.layers = c₀.layers := congrArg (fun c => c.layers) left
  refine ⟨?_, ?_, ?_, level.overlays.trans (by rw [overlays])⟩
  · exact (congrArg (· - 1) level.depth).trans (congrArg (fun c => c.depth) left)
  · exact level.maxDepth.trans (congrArg (fun c => c.maxDepth) left)
  · exact (congrArg (Option.map (fun stack => stack.pop.2)) level.stack).trans (congrArg (fun c => c.stack) left)

section
variable {source : Source μ} {makeState : Option (StateMaker μ σ)} {callee : Callee (Store σ) μ σ} {tree : TreeId}
  {own : Option σ} {fresh : Bool} {c : Context σ} (here : sys.nodeAt p.site = some (.call source makeState))
include here

/-- The end of a run of a called tree closes the bracket of the call. -/
theorem Leaves.finished {name : String} {rest : List Place}
    (ran : Behaviour.finishCall (Store.cell p.site) name p.depth st m₁ = .ok () m') (level : m.context.Level m₁.context)
    (request : ∀ r, m₁.context.returnRequest = some r → r.isTerminal = true ∧ st.isTerminal = true)
    (frame : ∀ q, ¬ p.Covers q → m₁.runs.slot q = m.runs.slot q) (slot : m₁.runs.slot p = .call tree own)
    (admits : limits.Admits p.depth) (narrows : sys.Narrows m₁.runs p (p.callee tree))
    (below : sys.Chain limits m₁.runs (p.callee tree) rest)
    (told : m₁.unclosed = some (sys.stack (sys.mark p :: base) rest)) (ended : st.isTerminal = true → rest = []) :
    ∃ places', sys.Leaves limits base p m st m' places' := by
  simp only [Behaviour.finishCall, Run.bind_eq_ok, Run.ite_eq_ok, Run.report_eq_ok, Cell.forget_eq_ok,
    Run.pure_eq_ok] at ran
  rcases ran with ⟨terminal, _, _, rfl, _, m₂, traced, rfl⟩ | ⟨running, -, rfl⟩
  · obtain rfl := ended terminal
    obtain ⟨idles, heard⟩ := Run.trace_tells traced
    have level : m.context.Level m₂.context :=
      level.trans ⟨idles.level.depth, idles.level.maxDepth, idles.level.stack, idles.level.overlays⟩
    have runs := congrArg ((Store.cell p.site).reset · p.depth) idles.runs
    refine ⟨[], .closed level frame narrows below runs ?_ fun r pending => request r (idles.request r pending)⟩
    refine (heard told).trans ?_
    rw [paren?_subtreeExit, ← mark_call here]
    exact if_pos rfl
  · exact ⟨p :: rest, level, frame, .call here slot admits narrows below,
      told.trans (congrArg some (sys.stack_cons base p rest).symm), fun terminal => absurd terminal running, request⟩

/-- The bracket of the call is open when its tree is ticked. -/
theorem Poised.entered (h : sys.Poised limits base p places m) (apart : m.runs.Apart p m₀.runs)
    (target : sys.CallRun limits m.runs p tree fresh places) (admitted : m.context.enter (sys.nameOf tree) = .ok c)
    {name : String} (announcing : Behaviour.announceCall name fresh p.depth { m₀ with context := c } = .ok () m₁) :
    ∃ rest, sys.Narrows m.runs p (p.callee tree) ∧ c.Level m₁.context ∧ m₁.runs = m₀.runs ∧ ∀ state,
      sys.Poised limits (sys.mark p :: base) (p.callee tree) rest { m₁ with context := { m₁.context with state } } := by
  obtain ⟨idles, heard⟩ := announced here announcing
  have left := Context.leave_enter admitted
  have layers : c.layers = m.context.layers := congrArg (fun c => c.layers) left
  have request : c.returnRequest = m.context.returnRequest := congrArg (fun c => c.returnRequest) left
  have told : Machine.unclosed { m₀ with context := c } = some (sys.stack base places) := by
    rw [Machine.unclosed, layers]
    exact h.told
  obtain ⟨rest, chain, narrows, told⟩ : ∃ rest, sys.Chain limits m.runs (p.callee tree) rest ∧
      sys.Narrows m.runs p (p.callee tree) ∧ m₁.unclosed = some (sys.stack (sys.mark p :: base) rest) := by
    have heard := heard told
    cases target with
    | fresh =>
      refine ⟨[], .nil fun q covers => h.chain.silent q covers.of_callee, fun q covers runs => ?_, heard⟩
      exact absurd runs (h.chain.silent q covers)
    | resumed _ chain narrows => exact ⟨_, chain, narrows, heard.trans (congrArg some (sys.stack_cons base p _))⟩
  have below : sys.Chain limits m₁.runs (p.callee tree) rest := by
    rw [idles.runs]
    exact chain.congr fun q covers => apart q (Place.ne_of_covers_callee covers)
  have calm := idles.calm (request.trans h.calm)
  refine ⟨rest, narrows, idles.level, idles.runs, fun state => h.called admitted below ?_ calm told⟩
  exact ⟨idles.level.depth, idles.level.maxDepth, idles.level.stack, idles.level.overlays⟩

/-- The tick of a tree that is entered. -/
theorem Poised.ran (h : sys.Poised limits base p places m) (below : sys.Nests limits (p.callee tree) callee.root)
    (apart : m.runs.Apart p m₀.runs) (slot : m₀.runs.slot p = .call tree own)
    (target : sys.CallRun limits m.runs p tree fresh places) (admitted : m.context.enter (sys.nameOf tree) = .ok c)
    (ran : Behaviour.runCallee (Store.cell p.site) callee makeState.isSome fresh own m.context.depth
      { m₀ with context := c } = .ok st m') : ∃ places', sys.Leaves limits base p m st m' places' := by
  rw [h.depth] at ran
  obtain ⟨m₁, s, n, s', announcing, ticked, finished⟩ := Behaviour.runCallee_steps ran
  obtain ⟨rest, narrows, level, runs, ready⟩ := h.entered here apart target admitted announcing
  obtain ⟨rest', left⟩ := below.tick (ready s) ticked
  have level : c.Level { n.context with state := s' } :=
    level.trans ⟨left.level.depth, left.level.maxDepth, left.level.stack, left.level.overlays⟩
  have frame : ∀ q, ¬ (p.callee tree).Covers q → n.runs.slot q = m₀.runs.slot q := fun q outside =>
    (left.frame q outside).trans (by rw [runs])
  have admits : limits.Admits p.depth := by
    obtain ⟨path, guards⟩ := h.guards
    exact h.depth ▸ guards.admits admitted
  refine Leaves.finished here finished (level_leave admitted level) left.request (fun q outside => ?_)
    ((frame p (p.not_covers_caller tree)).trans slot) admits ((narrows.of_apart apart).framed frame) left.chain left.told
    left.ended
  have other := Place.ne_of_not_covers outside
  exact (frame q fun covers => outside covers.of_callee).trans (apart q other)

/-- A new run may be refused, but not one that goes on: it was admitted when it began. -/
theorem nests_call {resolve : Run (Store σ) μ σ (Option TreeId)} {callee : TreeId → Callee (Store σ) μ σ}
    (finds : ∀ m o m', resolve m = .ok o m' → ∃ x, m' = m.withMemory x)
    (names : ∀ tree, (callee tree).name = sys.nameOf tree)
    (below : ∀ tree, sys.Nests limits (p.callee tree) (callee tree).root) :
    sys.Nests limits p (.call (Store.cell p.site) resolve makeState callee) := by
  refine ⟨fun {base places m status m'} h ran => ?_⟩
  obtain ⟨o, m₀, found, passage⟩ := Behaviour.call_steps ran
  have context := callTarget_context finds found
  obtain ⟨apart, target⟩ := h.targets here finds found
  rcases passage with ⟨rfl, rfl, rfl⟩ | ⟨tree, own, fresh, rfl, passage⟩
  · obtain ⟨-, rfl, idle⟩ | ⟨_, _, _, no, -⟩ := target
    · refine ⟨[], h.leaf (context ▸ .refl _) apart idle ?_ fun r pending => ?_⟩
      · rw [Machine.unclosed, context]
        exact h.told
      · rw [context, h.calm] at pending
        cases pending
    · cases no
  · obtain ⟨no, -⟩ | ⟨_, _, _, same, slot, target⟩ := target
    · cases no
    cases same
    rw [names, context] at passage
    rcases passage with ⟨o, m₁, refused, told, rfl, rfl⟩ | ⟨c, admitted, ran⟩
    · rcases target with _ | ⟨admits, -, -⟩
      · have waits := refuse_waits told
        have slots : m.runs.Apart p ((Store.cell p.site).reset m₁.runs m.context.depth) := fun q other => by
          rw [waits.runs]
          exact (Store.apart_reset h.depth q other).trans (apart q other)
        have idle : ¬ sys.InRun ((Store.cell p.site).reset m₁.runs m.context.depth) p :=
          not_inRun_idle (Store.slot_reset_own h.depth)
        refine ⟨[], h.leaf (context ▸ waits.level) slots idle ?_ fun r pending => ?_⟩
        · refine waits.told ?_
          rw [Machine.unclosed, context]
          exact h.told
        · cases (waits.calm (context ▸ h.calm)).symm.trans pending
      · obtain ⟨path, guards⟩ := h.guards
        have refusal := (guards.refused _ _).mp refused
        rw [h.depth, Limits.refusal?_eq_none.mpr admits] at refusal
        cases refusal
    · exact h.ran here (below tree) apart slot target admitted ran

end

end System

end BehaviorTree
