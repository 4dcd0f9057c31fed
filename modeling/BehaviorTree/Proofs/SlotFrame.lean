/-
  BehaviorTree.Proofs.SlotFrame: which slots a tick or a reset of a node can change.

  A node at work at one call depth changes slots at this depth only in its own subtree. Deeper
  ones it changes only through calls: where a call in its subtree leads, to a tree that the call
  names or that it was running. What an outer run of the same node remembers, at a smaller
  depth, stays as it is, whatever trees are shared and however they call one another
  (`slots_framed`). That holds also where a fault breaks the work off.
-/

import BehaviorTree.Proofs.Conduct.Trees
import BehaviorTree.Proofs.Copies
import BehaviorTree.Proofs.CleanExit
import BehaviorTree.Proofs.ResetComplete

namespace BehaviorTree

variable {ρ μ σ α : Type}

namespace System

variable (sys : System μ σ)

/-- Callbacks tick and reset no trees. -/
def Aloof : Prop := ∀ site node, sys.nodeAt site = some node → node.CallsBack fun _ => False

/-! ## Where the work at a place can lead -/

/-- The call at a place runs this tree, or may run it: it names the tree, or its slot does. -/
def MayRun (s : Store σ) (p : Place) (tree : TreeId) : Prop :=
  ∃ source makeState, sys.nodeAt p.site = some (.call source makeState) ∧
    (source.Names tree ∨ ∃ state, s.slot p = .call tree state)

/-- The places that work at a place can go on to. -/
inductive GoesTo (s : Store σ) (p : Place) : Place → Prop
  | inside {node : Node μ σ} {i : Nat} : sys.nodeAt p.site = some node → i < node.children.length →
      GoesTo s p (p.inside i)
  | called {tree : TreeId} : sys.MayRun s p tree → GoesTo s p (p.callee tree)

/-- The places that work at a place can reach. -/
def Reaches (s : Store σ) : Place → Place → Prop := Relation.ReflTransGen (sys.GoesTo s)

variable {sys} {s t : Store σ} {p q : Place}

theorem GoesTo.mono (fewer : ∀ c tree, sys.MayRun s c tree → sys.MayRun t c tree) (h : sys.GoesTo s p q) :
    sys.GoesTo t p q := by
  cases h with
  | inside here among => exact .inside here among
  | called calls => exact .called (fewer _ _ calls)

theorem Reaches.mono (fewer : ∀ c tree, sys.MayRun s c tree → sys.MayRun t c tree) (h : sys.Reaches s p q) :
    sys.Reaches t p q := Relation.ReflTransGen.mono (fun _ _ => GoesTo.mono fewer) _ _ h

/-- The subtree of a node is reached at its own depth, anything else only through a call in the subtree. -/
theorem Reaches.through (h : sys.Reaches s p q) : (q.depth = p.depth ∧ p.site <:+ q.site) ∨
    p.depth < q.depth ∧ ∃ c tree, c.depth = p.depth ∧ p.site <:+ c.site ∧ sys.MayRun s c tree ∧
      sys.Reaches s (c.callee tree) q := by
  induction h with
  | refl => exact .inl ⟨rfl, List.suffix_rfl⟩
  | tail _ leads ih =>
    rcases ih with ⟨depth, suffix⟩ | ⟨deeper, c, tree, depth, suffix, calls, reaches⟩
    · cases leads with
      | inside => exact .inl ⟨depth, suffix.trans (List.suffix_cons _ _)⟩
      | called calls => exact .inr ⟨by simp [depth], _, _, depth, suffix, calls, .refl⟩
    · refine .inr ⟨?_, c, tree, depth, suffix, calls, reaches.tail leads⟩
      cases leads with
      | inside => exact deeper
      | called => exact Nat.lt_succ_of_lt deeper

/-! ## Work keeps to the places that it can reach -/

/-- Slots that cannot be reached from the place are as they were, and no call may run another tree than it
might have before. -/
structure Within (p : Place) (s t : Store σ) : Prop where
  slots : ∀ q, ¬ sys.Reaches s p q → t.slot q = s.slot q
  fewer : ∀ c tree, sys.MayRun t c tree → sys.MayRun s c tree

namespace Within

theorem refl (p : Place) (s : Store σ) : sys.Within p s s := ⟨fun _ _ => rfl, fun _ _ => id⟩

theorem trans {u : Store σ} (h : sys.Within p s t) (k : sys.Within p t u) : sys.Within p s u where
  slots q hq := (k.slots q fun reaches => hq (reaches.mono h.fewer)).trans (h.slots q hq)
  fewer c tree calls := h.fewer c tree (k.fewer c tree calls)

theorem of_slots (h : ∀ q, t.slot q = s.slot q) : sys.Within p s t where
  slots q _ := h q
  fewer c tree calls := by
    obtain ⟨source, makeState, here, runs⟩ := calls
    exact ⟨source, makeState, here, by rwa [h] at runs⟩

/-- The own slot may be written, with no call of another tree. -/
theorem own (elsewhere : ∀ q, p ≠ q → t.slot q = s.slot q)
    (calls : ∀ tree, sys.MayRun t p tree → sys.MayRun s p tree) : sys.Within p s t where
  slots q hq := elsewhere q fun same => hq (same ▸ .refl)
  fewer c tree here := by
    by_cases same : p = c
    · exact same ▸ calls tree (same ▸ here)
    · obtain ⟨source, makeState, at_c, runs⟩ := here
      exact ⟨source, makeState, at_c, by rwa [elsewhere c same] at runs⟩

theorem down (h : sys.Within q s t) (leads : sys.GoesTo s p q) : sys.Within p s t where
  slots r hr := h.slots r fun reaches => hr (.head leads reaches)
  fewer := h.fewer

end Within

theorem within_set (p : Place) (s : Store σ) (slot : Slot σ)
    (names : ∀ tree, slot.callee? = some tree → sys.MayRun s p tree) :
    sys.Within p s ((Store.cell p.site).set s p.depth slot) := by
  refine .own (fun q hq => ?_) fun tree calls => ?_
  · rw [Store.slot_set, if_neg hq]
  · obtain ⟨source, makeState, here, named | ⟨state, runs⟩⟩ := calls
    · exact ⟨source, makeState, here, .inl named⟩
    · rw [Store.slot_set, if_pos rfl] at runs
      exact names tree (runs ▸ rfl)

theorem within_reset (p : Place) (s : Store σ) : sys.Within p s ((Store.cell p.site).reset s p.depth) := by
  refine .own (fun q hq => ?_) fun tree calls => ?_
  · rw [Store.slot_reset, if_neg hq]
  · obtain ⟨source, makeState, here, named | ⟨state, runs⟩⟩ := calls
    · exact ⟨source, makeState, here, .inl named⟩
    · rw [Store.slot_reset, if_pos rfl] at runs
      cases runs

variable (sys) in
/-- Work changes only the slots that it can reach. -/
def framing (stage : Stage ρ μ σ) : Conduct sys stage where
  does _ p g h := sys.Within p (stage.store g.1) (stage.store h.1)
  passing := .depths
  spares _ _ := True
  refl p g := .refl p _
  trans h k := h.trans k
  broken h := h
  spared p r _ := .refl p _
  aside p r x slots := .of_slots fun q => by rw [stage.store_onStore, slots]
  inside here among h := h.down (.inside here among)
  callee here slot h := h.down (.called ⟨_, _, here, .inr ⟨_, slot⟩⟩)
  givenUp {ended p source makeState tree state r x h} here slot k := by
    have given : sys.Within p (stage.store r) (stage.store ((stage.cell p.site).reset r p.depth)) := by
      show sys.Within p _ (stage.store (stage.onStore _ r))
      rw [stage.store_onStore]
      exact within_reset p _
    have leads : sys.GoesTo (stage.store r) p (p.callee tree) := .called ⟨_, _, here, .inr ⟨_, slot⟩⟩
    refine ⟨fun q hq => ?_, fun c t calls => given.fewer c t (k.fewer c t calls)⟩
    refine (k.slots q fun reaches => hq (.head leads (reaches.mono given.fewer))).trans (given.slots q hq)
  lookedUp {p source makeState tree} r x state here names := by
    show sys.Within p _ (stage.store (stage.onStore _ r))
    rw [stage.store_onStore]
    refine within_set p _ _ fun t same => ?_
    cases same
    exact ⟨source, makeState, here, .inl names⟩

variable {stage : Stage ρ μ σ}

theorem framing_owns (p : Place) : (sys.framing stage).Owns p where
  set r x slot none := by
    show sys.Within p _ (stage.store (stage.onStore _ r))
    rw [stage.store_onStore]
    exact within_set p _ _ fun tree same => by cases none.symm.trans same
  reset r x := by
    show sys.Within p _ (stage.store (stage.onStore _ r))
    rw [stage.store_onStore]
    exact within_reset p _

/-- A callback that ticks and resets no trees touches no slots. -/
theorem framing_callback {host : Host ρ μ σ} {body : Callback μ σ α} (only : body.Only fun _ => False) :
    (sys.framing stage).Heeds True p (body.run host) := by
  induction body with
  | done x => exact .pure x
  | look next ih => exact fun m => ih m.context m.memory (only _ _) m
  | remember f next ih => exact (Conduct.Heeds.remember fun _ => trivial).bind fun _ => ih only
  | edit reach e next ih | setGlobal t id x next ih =>
    exact .bind (.onContext fun _ => rfl) fun _ => ih only
  | requestReturn s next ih => exact Conduct.Heeds.requestReturn.bind fun _ => ih only
  | takeReturn next ih => exact Conduct.Heeds.takeReturn.bind fun _ => ih _ (only _)
  | takeOverflow next ih => exact .bind (fun _ _ => .ok (.refl _ _) rfl) fun _ => ih _ (only _)
  | trace tag x y next ih => exact Conduct.Heeds.trace.bind fun _ => ih only
  | tickTree => exact only.1.elim
  | resetTree => exact only.1.elim

theorem framing_upheld (aloof : sys.Aloof) (watch : ∀ site b, stage.watch site b = b) :
    (sys.framing stage).Upheld := by
  refine .plain (fun {p node} here => ?_) framing_owns watch fun {p hooks child} here => ?_
  · have only := aloof _ _ here
    cases node with
    | action => exact fun host => framing_callback only
    | custom => exact ⟨fun host => framing_callback only, fun _ _ _ => trivial⟩
    | condition | waitUntil | guard => exact fun _ _ => trivial
    | selectOne policy => cases policy with
      | picker => trivial
      | custom => exact ⟨fun _ _ => trivial, fun _ _ => trivial⟩
    | call => exact ⟨fun _ _ _ => trivial, fun _ _ _ _ => trivial⟩
    | _ => trivial
  · have only : hooks.onEnter.Only fun _ => False := aloof _ _ here
    exact ⟨fun host => framing_callback only, fun _ _ => trivial⟩

/-! ## Ticks and resets of every node -/

/-- Work at a place: slots at smaller depths are as they were, those at its own depth outside of its subtree
too, and a deeper slot is another one only where a call in the subtree leads to it. -/
structure Framed (sys : System μ σ) (p : Place) (s t : Store σ) : Prop where
  shallower : ∀ q, q.depth < p.depth → t.slot q = s.slot q
  beside : ∀ q, q.depth = p.depth → ¬ p.site <:+ q.site → t.slot q = s.slot q
  deeper : ∀ q, p.depth < q.depth → t.slot q ≠ s.slot q → ∃ c tree, c.depth = p.depth ∧ p.site <:+ c.site ∧
    sys.MayRun s c tree ∧ sys.Reaches s (c.callee tree) q

theorem Within.framed (h : sys.Within p s t) : sys.Framed p s t where
  shallower q hq := h.slots q fun reaches => by
    rcases reaches.through with ⟨depth, -⟩ | ⟨deeper, -⟩ <;> omega
  beside q depth outside := h.slots q fun reaches => by
    rcases reaches.through with ⟨-, suffix⟩ | ⟨deeper, -⟩
    · exact outside suffix
    · omega
  deeper q hq changed := by
    have reaches : sys.Reaches s p q := Classical.byContradiction fun far => changed (h.slots q far)
    rcases reaches.through with ⟨depth, -⟩ | ⟨-, through⟩
    · omega
    · exact through

/-- The ticks and resets of a behaviour of the node at an address keep to this frame, also those that a fault
breaks off. -/
def Frames (sys : System μ σ) (site : Address) (b : Behaviour (Store σ) μ σ) : Prop :=
  ∀ m, sys.Framed ⟨site, m.context.depth⟩ m.runs (b.tick.last m).runs ∧
    ∀ d fire, sys.Framed ⟨site, d⟩ m.runs ((b.reset d fire).last m).runs

theorem frames_of_fares {site : Address} {b : Behaviour (Store σ) μ σ}
    (fares : ∀ d, (sys.framing .plain).Fares ⟨site, d⟩ b) : sys.Frames site b := by
  have last : ∀ {α : Type} {p : Place} {a : Run (Store σ) μ σ α} {m : Machine (Store σ) μ σ},
      (sys.framing .plain).Comes p m (a m) → sys.Framed p m.runs (a.last m).runs := by
    intro α p a m came
    unfold Run.last
    generalize a m = r at came
    cases came with
    | ok does => exact Within.framed does
    | error does => exact Within.framed does
  refine fun m => ⟨last ((fares m.context.depth).tick m fun _ => rfl), fun d fire => ?_⟩
  exact last ((fares d).reset fire m False.elim)

end System

/-- Every node keeps to its frame, wherever it is met in a tick or in a reset of any tree. -/
theorem slots_framed (sys : System μ σ) (aloof : sys.Aloof) (site : Address) (node : Node μ σ)
    (here : sys.nodeAt site = some node) (levels : Nat) :
    (∀ host, sys.Frames site (node.behaviour (sys.tickLinks .plain host (sys.tickRoot .plain host levels)) site)) ∧
      sys.Frames site (node.behaviour (sys.resetLinks .plain (sys.resetRoot .plain levels)) site) := by
  have upheld : (sys.framing .plain).Upheld := System.framing_upheld aloof fun _ _ => rfl
  exact ⟨fun host => System.frames_of_fares (upheld.inTick host levels here),
    System.frames_of_fares (upheld.inReset levels here)⟩

/-! ## A tree that calls itself -/

theorem nested_aloof : nested.Aloof := by
  intro site node h
  rcases nested_nodes site node h with ⟨-, rfl⟩ | ⟨-, rfl⟩ | ⟨-, rfl⟩ | ⟨-, rfl⟩ <;> trivial

/-- The parallel node of the tree, with two more calls below it. -/
def nestedParallel : Behaviour (Store Unit) (List Status) Unit :=
  Node.behaviour (nested.tickLinks .plain (nested.host .plain) (nested.tickRoot .plain (nested.host .plain) 2)) [0, 0]
    (.parallel .one [.pause, .call (.fixed (.strong 0)) none])

/-- A tick of the tree, and one of its parallel node at depth 1; what the pause there remembers in between and
at the end. -/
def innerRun : Run (Store Unit) (List Status) Unit (Bool × Bool) := do
  let _ ← nested.tick .plain 0 0 none
  Run.onContext fun c => { c with depth := 1 }
  let before ← get
  let _ ← nestedParallel.tick
  let after ← get
  return ((before.runs.slot ⟨[0, 0, 0], 1⟩).used, (after.runs.slot ⟨[0, 0, 0], 1⟩).used)

/-- The inner run ends and the pause forgets; the outer run of the same node remembers what it did. -/
theorem nested_outer_kept : ∃ m m' st, m.context.depth = 1 ∧ nestedParallel.tick m = .ok st m' ∧
    (m.runs.slot ⟨[0, 0, 0], 1⟩).used = true ∧ (m'.runs.slot ⟨[0, 0, 0], 1⟩).used = false ∧
    m'.runs.slot ⟨[0, 0], 0⟩ = m.runs.slot ⟨[0, 0], 0⟩ := by
  obtain ⟨_, ran⟩ := Run.ok_of_answer (a := innerRun) (m := nestedStart) (x := (true, false)) (by decide +kernel)
  simp only [innerRun, Run.bind_eq_ok, Run.onContext_eq_ok, Run.get_eq_ok, Run.pure_eq_ok, Prod.mk.injEq] at ran
  obtain ⟨_, m₀, -, _, m, rfl, _, _, ⟨rfl, rfl⟩, st, m', ticked, _, _, ⟨rfl, rfl⟩, ⟨before, after⟩, rfl⟩ := ran
  have framed : nested.Frames [0, 0] nestedParallel := (slots_framed nested nested_aloof [0, 0] _ rfl 2).1 _
  have kept := (framed { m₀ with context := { m₀.context with depth := 1 } }).1.shallower ⟨[0, 0], 0⟩ Nat.zero_lt_one
  rw [Run.last_ok ticked] at kept
  exact ⟨_, m', st, rfl, ticked, before, after, kept⟩

end BehaviorTree
