/-
  BehaviorTree.Proofs.Overlay.Outward: what is written under overlays and reaches beyond them.

  Seen from outside, what nodes do to the board under some overlays is a list of changes to the
  layers around these: changes of a layer that a callback names, values set globally, and events,
  which go to the root. Plain writes are not among them, nor is anything else that ends in one of
  the overlays.
-/

import BehaviorTree.Proofs.Course.Behaviours
import BehaviorTree.Proofs.History
import BehaviorTree.Proofs.Place

namespace BehaviorTree

variable {ρ μ σ α : Type}

/-- A change of the layers around some overlays. -/
inductive Outward where
  | edit (reach : Reach) (e : Edit)
  | setGlobal (t : ValueType) (id : UInt64) (x : t.Carrier)
  | event (e : TraceEvent)

/-- The layers after the change. -/
def Outward.on (l : Layers) : Outward → Layers
  | edit reach e => e.applyAt reach l
  | setGlobal t id x => l.setGlobal t id x
  | event e => { l with root := (l.root.emit e).1 }

/-! ## Who makes them -/

/-- The callback may make this change, if it runs under an overlay: to the root, or to a layer that is fewer steps
away from around the overlay than from the callback. -/
def Callback.Reaches (w : Outward) : Callback μ σ α → Prop
  | done _ => False
  | look next => ∃ context memory, (next context memory).Reaches w
  | edit .root e next => w = .edit .root e ∨ next.Reaches w
  | edit (.layer steps) e next => (∃ outer < steps, w = .edit (.layer outer) e) ∨ next.Reaches w
  | setGlobal t id x next => w = .setGlobal t id x ∨ next.Reaches w
  | trace tag a b next => (∃ tick, w = .event { tick, tag, a, b }) ∨ next.Reaches w
  | remember _ next | requestReturn _ next | resetTree _ _ next => next.Reaches w
  | takeReturn next => ∃ request, (next request).Reaches w
  | takeOverflow next => ∃ overflow, (next overflow).Reaches w
  | tickTree _ _ next => ∃ status, (next status).Reaches w

/-- The node may make this change: its callback, or an event of its own. -/
def Node.Reaches (w : Outward) (node : Node μ σ) : Prop :=
  (∃ e, w = .event e ∧ e.tag ∈ node.tags) ∨ match node with
    | .action body | .custom body _ => body.Reaches w
    | .scope hooks _ => hooks.onEnter.Reaches w
    | _ => False

/-- A node that was entered meanwhile may make this change. -/
def System.Made (sys : System μ σ) (xs : List (Moment μ σ)) (w : Outward) : Prop :=
  ∃ site scene node, .entered site scene ∈ xs ∧ sys.nodeAt site = some node ∧ node.Reaches w

/-! ## Layers around overlays -/

namespace Layers

/-- The layers around the innermost `n`. -/
def outside (n : Nat) (l : Layers) : Layers := { l with overlays := l.overlays.drop n }

variable {n k : Nat} {l : Layers}

/-- A change inside is none. -/
theorem outside_onLayer_lt (f : Board → Board) (inside : k < n) (there : n ≤ l.overlays.length) :
    (l.onLayer k f).outside n = l.outside n := by
  rw [onLayer_near (Nat.lt_of_lt_of_le inside there)]
  simp only [outside, List.drop_modify_of_lt f _ _ _ inside]

/-- A change further out is as many steps away less. -/
theorem outside_onLayer_ge (f : Board → Board) (around : n ≤ k) (there : n ≤ l.overlays.length) :
    (l.onLayer k f).outside n = (l.outside n).onLayer (k - n) f := by
  have length : (l.outside n).overlays.length = l.overlays.length - n := List.length_drop
  by_cases outer : k < l.overlays.length
  · rw [onLayer_near outer, onLayer_near (by omega)]
    simp only [outside, List.drop_modify_of_ge f _ _ _ around]
  · rw [onLayer_far outer, onLayer_far (by omega)]
    rfl

theorem outside_setGlobal (t : ValueType) (id : UInt64) (x : t.Carrier) :
    (l.setGlobal t id x).outside n = (l.outside n).setGlobal t id x := by
  simp only [outside, setGlobal, List.map_drop]

theorem outside_pop : { l with overlays := l.overlays.tail }.outside n = l.outside (n + 1) := by
  simp only [outside, List.drop_tail]

end Layers

/-! ## Runs that keep to such changes -/

/-- Around all overlays the layers are as such changes leave them, each of which is permitted. -/
def Layers.Changed (may : Outward → Prop) (l l' : Layers) : Prop :=
  ∀ n, 0 < n → n ≤ l.overlays.length → ∃ ws : List Outward, (∀ w ∈ ws, may w) ∧
    l'.outside n = ws.foldl Outward.on (l.outside n)

namespace Layers.Changed

variable {may may' : Outward → Prop} {l l' l'' : Layers}

theorem refl (l : Layers) : l.Changed may l := fun _ _ _ => ⟨[], nofun, rfl⟩

theorem mono (h : l.Changed may l') (weaker : ∀ w, may w → may' w) : l.Changed may' l' := by
  intro n here there
  obtain ⟨ws, made, after⟩ := h n here there
  exact ⟨ws, fun w hw => weaker w (made w hw), after⟩

theorem trans (h : l.Changed may l') (k : l'.Changed may l'') (length : l'.overlays.length = l.overlays.length) :
    l.Changed may l'' := by
  intro n here there
  obtain ⟨ws, made, after⟩ := h n here there
  obtain ⟨ws', made', after'⟩ := k n here (length ▸ there)
  refine ⟨ws ++ ws', List.forall_mem_append.mpr ⟨made, made'⟩, ?_⟩
  rw [List.foldl_append, ← after, after']

/-- One change. -/
theorem single {w : Outward} (here : may w) (after : ∀ n, l'.outside n = w.on (l.outside n)) : l.Changed may l' :=
  fun n _ _ => ⟨[w], List.forall_mem_singleton.mpr here, after n⟩

/-- A layer is changed that the callback names. -/
theorem edit {steps : Nat} (e : Edit) (here : ∀ outer < steps, may (.edit (.layer outer) e)) :
    l.Changed may (e.applyAt (.layer steps) l) := by
  intro n pos there
  show ∃ ws : List Outward, _ ∧ (l.onLayer steps e.apply).outside n = _
  by_cases inside : steps < n
  · exact ⟨[], nofun, outside_onLayer_lt e.apply inside there⟩
  · refine ⟨[.edit (.layer (steps - n)) e], List.forall_mem_singleton.mpr (here _ (by omega)), ?_⟩
    exact outside_onLayer_ge e.apply (Nat.not_lt.mp inside) there

/-- Something is done over one more overlay, which is taken off again. -/
theorem overlaid {b : Board} (h : (l.push b).Changed may l') :
    l.Changed may { l' with overlays := l'.overlays.tail } := by
  intro n _ there
  obtain ⟨ws, made, after⟩ := h (n + 1) (Nat.succ_pos n) (Nat.succ_le_succ there)
  exact ⟨ws, made, outside_pop.trans after⟩

end Layers.Changed

end BehaviorTree
