/-
  BehaviorTree.Proofs.Overlay.Views: what the layers of a board show, and what is written through them.

  Layer `j` sees what the layers from it outwards hold, up to the root (`Layers.outside`). To write
  through it is to write to these layers, while the ones inside it stay as they are
  (`Layers.through`); this is what going outwards step by step comes to (`run_parents`).

  A view shows the entry of the first layer that has the key. A write reaches this entry of the
  view's own layer and nothing else. A global write reaches the root and takes the entry out of the
  overlays on the way, so that it shows in all views from there to the root, and touches no other
  entry of any layer.
-/

import Mathlib.Data.List.Forall2
import Mathlib.Logic.Function.Iterate
import BehaviorTree.Proofs.Entries
import BehaviorTree.Proofs.Overlay.Outward
import BehaviorTree.Scenario.Desk

namespace BehaviorTree

/-! ## Views -/

namespace Layers

variable {l : Layers} {j : Nat} {t : ValueType} {id : UInt64} {x : t.Carrier}

/-- Does this to the layers around the innermost `j`, which stay. -/
def through (j : Nat) (f : Layers → Layers) (l : Layers) : Layers :=
  { f (l.outside j) with overlays := l.overlays.take j ++ (f (l.outside j)).overlays }

theorem through_push (b : Board) (f : Layers → Layers) : (l.push b).through (j + 1) f = (l.through j f).push b := rfl

theorem boards_outside (there : j ≤ l.overlays.length) : (l.outside j).boards = l.boards.drop j := by
  simp only [boards, outside, List.drop_append_of_le_length there]

theorem boards_through (f : Layers → Layers) :
    (l.through j f).boards = l.overlays.take j ++ (f (l.outside j)).boards := by
  simp only [boards, through, List.append_assoc]

theorem getElem?_boards_root : l.boards[l.overlays.length]? = some l.root := by simp [boards]

theorem length_boards : l.boards.length = l.overlays.length + 1 := by simp [boards]

/-! ### Reading -/

theorem get?_eq_some : l.get? t id = some x ↔ ∃ (i : Nat) (b : Board), l.boards[i]? = some b ∧ b.get? t id = some x ∧
    ∀ (k : Nat) (c : Board), k < i → l.boards[k]? = some c → c.get? t id = none := by
  rw [get?, List.findSome?_eq_some_iff]
  constructor
  · rintro ⟨inner, b, outer, split, found, none⟩
    refine ⟨inner.length, b, by simp [split], found, fun k c before there => none c ?_⟩
    rw [split, List.getElem?_append_left before] at there
    exact List.mem_of_getElem? there
  · rintro ⟨i, b, here, found, none⟩
    obtain ⟨room, rfl⟩ := List.getElem?_eq_some_iff.mp here
    refine ⟨l.boards.take i, l.boards[i], l.boards.drop (i + 1), by simp, found, fun c among => ?_⟩
    obtain ⟨k, there⟩ := List.getElem?_of_mem among
    rw [List.getElem?_take] at there
    split at there
    · next before => exact none k c before there
    · cases there

theorem get?_eq_none : l.get? t id = none ↔ ∀ (i : Nat) (b : Board), l.boards[i]? = some b → b.get? t id = none := by
  rw [get?, List.findSome?_eq_none_iff]
  exact ⟨fun none i b here => none b (List.mem_of_getElem? here), fun none b among =>
    (List.getElem?_of_mem among).elim fun i here => none i b here⟩

theorem contains_eq : l.contains t id = (l.get? t id).isSome := by
  rw [get?, List.isSome_findSome?]
  exact congrArg (List.any l.boards) (funext fun _ => Board.contains_eq)

/-- A view from layer `j` shows the entry of the first layer from there outwards that has the key. -/
structure ShowsFirst (l : Layers) (j : Nat) (t : ValueType) (id : UInt64) : Prop where
  some_iff : ∀ x, (l.outside j).get? t id = some x ↔
    ∃ (i : Nat) (b : Board), j ≤ i ∧ l.boards[i]? = some b ∧ b.get? t id = some x ∧
      ∀ (k : Nat) (c : Board), j ≤ k → k < i → l.boards[k]? = some c → c.get? t id = none
  none_iff : (l.outside j).get? t id = none ↔
    ∀ (i : Nat) (b : Board), j ≤ i → l.boards[i]? = some b → b.get? t id = none
  contains : (l.outside j).contains t id = ((l.outside j).get? t id).isSome

theorem showsFirst (there : j ≤ l.overlays.length) : l.ShowsFirst j t id where
  some_iff x := by
    rw [get?_eq_some, boards_outside there]
    simp only [List.getElem?_drop]
    constructor
    · rintro ⟨i, b, here, found, none⟩
      refine ⟨j + i, b, Nat.le_add_right j i, here, found, fun k c outer before there => none (k - j) c (by omega) ?_⟩
      rwa [Nat.add_sub_cancel' outer]
    · rintro ⟨i, b, outer, here, found, none⟩
      refine ⟨i - j, b, by rwa [Nat.add_sub_cancel' outer], found, fun k c before there => ?_⟩
      exact none (j + k) c (Nat.le_add_right j k) (by omega) there
  none_iff := by
    rw [get?_eq_none, boards_outside there]
    simp only [List.getElem?_drop]
    constructor
    · intro none i b outer here
      exact none (i - j) b (by rwa [Nat.add_sub_cancel' outer])
    · exact fun none i b here => none (j + i) b (Nat.le_add_right j i) here
  contains := contains_eq

/-! ### Writing -/

/-- This entry of layer `j` is written, and nothing else. -/
structure Written (l : Layers) (j : Nat) (t : ValueType) (id : UInt64) (x : t.Carrier) (l' : Layers) : Prop where
  here : ∃ b b' : Board, l.boards[j]? = some b ∧ l'.boards[j]? = some b' ∧ b'.get? t id = some x ∧ b.SameBut t id b'
  elsewhere : ∀ i : Nat, i ≠ j → l'.boards[i]? = l.boards[i]?
  overlays : l'.overlays.length = l.overlays.length

theorem boards_set : (l.set t id x).boards = l.boards.modifyHead (·.set t id x) := by
  obtain ⟨_ | ⟨b, outer⟩, root⟩ := l <;> rfl

theorem boards_through_set (there : j ≤ l.overlays.length) :
    (l.through j (·.set t id x)).boards = l.boards.modify j (·.set t id x) := by
  rw [boards_through, boards_set, boards_outside there, List.modify_eq_take_drop]
  congr 1
  exact (List.take_append_of_le_length there).symm

theorem written (there : j ≤ l.overlays.length) : l.Written j t id x (l.through j (·.set t id x)) where
  here := by
    have room : j < l.boards.length := by
      rw [length_boards]
      exact Nat.lt_succ_of_le there
    refine ⟨l.boards[j], l.boards[j].set t id x, List.getElem?_eq_getElem room, ?_, Board.get?_set, .set⟩
    rw [boards_through_set there, List.getElem?_modify_eq, List.getElem?_eq_getElem room]
    rfl
  elsewhere i other := by
    rw [boards_through_set there]
    exact List.getElem?_modify_ne _ _ (Ne.symm other)
  overlays := by
    have length : (l.through j (·.set t id x)).boards.length = l.boards.length := by
      rw [boards_through_set there, List.length_modify]
    rw [length_boards, length_boards] at length
    exact Nat.succ.inj length

/-- The root has the value, and all views from layer `j` to the root show it. No other entry has changed, nor have the
layers inside. -/
structure WrittenThrough (l : Layers) (j : Nat) (t : ValueType) (id : UInt64) (x : t.Carrier) (l' : Layers) : Prop where
  shows : ∀ i, j ≤ i → i ≤ l.overlays.length → (l'.outside i).get? t id = some x
  root : l'.root.get? t id = some x
  cleared : ∀ (i : Nat) (b : Board), j ≤ i → l'.overlays[i]? = some b → b.get? t id = none
  inside : ∀ i : Nat, i < j → l'.boards[i]? = l.boards[i]?
  others : List.Forall₂ (Board.SameBut t id) l.boards l'.boards
  overlays : l'.overlays.length = l.overlays.length

theorem overlays_through_setGlobal : (l.through j (·.setGlobal t id x)).overlays =
    l.overlays.take j ++ (l.overlays.drop j).map (·.remove t id) := rfl

theorem length_through_setGlobal : (l.through j (·.setGlobal t id x)).overlays.length = l.overlays.length := by
  rw [overlays_through_setGlobal, List.length_append, List.length_map, ← List.length_append, List.take_append_drop]

/-- No overlay on the way to the root has the key. -/
theorem cleared_through {i : Nat} {b : Board} (outer : j ≤ i)
    (here : (l.through j (·.setGlobal t id x)).overlays[i]? = some b) : b.get? t id = none := by
  have inside : (l.overlays.take j).length ≤ i := Nat.le_trans (List.length_take_le ..) outer
  rw [overlays_through_setGlobal, List.getElem?_append_right inside, List.getElem?_map, Option.map_eq_some_iff] at here
  obtain ⟨c, -, rfl⟩ := here
  exact Board.get?_remove

theorem shows_through {i : Nat} (outer : j ≤ i) (there : i ≤ l.overlays.length) :
    ((l.through j (·.setGlobal t id x)).outside i).get? t id = some x := by
  have length : (l.through j (·.setGlobal t id x)).overlays.length = l.overlays.length := length_through_setGlobal
  refine ((showsFirst (length ▸ there)).some_iff x).mpr ⟨_, _, length ▸ there, getElem?_boards_root, Board.get?_set, ?_⟩
  intro k c further before here
  rw [boards, List.getElem?_append_left before] at here
  exact cleared_through (Nat.le_trans outer further) here

theorem others_through : List.Forall₂ (Board.SameBut t id) l.boards (l.through j (·.setGlobal t id x)).boards := by
  have split : l.boards = l.overlays.take j ++ (l.overlays.drop j ++ [l.root]) := by
    rw [← List.append_assoc, List.take_append_drop]
    rfl
  rw [split, boards_through]
  refine List.rel_append (List.forall₂_same.mpr fun b _ => .refl b) (List.rel_append ?_ (.cons .set .nil))
  exact List.forall₂_map_right_iff.mpr (List.forall₂_same.mpr fun _ _ => .remove)

theorem writtenThrough (there : j ≤ l.overlays.length) :
    l.WrittenThrough j t id x (l.through j (·.setGlobal t id x)) where
  shows _ outer there := shows_through outer there
  root := Board.get?_set
  cleared _ _ outer here := cleared_through outer here
  inside i before := by
    have room : i < (l.overlays.take j).length := by
      rw [List.length_take]
      exact Nat.lt_min.mpr ⟨before, Nat.lt_of_lt_of_le before there⟩
    rw [boards_through, List.getElem?_append_left room, boards, List.getElem?_append_left (by omega)]
    exact List.getElem?_take_of_lt before
  others := others_through
  overlays := length_through_setGlobal

/-! ### Every view -/

/-- Views of any number of layers. From each layer, the first entry on the way to the root shows. A plain write through
the layer changes this entry of the layer and nothing else. A global write is seen from the layer and from all further
out, is held by the root and by no overlay on the way, and leaves all other entries and the layers inside alone. -/
theorem views_agree (l : Layers) {j : Nat} (there : j ≤ l.overlays.length) (t : ValueType) (id : UInt64)
    (x : t.Carrier) : l.ShowsFirst j t id ∧ l.Written j t id x (l.through j (·.set t id x)) ∧
      l.WrittenThrough j t id x (l.through j (·.setGlobal t id x)) :=
  ⟨showsFirst there, written there, writtenThrough there⟩

/-- Three layers that have the same key. -/
def shaded : Layers where
  overlays := [Board.set {} .int32 7 (1 : Int32), Board.set {} .int32 7 (2 : Int32)]
  root := Board.set {} .int32 7 (3 : Int32)

/-- From the layer in the middle its own entry shows, until it is set globally. The innermost layer goes on hiding
it. -/
theorem shaded_views : 1 ≤ shaded.overlays.length ∧ (shaded.outside 1).get? .int32 7 = some (2 : Int32) ∧
    ((shaded.through 1 (·.setGlobal .int32 7 (4 : Int32))).outside 1).get? .int32 7 = some (4 : Int32) ∧
    (shaded.through 1 (·.setGlobal .int32 7 (4 : Int32))).get? .int32 7 = some (1 : Int32) := by
  have there : 1 ≤ shaded.overlays.length := by decide
  obtain ⟨shows, -, throughout⟩ := views_agree shaded there .int32 7 (4 : Int32)
  refine ⟨there, ?_, throughout.shows 1 (Nat.le_refl 1) there, ?_⟩
  · refine (shows.some_iff (2 : Int32)).mpr ⟨1, _, Nat.le_refl 1, rfl, Board.get?_set, fun k c outer before _ => ?_⟩
    exact absurd outer (Nat.not_le.mpr before)
  · have same := throughout.inside 0 Nat.one_pos
    exact get?_eq_some.mpr ⟨0, _, same.trans rfl, Board.get?_set, fun k _ none => absurd none (Nat.not_lt_zero k)⟩

end Layers

/-! ## Step by step outwards -/

namespace Scenario

/-- To go so many layers outwards and do something there is to do it to the layers around the ones inside. -/
theorem run_parents (step : LayerStep) {l : Layers} {j : Nat} (there : j ≤ l.overlays.length) :
    (LayerStep.parent^[j] step).run l =
      ((step.run (l.outside j)).1, l.through j fun outer => (step.run outer).2) := by
  induction j generalizing l with
  | zero => rfl
  | succ j ih =>
    obtain ⟨_ | ⟨b, overlays⟩, root⟩ := l
    · cases there
    · have outer := ih (l := ⟨overlays, root⟩) (Nat.le_of_succ_le_succ there)
      rw [Function.iterate_succ_apply', LayerStep.run]
      dsimp only [Layers.pop?]
      rw [outer]
      exact congrArg (Prod.mk _) (Layers.through_push b _).symm

end Scenario

end BehaviorTree
