/-
  BehaviorTree.Proofs.Entries: a board is one finite map.

  A board looks like nine tables, of which one takes objects of any type. To those who use it, it is
  one map from locations to what is there (`Board.entries`). A location is a type of value with an id,
  or an id among the objects (`Location`), so that equal ids in different tables are different ones.
  The size of a board is the number of locations where something is (`Board.size_eq`).

  Each operation answers what the map answers and does to the map what one expects of a map
  (`Board.seen_run`). An object that is asked for under another type than it was stored with is a
  fault, and leaves the board as it was. So runs of operations, with or without faults in between,
  are runs on the map (`Board.one_map`).
-/

import Mathlib.Data.Finmap
import Mathlib.Algebra.BigOperators.Group.Finset.Sigma
import BehaviorTree.Scenario.Desk

namespace BehaviorTree

/-! ## Entries of one board -/

namespace Board

variable {b : Board} {t u : ValueType} {id other : UInt64} {x : t.Carrier}

theorem contains_eq : b.contains t id = (b.get? t id).isSome := Std.ExtTreeMap.contains_eq_isSome_getElem?

theorem get?_set : (b.set t id x).get? t id = some x := by
  rw [get?, set, table_onTable_self]
  exact Std.ExtTreeMap.getElem?_insert_self

theorem get?_remove : (b.remove t id).get? t id = none := by
  rw [get?, remove, table_onTable_self]
  exact Std.ExtTreeMap.getElem?_erase_self

/-- The boards have the same entries, but for this one. -/
structure SameBut (t : ValueType) (id : UInt64) (b b' : Board) : Prop where
  values : ∀ u other, ¬ (u = t ∧ other = id) → b'.get? u other = b.get? u other
  objects : b'.objects = b.objects

/-- A change of one table is one of this entry if the other ids in it are left alone. -/
theorem SameBut.onTable {f : Table t.Carrier → Table t.Carrier}
    (leaves : ∀ other, other ≠ id → (f (b.table t))[other]? = (b.table t)[other]?) :
    SameBut t id b (b.onTable t f) where
  values u other apart := by
    unfold get?
    by_cases same : t = u
    · subst same
      rw [table_onTable_self]
      exact leaves other fun here => apart ⟨rfl, here⟩
    · rw [table_onTable_of_ne b same]
  objects := objects_onTable b t f

theorem SameBut.set : SameBut t id b (b.set t id x) :=
  .onTable fun other apart => by simp [Std.ExtTreeMap.getElem?_insert, Ne.symm apart]

theorem SameBut.remove : SameBut t id b (b.remove t id) :=
  .onTable fun other apart => by simp [Std.ExtTreeMap.getElem?_erase, Ne.symm apart]

theorem SameBut.refl (b : Board) : SameBut t id b b := ⟨fun _ _ _ => rfl, rfl⟩

end Board

/-! ## Locations -/

/-- The table and the id of an entry. -/
inductive Location where
  | value (t : ValueType) (id : UInt64)
  | object (id : UInt64)
  deriving DecidableEq

namespace Location

/-- What is in such a location. -/
@[reducible] def Content : Location → Type
  | value t _ => t.Carrier
  | object _ => Obj

def ofValue : (_ : ValueType) × UInt64 ↪ Location where
  toFun k := value k.1 k.2
  inj' := by
    rintro ⟨t, id⟩ ⟨u, other⟩ same
    cases same
    rfl

def ofObject : UInt64 ↪ Location := ⟨object, fun _ _ => object.inj⟩

end Location

instance : Fintype ValueType where
  elems := {.bool, .int32, .int64, .uint32, .uint64, .float32, .float64, .text}
  complete t := by cases t <;> decide

/-- A finite map from locations to what is there. -/
abbrev Entries := Finmap Location.Content

namespace Board

variable {b b' : Board} {p : Location} {t : ValueType} {u : ObjType} {id : UInt64}

/-- What the board has in a location. -/
def entry (b : Board) : (p : Location) → Option p.Content
  | .value t id => b.get? t id
  | .object id => b.objects[id]?

/-- The ids in a table. -/
def ids {α : Type} (table : Table α) : Finset UInt64 := table.keys.toFinset

theorem mem_ids {α : Type} {table : Table α} : id ∈ ids table ↔ table[id]?.isSome := by
  rw [ids, List.mem_toFinset, Std.ExtTreeMap.mem_keys, Std.ExtTreeMap.mem_iff_isSome_getElem?]

theorem card_ids {α : Type} (table : Table α) : (ids table).card = table.size := by
  rw [ids, List.toFinset_card_of_nodup Std.ExtTreeMap.nodup_keys, Std.ExtTreeMap.length_keys]

/-- The locations where something is. -/
def locations (b : Board) : Finset Location :=
  (Finset.univ.sigma fun t => ids (b.table t)).map Location.ofValue ∪ (ids b.objects).map Location.ofObject

theorem isSome_entry_iff : (b.entry p).isSome ↔ p ∈ b.locations := by
  rw [locations, Finset.mem_union, Finset.mem_map, Finset.mem_map]
  cases p with
  | value t id =>
    constructor
    · exact fun some => .inl ⟨⟨t, id⟩, Finset.mem_sigma.mpr ⟨Finset.mem_univ t, mem_ids.mpr some⟩, rfl⟩
    · rintro (⟨⟨_, _⟩, among, ⟨⟩⟩ | ⟨_, _, ⟨⟩⟩)
      exact mem_ids.mp (Finset.mem_sigma.mp among).2
  | object id =>
    constructor
    · exact fun some => .inr ⟨id, mem_ids.mpr some, rfl⟩
    · rintro (⟨_, _, ⟨⟩⟩ | ⟨_, among, ⟨⟩⟩)
      exact mem_ids.mp among

/-- A location is either one for a value or one for an object. -/
theorem card_locations (b : Board) : b.locations.card = b.size := by
  have apart : Disjoint ((Finset.univ.sigma fun t => ids (b.table t)).map Location.ofValue)
      ((ids b.objects).map Location.ofObject) := by
    rw [Finset.disjoint_left]
    intro p value object
    obtain ⟨_, -, rfl⟩ := Finset.mem_map.mp value
    obtain ⟨_, -, ⟨⟩⟩ := Finset.mem_map.mp object
  have values : ∑ t, (ids (b.table t)).card = b.bools.size + (b.int32s.size + (b.int64s.size + (b.uint32s.size +
      (b.uint64s.size + (b.float32s.size + (b.float64s.size + b.texts.size)))))) := by
    simp only [card_ids]
    rfl
  rw [locations, Finset.card_union_of_disjoint apart, Finset.card_map, Finset.card_map, Finset.card_sigma, values,
    card_ids]
  simp only [size, Nat.add_assoc]

/-- The board as one map. -/
def entries (b : Board) : Entries := Finmap.keysLookupEquiv.symm ⟨(b.locations, b.entry), fun _ => isSome_entry_iff⟩

@[simp] theorem lookup_entries (b : Board) (p : Location) : b.entries.lookup p = b.entry p :=
  Finmap.keysLookupEquiv_symm_apply_lookup ..

/-- The size of a board is the number of locations where something is. -/
theorem size_eq (b : Board) : b.size = b.entries.keys.card := by
  rw [entries, Finmap.keysLookupEquiv_symm_apply_keys, card_locations]

theorem entries_empty : ({} : Board).entries = ∅ := by
  refine Finmap.ext_lookup fun p => ?_
  rw [lookup_entries, Finmap.lookup_empty]
  obtain ⟨t, id⟩ | id := p
  · cases t <;> rfl
  · rfl

theorem entries_insert {x : p.Content} (here : b'.entry p = some x) (elsewhere : ∀ q ≠ p, b'.entry q = b.entry q) :
    b'.entries = b.entries.insert p x := by
  refine Finmap.ext_lookup fun q => ?_
  by_cases same : q = p
  · subst same
    rw [Finmap.lookup_insert, lookup_entries, here]
  · rw [Finmap.lookup_insert_of_ne _ same, lookup_entries, lookup_entries, elsewhere q same]

theorem entries_erase (here : b'.entry p = none) (elsewhere : ∀ q ≠ p, b'.entry q = b.entry q) :
    b'.entries = b.entries.erase p := by
  refine Finmap.ext_lookup fun q => ?_
  by_cases same : q = p
  · subst same
    rw [Finmap.lookup_erase, lookup_entries, here]
  · rw [Finmap.lookup_erase_ne same, lookup_entries, lookup_entries, elsewhere q same]

/-! ## What the operations do to the map -/

theorem SameBut.entry (h : SameBut t id b b') (q : Location) (apart : q ≠ .value t id) : b'.entry q = b.entry q := by
  cases q with
  | value u other =>
    refine h.values u other ?_
    rintro ⟨rfl, rfl⟩
    exact apart rfl
  | object other => exact congrArg (·[other]?) h.objects

theorem entries_set (x : t.Carrier) : (b.set t id x).entries = b.entries.insert (.value t id) x :=
  entries_insert get?_set SameBut.set.entry

theorem entries_remove : (b.remove t id).entries = b.entries.erase (.value t id) :=
  entries_erase get?_remove SameBut.remove.entry

/-- A change of one object leaves the values alone, and the other objects. -/
theorem entry_objects {objects : Table Obj} (leaves : ∀ other ≠ id, objects[other]? = b.objects[other]?) (q : Location)
    (apart : q ≠ .object id) : ({ b with objects } : Board).entry q = b.entry q := by
  cases q with
  | value t other => cases t <;> rfl
  | object other =>
    refine leaves other ?_
    rintro rfl
    exact apart rfl

theorem entries_setObj (x : u.Carrier) : (b.setObj u id x).entries = b.entries.insert (.object id) ⟨u, x⟩ :=
  entries_insert Std.ExtTreeMap.getElem?_insert_self <| entry_objects fun other apart => by
    simp [Std.ExtTreeMap.getElem?_insert, Ne.symm apart]

theorem entries_eraseObj : ({ b with objects := b.objects.erase id } : Board).entries = b.entries.erase (.object id) :=
  entries_erase Std.ExtTreeMap.getElem?_erase_self <| entry_objects fun other apart => by
    simp [Std.ExtTreeMap.getElem?_erase, Ne.symm apart]

end Board

/-! ## Operations -/

open Scenario (Answer objAnswer)

/-- What can be asked of a board. -/
inductive Request where
  | set (t : ValueType) (id : UInt64) (x : t.Carrier)
  | get (t : ValueType) (id : UInt64)
  | remove (t : ValueType) (id : UInt64)
  | contains (t : ValueType) (id : UInt64)
  | setObj (t : ObjType) (id : UInt64) (x : t.Carrier)
  | getObj (t : ObjType) (id : UInt64)
  /-- Looks at the object and changes it in its place. -/
  | modifyObj (t : ObjType) (id : UInt64) (f : t.Carrier → t.Carrier)
  | removeObj (t : ObjType) (id : UInt64)
  | containsObj (id : UInt64)
  | clear
  | size

/-- The answer of a board, and the board after it. -/
def Board.run (b : Board) : Request → Except Fault Answer × Board
  | .set t id x => (.ok .nothing, b.set t id x)
  | .get t id => (.ok (.value ((b.get? t id).map (⟨t, ·⟩))), b)
  | .remove t id => (.ok (.value ((b.get? t id).map (⟨t, ·⟩))), b.remove t id)
  | .contains t id => (.ok (.flag (b.contains t id)), b)
  | .setObj t id x => (.ok .nothing, b.setObj t id x)
  | .getObj t id => objAnswer t b ((b.getObj t id).map (·, b))
  | .modifyObj t id f => objAnswer t b (b.modifyObj t id f)
  | .removeObj t id => objAnswer t b (b.removeObj t id)
  | .containsObj id => (.ok (.flag (b.containsObj id)), b)
  | .clear => (.ok .nothing, {})
  | .size => (.ok (.size b.size), b)

/-- The request that a scenario's step makes; to compare two keys, the board is not asked. -/
def Scenario.TableStep.request? : Scenario.TableStep → Option Request
  | .set id v => some (.set v.type id v.val)
  | .get k => some (.get k.type k.id)
  | .remove k => some (.remove k.type k.id)
  | .contains k => some (.contains k.type k.id)
  | .clear => some .clear
  | .setObj id o => some (.setObj o.type id o.val)
  | .getObj t id => some (.getObj t id)
  | .removeObj t id => some (.removeObj t id)
  | .containsObj id => some (.containsObj id)
  | .addObj id o => some (.modifyObj o.type id (Scenario.addObjs o.type · o.val))
  | .compare _ _ => none

theorem Scenario.TableStep.run_eq {step : Scenario.TableStep} {request : Request} (h : step.request? = some request)
    (b : Board) : step.run b = b.run request := by
  cases step with
  | compare => cases h
  | _ =>
    cases h
    rfl

namespace Entries

/-- Does something with the object under an id, if it is of this type. If there is an object of another type, that is a
fault, and nothing is done. -/
def withObject (m : Entries) (t : ObjType) (id : UInt64) (action : t.Carrier → t.Carrier × Entries) :
    Except Fault Answer × Entries :=
  match (m.lookup (.object id) : Option Obj) with
  | none => (.ok (.obj none), m)
  | some o =>
    if same : o.type = t then (.ok (.obj (some ⟨t, (action (same ▸ o.val)).1⟩)), (action (same ▸ o.val)).2)
    else (.error (.typeMismatch id), m)

/-- The answer of a map, and the map after it. -/
def run (m : Entries) : Request → Except Fault Answer × Entries
  | .set t id x => (.ok .nothing, m.insert (.value t id) x)
  | .get t id => (.ok (.value ((m.lookup (.value t id)).map (⟨t, ·⟩))), m)
  | .remove t id => (.ok (.value ((m.lookup (.value t id)).map (⟨t, ·⟩))), m.erase (.value t id))
  | .contains t id => (.ok (.flag (m.lookup (.value t id)).isSome), m)
  | .setObj t id x => (.ok .nothing, m.insert (.object id) ⟨t, x⟩)
  | .getObj t id => m.withObject t id fun x => (x, m)
  | .modifyObj t id f => m.withObject t id fun x => (f x, m.insert (.object id) ⟨t, f x⟩)
  | .removeObj t id => m.withObject t id fun x => (x, m.erase (.object id))
  | .containsObj id => (.ok (.flag (m.lookup (.object id)).isSome), m)
  | .clear => (.ok .nothing, ∅)
  | .size => (.ok (.size m.keys.card), m)

end Entries

namespace Board

variable {b : Board} {t : ObjType} {id : UInt64}

theorem getObj_absent (absent : b.entry (.object id) = none) : b.getObj t id = .ok none := by
  change b.objects[id]? = none at absent
  rw [getObj, absent]

theorem getObj_there {x : t.Carrier} (there : b.entry (.object id) = some ⟨t, x⟩) : b.getObj t id = .ok (some x) := by
  change b.objects[id]? = some ⟨t, x⟩ at there
  simp [getObj, there, Obj.as?]

theorem getObj_other {o : Obj} (there : b.entry (.object id) = some o) (other : o.type ≠ t) :
    b.getObj t id = .error (.typeMismatch id) := by
  change b.objects[id]? = some o at there
  simp [getObj, there, Obj.as?, other]

/-- What one sees who takes the board for a map. -/
def seen (r : Except Fault Answer × Board) : Except Fault Answer × Entries := (r.1, r.2.entries)

/-- An operation on an object does what the map does if it does so where there is no object, where there is one of this
type, and where there is one of another type. -/
theorem seen_objAnswer {result : Except Fault (Option t.Carrier × Board)} (action : t.Carrier → t.Carrier × Entries)
    (absent : b.entry (.object id) = none → result = .ok (none, b))
    (there : ∀ x, b.entry (.object id) = some ⟨t, x⟩ →
      ∃ b', result = .ok (some (action x).1, b') ∧ b'.entries = (action x).2)
    (other : ∀ o, b.entry (.object id) = some o → o.type ≠ t → result = .error (.typeMismatch id)) :
    seen (objAnswer t b result) = b.entries.withObject t id action := by
  unfold Entries.withObject
  rw [lookup_entries]
  cases found : b.entry (.object id) with
  | none =>
    rw [absent found]
    rfl
  | some o =>
    obtain ⟨type, x⟩ := o
    dsimp only
    split
    · next same =>
      subst same
      obtain ⟨b', done, after⟩ := there x found
      rw [done, ← after]
      rfl
    · next different =>
      rw [other _ found different]
      rfl

theorem seen_getObj : seen (b.run (.getObj t id)) = b.entries.run (.getObj t id) := by
  refine seen_objAnswer (fun x => (x, b.entries)) (fun absent => ?_) (fun x there => ⟨b, ?_, rfl⟩)
    fun o there other => ?_
  · rw [getObj_absent absent]; rfl
  · rw [getObj_there there]; rfl
  · rw [getObj_other there other]; rfl

theorem seen_modifyObj (f : t.Carrier → t.Carrier) :
    seen (b.run (.modifyObj t id f)) = b.entries.run (.modifyObj t id f) := by
  refine seen_objAnswer (fun x => (f x, b.entries.insert (.object id) ⟨t, f x⟩)) (fun absent => ?_)
    (fun x there => ⟨_, ?_, entries_setObj (f x)⟩) fun o there other => ?_
  · rw [modifyObj, getObj_absent absent]
  · rw [modifyObj, getObj_there there]
  · rw [modifyObj, getObj_other there other]

theorem seen_removeObj : seen (b.run (.removeObj t id)) = b.entries.run (.removeObj t id) := by
  refine seen_objAnswer (fun x => (x, b.entries.erase (.object id))) (fun absent => ?_)
    (fun x there => ⟨_, ?_, entries_eraseObj⟩) fun o there other => ?_
  · rw [removeObj, getObj_absent absent]
  · rw [removeObj, getObj_there there]
  · rw [removeObj, getObj_other there other]

theorem containsObj_eq : b.containsObj id = (b.entry (.object id)).isSome :=
  Std.ExtTreeMap.contains_eq_isSome_getElem?

/-- Each operation answers what the map answers, and does to the board what the map does. -/
theorem seen_run (b : Board) (request : Request) : seen (b.run request) = b.entries.run request := by
  cases request with
  | set t id x => simp only [seen, run, Entries.run, entries_set]
  | get t id =>
    simp only [seen, run, Entries.run, lookup_entries]
    rfl
  | remove t id =>
    simp only [seen, run, Entries.run, lookup_entries, entries_remove]
    rfl
  | contains t id =>
    simp only [seen, run, Entries.run, lookup_entries, contains_eq]
    rfl
  | setObj t id x => simp only [seen, run, Entries.run, entries_setObj]
  | getObj t id => exact seen_getObj
  | modifyObj t id f => exact seen_modifyObj f
  | removeObj t id => exact seen_removeObj
  | containsObj id => simp only [seen, run, Entries.run, lookup_entries, containsObj_eq]
  | clear => simp only [seen, run, Entries.run, entries_empty]
  | size => simp only [seen, run, Entries.run, size_eq]

/-- The request is for an object under another type than the one that it was stored with. -/
def Mistaken (b : Board) (id : UInt64) : Request → Prop
  | .getObj t other | .modifyObj t other _ | .removeObj t other =>
    other = id ∧ ∃ o, b.entry (.object id) = some o ∧ o.type ≠ t
  | _ => False

/-- Such a request is a fault and leaves the board as it was. -/
theorem run_mistaken {request : Request} (mistaken : b.Mistaken id request) :
    b.run request = (.error (.typeMismatch id), b) := by
  cases request with
  | getObj t other =>
    obtain ⟨rfl, o, there, different⟩ := mistaken
    rw [run, getObj_other there different]
    rfl
  | modifyObj t other f =>
    obtain ⟨rfl, o, there, different⟩ := mistaken
    rw [run, modifyObj, getObj_other there different]
    rfl
  | removeObj t other =>
    obtain ⟨rfl, o, there, different⟩ := mistaken
    rw [run, removeObj, getObj_other there different]
    rfl
  | _ => exact mistaken.elim

end Board

/-- An object of the right type is no fault. -/
theorem Entries.withObject_ok {m : Entries} {t : ObjType} {id : UInt64} (action : t.Carrier → t.Carrier × Entries)
    (right : ∀ o, m.lookup (.object id) = some o → o.type = t) :
    ∃ answer, (m.withObject t id action).1 = .ok answer := by
  unfold withObject
  split
  · exact ⟨_, rfl⟩
  · next o there =>
    rw [dif_pos (right o there)]
    exact ⟨_, rfl⟩

namespace Board

variable {b : Board}

/-- No other request is a fault. -/
theorem run_ok {request : Request} (right : ∀ id, ¬ b.Mistaken id request) :
    ∃ answer, (b.run request).1 = .ok answer := by
  have object (t : ObjType) (id : UInt64) (right : ¬ ∃ o, b.entry (.object id) = some o ∧ o.type ≠ t) (o : Obj)
      (there : b.entries.lookup (.object id) = some o) : o.type = t :=
    not_not.mp fun other => right ⟨o, (lookup_entries b _).symm.trans there, other⟩
  show ∃ answer, (seen (b.run request)).1 = .ok answer
  rw [seen_run]
  cases request with
  | getObj t id => exact Entries.withObject_ok _ (object t id fun other => right id ⟨rfl, other⟩)
  | modifyObj t id f => exact Entries.withObject_ok _ (object t id fun other => right id ⟨rfl, other⟩)
  | removeObj t id => exact Entries.withObject_ok _ (object t id fun other => right id ⟨rfl, other⟩)
  | _ => exact ⟨_, rfl⟩

end Board

/-! ## Runs -/

/-- The answers to requests, one after the other, and what is left in the end. -/
def play {ω : Type} (run : ω → Request → Except Fault Answer × ω) : ω → List Request →
    List (Except Fault Answer) × ω
  | s, [] => ([], s)
  | s, request :: rest =>
    let (answer, s) := run s request
    let (answers, s) := play run s rest
    (answer :: answers, s)

namespace Board

theorem play_entries (b : Board) (requests : List Request) :
    (play run b requests).1 = (play Entries.run b.entries requests).1 ∧
      (play run b requests).2.entries = (play Entries.run b.entries requests).2 := by
  induction requests generalizing b with
  | nil => exact ⟨rfl, rfl⟩
  | cons request rest ih =>
    obtain ⟨answers, left⟩ := ih (b.run request).2
    simp only [play, ← seen_run b request]
    exact ⟨congrArg (_ :: ·) answers, left⟩

/-- A board with whatever on it, and any requests one after the other, of any types and ids. All answers are those of
one finite map, and what is left is what is left of the map; a new board is the empty map, and the size of a board
is the number of entries. Just those requests are faults that are for an object under another type than it was
stored with. After them, all goes on as if they had not been made. -/
theorem one_map (b : Board) (requests : List Request) :
    ({} : Board).entries = ∅ ∧ b.size = b.entries.keys.card ∧
    (play run b requests).1 = (play Entries.run b.entries requests).1 ∧
    (play run b requests).2.entries = (play Entries.run b.entries requests).2 ∧
    (∀ request id, b.Mistaken id request → play run b (request :: requests) =
      (.error (.typeMismatch id) :: (play run b requests).1, (play run b requests).2)) ∧
    ∀ request, (∀ id, ¬ b.Mistaken id request) → ∃ answer, (b.run request).1 = .ok answer := by
  obtain ⟨answers, left⟩ := play_entries b requests
  refine ⟨entries_empty, size_eq b, answers, left, fun request id mistaken => ?_, fun _ => run_ok⟩
  rw [play, run_mistaken mistaken]

/-- An object that was asked for under another type is still there, until it is replaced by one of that type. -/
example : (play run {} [.setObj .uint32 3 (7 : UInt32), .removeObj .text 3, .getObj .uint32 3, .setObj .text 3 "x",
    .removeObj .text 3, .size]).1 = [.ok .nothing, .error (.typeMismatch 3), .ok (.obj (some ⟨.uint32, (7 : UInt32)⟩)),
      .ok .nothing, .ok (.obj (some ⟨.text, "x"⟩)), .ok (.size 0)] := rfl

end Board

end BehaviorTree
