/-
  BehaviorTree.Proofs.Archive: limits, events and logs survive being written as texts.

  A `Codec` writes values as texts and reads them back. The codecs of limits, events and logs are
  `Faithful`: a value that is written is read back; so a text that is accepted, once read and
  written again, still holds the same value, and two texts are rewritten alike exactly if they
  hold the same value. A record is read back from an object with its fields in order
  (`recordFields_ofMembers`), a word from its decimal digits (`word?_ofWord`).
-/

import BehaviorTree.Codec
import BehaviorTree.Proofs.ReadBack

namespace BehaviorTree

/-! ## Numbers and records -/

namespace Numeral

theorem natOfDigits_toDigits (n : Nat) : natOfDigits (Nat.toDigits 10 n) = n :=
  Nat.ofDigitChars_eq_foldl.symm.trans Nat.ofDigitChars_ten_toDigits

theorem toDigits_lead {n : Nat} (positive : 0 < n) : (Nat.toDigits 10 n).head? ≠ some '0' := by
  induction n using Nat.strongRecOn with
  | _ n ih =>
    by_cases small : n < 10
    · rw [Nat.toDigits_of_lt_base small, List.head?_cons, ne_eq, Option.some_inj, Nat.digitChar_eq_zero]
      omega
    · have lead := ih (n / 10) (by omega) (by omega)
      rw [Nat.toDigits_of_base_le (by decide) (Nat.le_of_not_lt small)]
      obtain ⟨c, cs, digits⟩ := List.exists_cons_of_ne_nil (Nat.toDigits_ne_nil (n := n / 10) (b := 10))
      rw [digits] at lead ⊢
      exact lead

theorem ofNat_wellformed (n : Nat) : (ofNat n).Wellformed where
  whole := ⟨Nat.toDigits_ne_nil, fun _ => Nat.isDigit_of_mem_toDigits (by decide) (Nat.le_refl 10)⟩
  lead zero := by
    obtain rfl | positive := Nat.eq_zero_or_pos n
    · exact Nat.toDigits_zero 10
    · exact absurd zero (toDigits_lead positive)
  fraction := fun _ h => nomatch h
  exponent := fun _ h => nomatch h

end Numeral

namespace Json

theorem plain_ofWord (n : UInt64) : Plain (ofWord n) := .number (Numeral.ofNat_wellformed n.toNat)

theorem plain_ofString (s : String) : Plain (ofString s) := .text s

theorem plain_ofMembers {members : List (String × Json)} (all : ∀ member ∈ members, Plain member.2) :
    Plain (ofMembers members) := by
  refine .object (fun member h => ?_) fun member h => ?_
  all_goals obtain ⟨given, mem, rfl⟩ := List.mem_map.1 h
  · rfl
  · exact all given mem

@[simp]
theorem word?_ofWord (n : UInt64) : word? (ofWord n) = some n := by
  have digits : (Numeral.ofNat n.toNat).nat? = some n.toNat := congrArg some (Numeral.natOfDigits_toDigits n.toNat)
  simp [word?, ofWord, ofNat, digits, UInt64.toNat_lt_size]

@[simp]
theorem string?_ofString (s : String) : string? (ofString s) = some s := rfl

theorem valuesOf_cons (name : String) (value : Json) (members : List (Option String × Json)) (key : String) :
    valuesOf ((some name, value) :: members) key =
      if name = key then value :: valuesOf members key else valuesOf members key := by
  simp only [valuesOf, List.filterMap_cons, Option.some_inj]
  split <;> simp_all

/-- A key that is not there has no value. -/
theorem valuesOf_absent {members : List (String × Json)} {key : String} (absent : key ∉ members.map Prod.fst) :
    valuesOf (members.map fun (key, value) => (some key, value)) key = [] := by
  induction members with
  | nil => rfl
  | cons member members ih =>
    rw [List.map_cons, List.mem_cons, not_or] at absent
    rw [List.map_cons, valuesOf_cons, if_neg fun same => absent.1 same.symm]
    exact ih absent.2

/-- A key that is there once has one value. -/
theorem valuesOf_present {members : List (String × Json)} (distinct : (members.map Prod.fst).Nodup)
    {member : String × Json} (mem : member ∈ members) :
    valuesOf (members.map fun (key, value) => (some key, value)) member.1 = [member.2] := by
  induction members with
  | nil => exact absurd mem List.not_mem_nil
  | cons first members ih =>
    rw [List.map_cons, List.nodup_cons] at distinct
    rw [List.map_cons, valuesOf_cons]
    obtain rfl | mem := List.mem_cons.1 mem
    · rw [if_pos rfl, valuesOf_absent distinct.1]
    · have other : first.1 ≠ member.1 := fun same => distinct.1 (same ▸ List.mem_map_of_mem mem)
      rw [if_neg other]
      exact ih distinct.2 mem

/-- A list is read whole if each of its items is. -/
theorem mapM_some {α β : Type} {items : List α} {read : α → Option β} {value : α → β}
    (each : ∀ item ∈ items, read item = some (value item)) : items.mapM read = some (items.map value) := by
  induction items with
  | nil => rfl
  | cons item items ih =>
    rw [List.mapM_cons, each item List.mem_cons_self, ih fun i hi => each i (List.mem_cons_of_mem _ hi)]
    rfl

/-- A record with distinct keys is read back, every field with its value. -/
theorem recordFields_ofMembers (members : List (String × Json)) (distinct : (members.map Prod.fst).Nodup) :
    recordFields (members.map Prod.fst) (ofMembers members) = some (members.map fun member => some member.2) := by
  have keys : (members.map fun (key, value) => (some key, value)).any (·.1.isNone) = false := by
    simp
  rw [ofMembers, recordFields, keys, if_neg Bool.false_ne_true, List.mapM_map]
  refine mapM_some fun member mem => ?_
  simp only [Function.comp_apply, valuesOf_present distinct mem]

end Json

/-! ## The three types -/

theorem Limits.ofJson?_toJson (l : Limits) : ofJson? l.toJson = some l := by
  have distinct : ["max_call_depth", "call_stack_capacity"].Nodup := by decide
  obtain ⟨depth, none | capacity⟩ := l
  · have fields := Json.recordFields_ofMembers
      [("max_call_depth", .ofWord depth), ("call_stack_capacity", .null)] distinct
    simp only [List.map_cons, List.map_nil] at fields
    rw [ofJson?, toJson, fields]
    simp [capacityOfJson?]
  · have fields := Json.recordFields_ofMembers
      [("max_call_depth", .ofWord depth), ("call_stack_capacity", .ofWord capacity)] distinct
    simp only [List.map_cons, List.map_nil] at fields
    have word : capacityOfJson? (.ofWord capacity) = some (some capacity) :=
      congrArg (some <$> ·) (Json.word?_ofWord capacity)
    rw [ofJson?, toJson, fields]
    simp [word]

theorem TraceEvent.ofJson?_toJson (e : TraceEvent) : ofJson? e.toJson = some e := by
  have fields := Json.recordFields_ofMembers [("tick", .ofWord e.tick), ("tag", .ofString e.tag),
    ("a", .ofWord e.a), ("b", .ofWord e.b)] (by simp)
  simp only [List.map_cons, List.map_nil] at fields
  rw [ofJson?, toJson, fields]
  simp

theorem TraceLog.ofJson?_toJson (l : TraceLog) : ofJson? l.toJson = some l := by
  have fields := Json.recordFields_ofMembers [("events", .list (l.events.toList.map TraceEvent.toJson))] (by simp)
  simp only [List.map_cons, List.map_nil] at fields
  have events : (l.events.toList.map TraceEvent.toJson).mapM TraceEvent.ofJson? = some l.events.toList := by
    rw [List.mapM_map, Json.mapM_some fun e _ => e.ofJson?_toJson, List.map_id']
  rw [ofJson?, toJson, fields]
  simp [eventsOfJson?, events]

theorem Limits.plain_toJson (l : Limits) : l.toJson.Plain := by
  refine Json.plain_ofMembers ?_
  simp only [List.forall_mem_cons]
  refine ⟨Json.plain_ofWord _, ?_, nofun⟩
  cases l.stackCapacity with
  | none => exact .null
  | some capacity => exact Json.plain_ofWord capacity

theorem TraceEvent.plain_toJson (e : TraceEvent) : e.toJson.Plain := by
  refine Json.plain_ofMembers ?_
  simp only [List.forall_mem_cons]
  exact ⟨Json.plain_ofWord _, Json.plain_ofString _, Json.plain_ofWord _, Json.plain_ofWord _, nofun⟩

theorem TraceLog.plain_toJson (l : TraceLog) : l.toJson.Plain := by
  refine Json.plain_ofMembers ?_
  simp only [List.forall_mem_cons]
  refine ⟨.list fun item mem => ?_, nofun⟩
  obtain ⟨e, -, rfl⟩ := List.mem_map.1 mem
  exact e.plain_toJson

/-! ## Formats -/

/-- How the values of a type are written as texts and read from them. -/
structure Layout (α : Type) where
  toJson : α → Json
  ofJson? : Json → Option α

namespace Layout

def limits : Layout Limits := ⟨Limits.toJson, Limits.ofJson?⟩

def event : Layout TraceEvent := ⟨TraceEvent.toJson, TraceEvent.ofJson?⟩

def log : Layout TraceLog := ⟨TraceLog.toJson, TraceLog.ofJson?⟩

variable {α : Type} (layout : Layout α)

/-- The text of a value. -/
def write (x : α) : String := (layout.toJson x).print

/-- The value that a text holds, if it is accepted. -/
def read? (text : String) : Option α := Json.parse text >>= layout.ofJson?

/-- The text that is written for the value of another text. -/
def rewrite? (text : String) : Option String := layout.write <$> layout.read? text

/-- Values survive as texts, and rewriting a text is a normal form of it: it keeps the value, is done
once, and tells apart what holds different values. -/
structure Faithful : Prop where
  returns (x : α) : layout.read? (layout.write x) = some x
  keeps {text : String} {x : α} (accepted : layout.read? text = some x) :
    ∃ text', layout.rewrite? text = some text' ∧ layout.read? text' = some x
  settles (text : String) : layout.rewrite? text >>= layout.rewrite? = layout.rewrite? text
  separates (a b : String) : layout.rewrite? a = layout.rewrite? b ↔ layout.read? a = layout.read? b

variable {layout}

/-- It is enough that documents are printed and read back. -/
theorem faithful_of (plain : ∀ x, (layout.toJson x).Plain) (back : ∀ x, layout.ofJson? (layout.toJson x) = some x) :
    layout.Faithful := by
  have returns (x : α) : layout.read? (layout.write x) = some x := by
    rw [read?, write, Json.parse_print (plain x)]
    exact back x
  have injective (x y : α) (same : layout.write x = layout.write y) : x = y :=
    Option.some.inj ((returns x).symm.trans ((congrArg layout.read? same).trans (returns y)))
  refine ⟨returns, fun {text x} accepted => ⟨_, by rw [rewrite?, accepted]; rfl, returns x⟩, fun text => ?_,
    fun a b => ⟨fun same => ?_, fun same => by rw [rewrite?, same, rewrite?]⟩⟩
  · rw [rewrite?]
    cases layout.read? text with
    | none => rfl
    | some x => exact (congrArg (layout.write <$> ·) (returns x) :)
  · exact Option.map_injective injective same

end Layout

/-- An event with blanks, an unknown member, its fields out of order and escapes for a letter, a tab and a
character beyond the first plane. -/
def looseEvent : String :=
  " \x7b\"b\":7,\"more\":[1.5e3,null], \"tag\": \"\\u0041\\t\\ud83d\\ude00\\\"\" ," ++
    "\"tick\":18446744073709551615,\"a\":0\x7d\n"

end BehaviorTree
