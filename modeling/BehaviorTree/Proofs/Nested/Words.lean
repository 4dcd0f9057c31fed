/-
  BehaviorTree.Proofs.Nested.Words: words of brackets, and the brackets among the events of a log.

  Runs of scopes and calls are told by an event at their start and one at their end. These are
  brackets, of two kinds and with a depth. A word of brackets is nested if each bracket that is
  closed is the one opened last, of the same kind and depth, and all are closed. The brackets
  that a word leaves open are kept on a stack (`unclosed`); there is one for the beginnings of
  nested words and for no others (`unclosed_isSome_iff`).
-/

import Mathlib.Data.List.Induction
import BehaviorTree.Trace.Event

namespace BehaviorTree

/-! ## Words -/

/-- What runs between two brackets. -/
inductive Enclosure where
  | scope
  | subtree
  deriving DecidableEq

/-- A pair of brackets. -/
structure Mark where
  kind : Enclosure
  depth : UInt64
  deriving DecidableEq

/-- One bracket of a pair. -/
inductive Paren where
  | opens (mark : Mark)
  | closes (mark : Mark)
  deriving DecidableEq

namespace Paren

/-- Every bracket that is opened is closed, the last one first. -/
inductive Nested : List Paren → Prop
  | nil : Nested []
  | enclose (mark : Mark) {w : List Paren} : Nested w → Nested (opens mark :: (w ++ [closes mark]))
  | append {v w : List Paren} : Nested v → Nested w → Nested (v ++ w)

/-- The brackets that are open afterwards, the innermost first. -/
def step : List Mark → Paren → Option (List Mark)
  | stack, opens mark => some (mark :: stack)
  | [], closes _ => none
  | last :: stack, closes mark => if last = mark then some stack else none

/-- The brackets that a word leaves open, the innermost first. -/
def unclosed (w : List Paren) : Option (List Mark) := w.foldlM step []

variable {v w : List Paren} {stack : List Mark} {mark : Mark} {x : Paren}

theorem unclosed_snoc (h : unclosed w = some stack) : unclosed (w ++ [x]) = step stack x := by
  simp only [unclosed] at h
  simp [unclosed, List.foldlM_append, h]

/-- A nested word can be put in anywhere. -/
theorem Nested.insert (h : Nested w) : ∀ {before after}, w = before ++ after → Nested v →
    Nested (before ++ v ++ after) := by
  induction h with
  | nil =>
    intro before after same inner
    obtain ⟨rfl, rfl⟩ := List.nil_eq_append_iff.mp same
    simpa using inner
  | @append w₁ w₂ first second ih₁ ih₂ =>
    intro before after same inner
    rcases List.append_eq_append_iff.mp same with ⟨mid, rfl, rfl⟩ | ⟨mid, rfl, rfl⟩
    · have there := (ih₂ rfl inner)
      simpa using first.append there
    · have there := (ih₁ rfl inner)
      simpa using there.append second
  | @enclose mark w₁ enclosed ih =>
    intro before after same inner
    obtain ⟨rfl, rfl⟩ | ⟨rest, rfl, later⟩ := List.cons_eq_append_iff.mp same
    · exact inner.append (enclosed.enclose mark)
    · rcases List.append_eq_append_iff.mp later with ⟨mid, rfl, last⟩ | ⟨mid, rfl, rfl⟩
      · obtain ⟨rfl, rfl⟩ | ⟨rfl, rfl⟩ := List.singleton_eq_append_iff.mp last
        · have there := Nested.enclose mark (ih (List.append_nil _).symm inner)
          simpa using there
        · have there := (enclosed.enclose mark).append inner
          simpa using there
      · have there := Nested.enclose mark (ih rfl inner)
        simpa using there

/-- Closing what is open makes a word nested. -/
theorem nested_of_unclosed (h : unclosed w = some stack) : Nested (w ++ stack.map closes) := by
  induction w using List.reverseRecOn generalizing stack with
  | nil => cases h; exact .nil
  | append_singleton w x ih =>
    cases open? : unclosed w with
    | none => simp [unclosed, List.foldlM_append] at open? h; simp [open?] at h
    | some before =>
      rw [unclosed_snoc open?] at h
      have word := ih open?
      cases x with
      | opens mark =>
        cases h
        have pair : Nested [opens mark, closes mark] := .enclose mark .nil
        simpa using word.insert rfl pair
      | closes mark =>
        cases before with
        | nil => cases h
        | cons last before =>
          obtain ⟨rfl, rfl⟩ : last = mark ∧ before = stack := by simpa [step] using h
          simpa using word

/-- A nested word changes no stack. -/
theorem Nested.foldlM_step (h : Nested w) (stack : List Mark) : w.foldlM step stack = some stack := by
  induction h generalizing stack with
  | nil => rfl
  | append _ _ ih₁ ih₂ => rw [List.foldlM_append, ih₁]; exact ih₂ stack
  | enclose mark _ ih =>
    rw [List.foldlM_cons]
    show List.foldlM step (mark :: stack) _ = _
    rw [List.foldlM_append, ih]
    simp [step]

/-- Exactly the beginnings of nested words have a stack of open brackets. -/
theorem unclosed_isSome_iff : (unclosed w).isSome ↔ ∃ v, Nested (w ++ v) := by
  constructor
  · intro h
    obtain ⟨stack, h⟩ := Option.isSome_iff_exists.mp h
    exact ⟨_, nested_of_unclosed h⟩
  · rintro ⟨v, h⟩
    have all := h.foldlM_step []
    rw [List.foldlM_append] at all
    obtain ⟨stack, h, -⟩ := Option.bind_eq_some_iff.mp all
    exact Option.isSome_iff_exists.mpr ⟨stack, h⟩

/-- And nested words are those that leave none open. -/
theorem unclosed_eq_nil_iff : unclosed w = some [] ↔ Nested w :=
  ⟨fun h => by simpa using nested_of_unclosed h, fun h => h.foldlM_step []⟩

end Paren

/-! ## Events -/

/-- The bracket that an event is, if it is one. -/
def TraceEvent.paren? (e : TraceEvent) : Option Paren :=
  if e.tag = Tag.scopeEnter then some (.opens ⟨.scope, e.a⟩)
  else if e.tag = Tag.scopeExit then some (.closes ⟨.scope, e.a⟩)
  else if e.tag = Tag.subtreeEnter then some (.opens ⟨.subtree, e.a⟩)
  else if e.tag = Tag.subtreeExit then some (.closes ⟨.subtree, e.a⟩)
  else none

/-- The word of brackets that a log has written down. -/
def TraceLog.parens (l : TraceLog) : List Paren := l.events.toList.filterMap TraceEvent.paren?

theorem TraceLog.parens_push (l : TraceLog) (e : TraceEvent) :
    (l.push e).parens = l.parens ++ e.paren?.toList := by
  cases h : e.paren? <;> simp [parens, push, h]

end BehaviorTree
