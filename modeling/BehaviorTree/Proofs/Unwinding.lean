/-
  BehaviorTree.Proofs.Unwinding: the order in which a history with early returns goes on.

  A history is read with the places whose ticks are in progress and the early return that
  is pending, if one is (`Stand`). Nothing is entered while one is pending: nodes are left
  on the way up, and runs beyond that way are abandoned, until a scope consumes the request
  (`Step`). The callbacks of abandoned scopes and of choosers whose child is done are the
  only ones that may touch the memory meanwhile (`Unwinds`).
-/

import BehaviorTree.Proofs.History
import BehaviorTree.Proofs.Place

namespace BehaviorTree

variable {μ σ : Type}

/-! ## Reading a history -/

namespace Moment

/-- The scene of the moment. -/
def scene : Moment μ σ → Scene μ σ
  | entered _ scene | left _ _ scene | abandoned _ _ _ scene => scene

/-- A node is entered. -/
def isEntry : Moment μ σ → Bool
  | entered _ _ => true
  | _ => false

/-- The places in progress after the moment, the innermost first. -/
def follow (path : List Place) : Moment μ σ → List Place
  | entered site scene => ⟨site, scene.context.depth⟩ :: path
  | left _ _ _ => path.tail
  | abandoned _ _ _ _ => path

end Moment

/-- The places in progress after some moments of a tick: the way from the top to where it is. -/
def pathAfter (xs : List (Moment μ σ)) : List Place := xs.foldl Moment.follow []

/-- A moment of a history that went on is one from before or one from after. -/
theorem append_eq_split {xs ys before after : List (Moment μ σ)} {x : Moment μ σ}
    (h : xs ++ ys = before ++ x :: after) :
    (∃ ws, xs = before ++ x :: ws ∧ after = ws ++ ys) ∨ ∃ ws, before = xs ++ ws ∧ ys = ws ++ x :: after := by
  rcases List.append_eq_append_iff.mp h with ⟨ws, rfl, rest⟩ | ⟨ws, rfl, rest⟩
  · exact .inr ⟨ws, rfl, rest⟩
  · cases ws with
    | nil => exact .inr ⟨[], by simp, rest.symm⟩
    | cons w ws =>
      cases rest
      exact .inl ⟨ws, rfl, rfl⟩

/-! ## Places on the way down -/

/-- Nearer to the top: fewer calls deep, or less deep in the same tree. -/
def Place.Above (p q : Place) : Prop := p.depth < q.depth ∨ p.depth = q.depth ∧ p.site.length < q.site.length

theorem Place.Above.trans {p q r : Place} (h : p.Above q) (k : q.Above r) : p.Above r := by
  unfold Above at *
  omega

theorem Place.above_inside (p : Place) (i : Nat) : p.Above (p.inside i) := .inr ⟨rfl, Nat.lt_succ_self _⟩

theorem Place.above_callee (p : Place) (tree : TreeId) : p.Above (p.callee tree) := .inl (Nat.lt_succ_self _)

/-- The place is not on the path, nor above any place of it. -/
def Beyond (path : List Place) (p : Place) : Prop := ∀ q ∈ path, q.Above p

namespace Beyond

variable {path : List Place} {p q : Place}

theorem nil (p : Place) : Beyond [] p := fun _ h => by cases h

theorem further (h : Beyond path p) (k : p.Above q) : Beyond path q := fun r hr => (h r hr).trans k

/-- What is below a place is beyond the path that ends there. -/
theorem enter (h : Beyond path p) (k : p.Above q) : Beyond (p :: path) q := by
  intro r hr
  rcases List.mem_cons.mp hr with rfl | hr
  · exact k
  · exact (h r hr).trans k

theorem leave (h : Beyond (q :: path) p) : Beyond path p := fun r hr => h r (List.mem_cons_of_mem _ hr)

end Beyond

/-! ## What may still be called -/

namespace System

variable (sys : System μ σ)

/-- The node at the address is a scope. -/
def IsScope (site : Address) : Prop := ∃ hooks child, sys.nodeAt site = some (.scope hooks child)

/-- The memory after nothing but abandoned scopes beyond the path being told, and custom choosers hearing
that their child is done. -/
inductive Unwinds (path : List Place) (x : μ) : μ → Prop
  | refl : Unwinds path x x
  | told {y : μ} {p : Place} {hooks : Hooks μ σ} {child : Node μ σ} : Unwinds path x y → Beyond path p →
      sys.nodeAt p.site = some (.scope hooks child) → Unwinds path x (hooks.onExit .running y)
  | done {y : μ} {site : Address} {pick : Nat → μ → Option Nat × μ} {complete : Nat → μ → μ}
      {children : List (Node μ σ)} (index : Nat) : Unwinds path x y →
      sys.nodeAt site = some (.selectOne (.custom pick complete) children) → Unwinds path x (complete index y)

variable {sys} {path : List Place} {x y z : μ}

theorem Unwinds.trans (h : sys.Unwinds path x y) (k : sys.Unwinds path y z) : sys.Unwinds path x z := by
  induction k with
  | refl => exact h
  | told _ beyond scope ih => exact ih.told beyond scope
  | done index _ chooser ih => exact ih.done index chooser

/-- Fewer places on the path forbid less. -/
theorem Unwinds.leave {p : Place} (h : sys.Unwinds (p :: path) x y) : sys.Unwinds path x y := by
  induction h with
  | refl => exact .refl
  | told _ beyond scope ih => exact ih.told beyond.leave scope
  | done index _ chooser ih => exact ih.done index chooser

/-- Along a path that goes on further down. -/
theorem Unwinds.drop {inner : List Place} (h : sys.Unwinds (inner ++ path) x y) : sys.Unwinds path x y := by
  induction inner with
  | nil => exact h
  | cons p inner ih => exact ih h.leave

end System

/-! ## How a history goes on -/

/-- A pending early return, with the memory when it was asked for. -/
structure Asked (μ : Type) where
  verdict : Verdict
  memory : μ

/-- Where a history stands: the places whose ticks are in progress, the innermost first, and the pending
early return. -/
structure Stand (μ : Type) where
  path : List Place
  pending : Option (Asked μ)

namespace System

variable (sys : System μ σ)

/-- The memory is one that the pending early return, if there is one, allows. -/
def Allows (path : List Place) (pending : Option (Asked μ)) (x : μ) : Prop :=
  ∀ a, pending = some a → sys.Unwinds path a.memory x

/-- What may happen next. -/
inductive Step : Stand μ → Moment μ σ → Stand μ → Prop
  | entered {path : List Place} {site : Address} (scene : Scene μ σ) : scene.context.returnRequest = none →
      Step ⟨path, none⟩ (.entered site scene) ⟨⟨site, scene.context.depth⟩ :: path, none⟩
  | left {path : List Place} {site : Address} {status : Status} (scene : Scene μ σ) :
      (∀ v, sys.nodeAt site ≠ some (.earlyReturn v)) → scene.context.returnRequest = none →
      Step ⟨⟨site, scene.context.depth⟩ :: path, none⟩ (.left site status scene) ⟨path, none⟩
  /-- An early return is asked for. -/
  | asked {path : List Place} {site : Address} {v : Verdict} (scene : Scene μ σ) :
      sys.nodeAt site = some (.earlyReturn v) → scene.context.returnRequest = some v.status →
      Step ⟨⟨site, scene.context.depth⟩ :: path, none⟩ (.left site v.status scene) ⟨path, some ⟨v, scene.memory⟩⟩
  /-- It goes up through a node, whatever that one answers. -/
  | passed {path : List Place} {site : Address} {status : Status} {a : Asked μ} (scene : Scene μ σ) :
      (∀ v, sys.nodeAt site ≠ some (.earlyReturn v)) → ¬ sys.IsScope site →
      scene.context.returnRequest = some a.verdict.status →
      sys.Unwinds (⟨site, scene.context.depth⟩ :: path) a.memory scene.memory →
      Step ⟨⟨site, scene.context.depth⟩ :: path, some a⟩ (.left site status scene) ⟨path, some a⟩
  /-- A scope consumes it, and is told its verdict. -/
  | consumed {path : List Place} {site : Address} {hooks : Hooks μ σ} {child : Node μ σ} {a : Asked μ} {y : μ}
      (scene : Scene μ σ) : sys.nodeAt site = some (.scope hooks child) → scene.context.returnRequest = none →
      sys.Unwinds (⟨site, scene.context.depth⟩ :: path) a.memory y →
      scene.memory = hooks.onExit a.verdict.status y →
      Step ⟨⟨site, scene.context.depth⟩ :: path, some a⟩ (.left site a.verdict.status scene) ⟨path, none⟩
  | abandoned {path : List Place} {pending : Option (Asked μ)} {site : Address} {depth : Nat} {fire : Bool}
      (scene : Scene μ σ) : Beyond path ⟨site, depth⟩ → sys.Allows path pending scene.memory →
      Step ⟨path, pending⟩ (.abandoned site depth fire scene) ⟨path, pending⟩

/-- One moment after the other. -/
inductive Follows : Stand μ → List (Moment μ σ) → Stand μ → Prop
  | nil (s : Stand μ) : Follows s [] s
  | cons {s s₁ s₂ : Stand μ} {x : Moment μ σ} {xs : List (Moment μ σ)} : sys.Step s x s₁ → Follows s₁ xs s₂ →
      Follows s (x :: xs) s₂

variable {sys} {s s₁ s₂ : Stand μ} {x : Moment μ σ} {xs ys : List (Moment μ σ)}

theorem Follows.single (h : sys.Step s x s₁) : sys.Follows s [x] s₁ := .cons h (.nil _)

theorem Follows.append (h : sys.Follows s xs s₁) (k : sys.Follows s₁ ys s₂) : sys.Follows s (xs ++ ys) s₂ := by
  induction h with
  | nil => exact k
  | cons step _ ih => exact .cons step (ih k)

theorem Follows.of_append (h : sys.Follows s (xs ++ ys) s₂) : ∃ s₁, sys.Follows s xs s₁ ∧ sys.Follows s₁ ys s₂ := by
  induction xs generalizing s with
  | nil => exact ⟨s, .nil s, h⟩
  | cons x xs ih =>
    cases h with
    | cons step rest =>
      obtain ⟨s₁, before, after⟩ := ih rest
      exact ⟨s₁, .cons step before, after⟩

theorem Allows.none (path : List Place) (x : μ) : sys.Allows path none x := fun _ h => by cases h

theorem Allows.trans {path : List Place} {pending : Option (Asked μ)} {x y : μ} (h : sys.Allows path pending x)
    (k : sys.Unwinds path x y) : sys.Allows path pending y := fun a ha => (h a ha).trans k

end System

end BehaviorTree
