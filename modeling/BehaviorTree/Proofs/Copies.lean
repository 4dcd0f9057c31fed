/-
  BehaviorTree.Proofs.Copies: systems in which trees have copies.

  Two systems have the same trees, up to the numbers that calls use: a tree of the one may
  have several copies in the other, and a call may go to any of them (`Copies`). Callbacks
  that tick or reset trees name the same tree in both.
-/

import Mathlib.Data.List.Forall2
import BehaviorTree.Proofs.Lockstep.Behaviours
import BehaviorTree.Proofs.Place

namespace BehaviorTree

variable {μ σ α : Type}

/-- The tree to call renamed. -/
def Source.mapTrees (π : TreeId → TreeId) : Source μ → Source μ
  | .fixed (.strong tree) => .fixed (.strong (π tree))
  | .fixed (.weak tree) => .fixed (.weak (π tree))
  | .provided provide => .provided fun memory => ((provide memory).1.map π, (provide memory).2)

namespace Node

variable (π : TreeId → TreeId)

mutual

/-- The node with the trees that it calls renamed. -/
def mapTrees : Node μ σ → Node μ σ
  | action body => action body
  | custom body onReset => custom body onReset
  | condition holds every => condition holds every
  | waitUntil holds every => waitUntil holds every
  | wait duration => wait duration
  | pause => pause
  | earlyReturn verdict => earlyReturn verdict
  | invert child => invert child.mapTrees
  | force verdict child => force verdict child.mapTrees
  | guard holds child => guard holds child.mapTrees
  | repeatTimes count child => repeatTimes count child.mapTrees
  | repeatUntil target child => repeatUntil target child.mapTrees
  | retry retries child => retry retries child.mapTrees
  | timeout duration child => timeout duration child.mapTrees
  | delay duration child => delay duration child.mapTrees
  | scope hooks child => scope hooks child.mapTrees
  | localScope child => localScope child.mapTrees
  | sequence children => sequence (mapTreesAll children)
  | selector children => selector (mapTreesAll children)
  | reactiveSequence children => reactiveSequence (mapTreesAll children)
  | reactiveSelector children => reactiveSelector (mapTreesAll children)
  | parallel policy children => parallel policy (mapTreesAll children)
  | join policy children => join policy (mapTreesAll children)
  | race children => race (mapTreesAll children)
  | selectOne policy children => selectOne policy (mapTreesAll children)
  | call source makeState => call (source.mapTrees π) makeState

/-- Siblings with the trees that they call renamed. -/
def mapTreesAll : List (Node μ σ) → List (Node μ σ)
  | [] => []
  | child :: rest => child.mapTrees :: mapTreesAll rest

end

theorem mapTreesAll_eq_map (nodes : List (Node μ σ)) : mapTreesAll π nodes = nodes.map (·.mapTrees π) := by
  induction nodes with
  | nil => rfl
  | cons node rest ih => rw [mapTreesAll, ih, List.map_cons]

theorem children_mapTrees (node : Node μ σ) : (node.mapTrees π).children = node.children.map (·.mapTrees π) := by
  cases node <;> simp [mapTrees, children, mapTreesAll_eq_map]

variable {π} in
theorem mapTrees_eq_call {node : Node μ σ} {source : Source μ} {makeState : Option (StateMaker μ σ)}
    (h : node.mapTrees π = .call source makeState) :
    ∃ source', node = .call source' makeState ∧ source = source'.mapTrees π := by
  cases node <;> cases h
  exact ⟨_, rfl, rfl⟩

/-- Siblings in the same order are related if each is to the one in its place. -/
theorem behaviours_forall₂ {ρ ρ' μ' ν : Type} {P : Behaviour ρ μ σ → Behaviour ρ' μ' σ → Prop} {links : Links ρ μ σ}
    {links' : Links ρ' μ' σ} {site site' : Address} {f : Node ν σ → Node μ σ} {f' : Node ν σ → Node μ' σ}
    (nodes : List (Node ν σ)) (first : Nat) (each : ∀ i (child : Node ν σ), nodes[i]? = some child →
      P ((f child).behaviour links ((first + i) :: site)) ((f' child).behaviour links' ((first + i) :: site'))) :
    List.Forall₂ P (behaviours links site first (nodes.map f)) (behaviours links' site' first (nodes.map f')) := by
  induction nodes generalizing first with
  | nil => exact .nil
  | cons node rest ih =>
    refine .cons (each 0 node rfl) (ih (first + 1) fun i child h => ?_)
    have next := each (i + 1) child h
    rwa [← Nat.add_assoc, Nat.add_right_comm] at next

/-- The trees that the callbacks of the node tick or reset are of this kind. -/
def CallsBack (kind : TreeId → Prop) : Node μ σ → Prop
  | action body | custom body _ => body.Only kind
  | scope hooks _ => hooks.onEnter.Only kind
  | _ => True

end Node

/-- The tree with the trees that it calls renamed. -/
def Tree.mapTrees (π : TreeId → TreeId) (tree : Tree μ σ) : Tree μ σ := { tree with root := tree.root.mapTrees π }

/-- The second system has the trees of the first one, some of them several times: `π` tells which tree a
tree is a copy of. Callbacks do not name copies. -/
structure System.Copies (π : TreeId → TreeId) (sys sys' : System μ σ) : Prop where
  trees : ∀ tree, sys.trees[π tree]? = sys'.trees[tree]?.map (·.mapTrees π)
  callbacks : ∀ site node, sys'.nodeAt site = some node → node.CallsBack fun tree => π tree = tree

namespace System.Copies

variable {π : TreeId → TreeId} {sys sys' : System μ σ} (copies : sys.Copies π sys')
include copies

theorem nameOf (tree : TreeId) : sys.nameOf (π tree) = sys'.nameOf tree := by
  unfold System.nameOf
  rw [copies.trees]
  cases sys'.trees[tree]? <;> rfl

theorem limitsOf (tree : TreeId) : sys.limitsOf (π tree) = sys'.limitsOf tree := by
  unfold System.limitsOf
  rw [copies.trees]
  cases sys'.trees[tree]? <;> rfl

end System.Copies

/-! ## Every system is a copy of itself -/

theorem Source.mapTrees_id (source : Source μ) : source.mapTrees id = source := by
  rcases source with (tree | tree) | provide
  · rfl
  · rfl
  · simp [mapTrees]

mutual

theorem Node.mapTrees_id (node : Node μ σ) : node.mapTrees id = node := by
  cases node <;> simp only [mapTrees, Node.mapTrees_id, Node.mapTreesAll_id, Source.mapTrees_id]

theorem Node.mapTreesAll_id (nodes : List (Node μ σ)) : mapTreesAll id nodes = nodes := by
  cases nodes with
  | nil => rfl
  | cons node rest => simp only [mapTreesAll, Node.mapTrees_id node, Node.mapTreesAll_id rest]

end

theorem Callback.only_of_all {kind : TreeId → Prop} (all : ∀ tree, kind tree) (body : Callback μ σ α) :
    body.Only kind := by
  induction body with
  | done => trivial
  | look next ih => exact fun context memory => ih context memory
  | remember _ _ ih | edit _ _ _ ih | setGlobal _ _ _ _ ih | trace _ _ _ _ ih | requestReturn _ _ ih => exact ih
  | takeReturn _ ih | takeOverflow _ ih => exact fun x => ih x
  | tickTree tree _ _ ih => exact ⟨all tree, ih⟩
  | resetTree tree _ _ ih => exact ⟨all tree, ih⟩

theorem System.copies_self (sys : System μ σ) : sys.Copies id sys where
  trees tree := by simp [Tree.mapTrees, Node.mapTrees_id]
  callbacks _ node _ := by
    cases node <;> first | trivial | exact Callback.only_of_all (fun _ => rfl) _

end BehaviorTree
