/-
  BehaviorTree.Proofs.Place: where the nodes of a system are, seen as a forest.

  A place is an address at a call depth: what one slot belongs to. Below a node are its
  children at the same depth; below a call are the roots of the trees it names, one call
  deeper, so that recursive trees unfold. When no tree is named by two calls (`Exclusive`)
  every place has one parent, and what lies below two siblings is disjoint
  (`siblings_apart`).
-/

import Mathlib.Logic.Relation
import BehaviorTree.System

namespace BehaviorTree

variable {ρ μ σ : Type}

/-! ## Children -/

namespace Node

/-- The nodes right below. -/
def children : Node μ σ → List (Node μ σ)
  | invert child | force _ child | guard _ child | repeatTimes _ child | repeatUntil _ child
  | retry _ child | timeout _ child | delay _ child | scope _ child | localScope child => [child]
  | sequence children | selector children | reactiveSequence children | reactiveSelector children
  | parallel _ children | join _ children | race children | selectOne _ children => children
  | action _ | custom _ _ | condition _ _ | waitUntil _ _ | wait _ | pause | earlyReturn _
  | call _ _ => []

theorem sizeOf_child {node child : Node μ σ} (h : child ∈ node.children) : sizeOf child < sizeOf node := by
  cases node
  all_goals simp only [children, List.mem_singleton, List.not_mem_nil] at h
  case sequence | selector | reactiveSequence | reactiveSelector | parallel | join | race | selectOne =>
    have := List.sizeOf_lt_of_mem h
    simp; omega
  all_goals subst h; simp +arith

/-- Induction over a tree, from the children up. -/
theorem induction {motive : Node μ σ → Prop} (step : ∀ node, (∀ child ∈ node.children, motive child) → motive node)
    (node : Node μ σ) : motive node :=
  step node fun child _ => induction step child
termination_by sizeOf node
decreasing_by exact sizeOf_child ‹_›

/-- It holds of the node and of all that is below it. -/
inductive All (P : Node μ σ → Prop) : Node μ σ → Prop
  | mk {node : Node μ σ} : P node → (∀ child ∈ node.children, All P child) → All P node

theorem All.leaf {P : Node μ σ → Prop} {node : Node μ σ} (here : P node) (leaf : node.children = []) : node.All P :=
  .mk here fun child hc => by simp [leaf] at hc

theorem behaviours_getElem? (links : Links ρ μ σ) (site : Address) (nodes : List (Node μ σ)) (first i : Nat) :
    (behaviours links site first nodes)[i]? =
      nodes[i]?.map fun child => child.behaviour links ((first + i) :: site) := by
  induction nodes generalizing first i with
  | nil => simp [behaviours]
  | cons node rest ih =>
    cases i with
    | zero => simp [behaviours]
    | succ i => simp [behaviours, ih, Nat.add_comm, Nat.add_left_comm]

@[simp] theorem behaviours_length (links : Links ρ μ σ) (site : Address) (nodes : List (Node μ σ)) (first : Nat) :
    (behaviours links site first nodes).length = nodes.length := by
  induction nodes generalizing first with
  | nil => simp [behaviours]
  | cons node rest ih => simp [behaviours, ih]

theorem behaviours_some {links : Links ρ μ σ} {site : Address} {nodes : List (Node μ σ)} {i : Nat}
    {b : Behaviour ρ μ σ} (h : (behaviours links site 0 nodes)[i]? = some b) :
    ∃ child, nodes[i]? = some child ∧ child.behaviour links (i :: site) = b := by
  rw [behaviours_getElem?, Nat.zero_add] at h
  exact Option.map_eq_some_iff.mp h

/-- What is so of each child where it is, is so of each behaviour by its number. -/
theorem forall_behaviours_getElem? {P : Nat → Behaviour ρ μ σ → Prop} {links : Links ρ μ σ} {site : Address}
    {nodes : List (Node μ σ)}
    (h : ∀ i (child : Node μ σ), nodes[i]? = some child → P i (child.behaviour links (i :: site))) :
    ∀ i b, (behaviours links site 0 nodes)[i]? = some b → P i b := by
  intro i b found
  obtain ⟨child, there, rfl⟩ := behaviours_some found
  exact h i child there

/-- Then it is so of all of them. -/
theorem forall_behaviours {P : Behaviour ρ μ σ → Prop} {links : Links ρ μ σ} {site : Address}
    {nodes : List (Node μ σ)}
    (h : ∀ i (child : Node μ σ), nodes[i]? = some child → P (child.behaviour links (i :: site))) :
    ∀ b ∈ behaviours links site 0 nodes, P b := by
  intro b hb
  obtain ⟨i, found⟩ := List.getElem?_of_mem hb
  exact forall_behaviours_getElem? h i b found

end Node

/-- A call with this source may run the tree. -/
def Source.Names : Source μ → TreeId → Prop
  | .fixed (.strong tree), t | .fixed (.weak tree), t => tree = t
  | .provided provide, t => ∃ memory, (provide memory).1 = some t

namespace System

variable (sys : System μ σ)

/-- The node at an address. -/
def nodeAt : Address → Option (Node μ σ)
  | [] => none
  | [tree] => sys.trees[tree]?.map (·.root)
  | i :: site => (nodeAt site).bind (·.children[i]?)

theorem nodeAt_tree (t : TreeId) : sys.nodeAt [t] = sys.trees[t]?.map (·.root) := rfl

theorem nodeAt_root {t : TreeId} {tree : Tree μ σ} (h : sys.trees[t]? = some tree) :
    sys.nodeAt [t] = some tree.root := by
  rw [nodeAt_tree, h]
  rfl

theorem nodeAt_missing {t : TreeId} (h : sys.trees[t]? = none) : sys.nodeAt [t] = none := by
  rw [nodeAt_tree, h]
  rfl

theorem nodeAt_cons {site : Address} (nonempty : site ≠ []) (i : Nat) :
    sys.nodeAt (i :: site) = (sys.nodeAt site).bind (·.children[i]?) := by
  cases site with
  | nil => exact absurd rfl nonempty
  | cons => rfl

theorem nodeAt_ne_nil {site : Address} {node : Node μ σ} (h : sys.nodeAt site = some node) : site ≠ [] := by
  intro same
  subst same
  cases h

theorem nodeAt_child {site : Address} {node child : Node μ σ} {i : Nat} (h : sys.nodeAt site = some node)
    (hc : node.children[i]? = some child) : sys.nodeAt (i :: site) = some child := by
  rw [sys.nodeAt_cons (sys.nodeAt_ne_nil h), h]
  exact hc

/-- What goes from its children up to a node holds of every node. -/
theorem nodeAt_upward {sys : System μ σ} {motive : ∀ site node, sys.nodeAt site = some node → Prop}
    (step : ∀ site node (here : sys.nodeAt site = some node),
      (∀ i child (there : node.children[i]? = some child), motive (i :: site) child (sys.nodeAt_child here there)) →
        motive site node here)
    {site : Address} {node : Node μ σ} (here : sys.nodeAt site = some node) : motive site node here := by
  induction node using Node.induction generalizing site with
  | step node ih => exact step site node here fun i child there => ih child (List.mem_of_getElem? there) _

/-- What holds of the roots and goes down to children holds of every node. -/
theorem nodeAt_induction {sys : System μ σ} {motive : Address → Node μ σ → Prop}
    (root : ∀ t tree, sys.trees[t]? = some tree → motive [t] tree.root)
    (child : ∀ site node i child, motive site node → node.children[i]? = some child → motive (i :: site) child) :
    ∀ site node, sys.nodeAt site = some node → motive site node
  | [], _, h => by cases h
  | [t], _, h => by
    obtain ⟨tree, ht, rfl⟩ := Option.map_eq_some_iff.mp h
    exact root t tree ht
  | i :: j :: site, _, h => by
    obtain ⟨parent, hp, hc⟩ := Option.bind_eq_some_iff.mp h
    exact child _ parent i _ (nodeAt_induction root child (j :: site) parent hp) hc

/-- It is enough to look at the trees. -/
theorem forall_nodes {sys : System μ σ} {P : Node μ σ → Prop} (h : ∀ tree ∈ sys.trees, tree.root.All P) (site : Address)
    (node : Node μ σ) (hn : sys.nodeAt site = some node) : P node := by
  suffices all : node.All P by
    cases all with
    | mk here _ => exact here
  refine nodeAt_induction (motive := fun _ node => node.All P)
    (fun t tree ht => ?_) (fun _ node i child hn hc => ?_) site
    node hn
  · exact h tree (Array.mem_of_getElem? ht)
  · cases hn with
    | mk _ below => exact below child (List.mem_of_getElem? hc)

end System

/-! ## Places -/

/-- An address at a call depth. -/
structure Place where
  site : Address
  depth : Nat
  deriving DecidableEq

namespace Place

/-- Where the node's child number `i` is. -/
def inside (p : Place) (i : Nat) : Place := ⟨i :: p.site, p.depth⟩

/-- Where the root of a tree called at this place is. -/
def callee (p : Place) (tree : TreeId) : Place := ⟨[tree], p.depth + 1⟩

@[simp] theorem inside_depth (p : Place) (i : Nat) : (p.inside i).depth = p.depth := rfl
@[simp] theorem inside_site (p : Place) (i : Nat) : (p.inside i).site = i :: p.site := rfl
@[simp] theorem callee_depth (p : Place) (t : TreeId) : (p.callee t).depth = p.depth + 1 := rfl
@[simp] theorem callee_site (p : Place) (t : TreeId) : (p.callee t).site = [t] := rfl

theorem inside_injective {p : Place} {i j : Nat} (h : p.inside i = p.inside j) : i = j := by
  simpa [inside] using h

end Place

namespace System

variable (sys : System μ σ)

/-- The places right below a place. -/
inductive Child (p : Place) : Place → Prop
  | inside {node : Node μ σ} {i : Nat} : sys.nodeAt p.site = some node → i < node.children.length →
      Child p (p.inside i)
  | called {source : Source μ} {makeState : Option (StateMaker μ σ)} {tree : TreeId} :
      sys.nodeAt p.site = some (.call source makeState) → source.Names tree → Child p (p.callee tree)

/-- The places at a place and below it. -/
def Below : Place → Place → Prop := Relation.ReflTransGen sys.Child

/-- No tree is named by two calls. -/
def Exclusive : Prop :=
  ∀ site₁ site₂ source₁ source₂ makeState₁ makeState₂ tree,
    sys.nodeAt site₁ = some (.call source₁ makeState₁) → sys.nodeAt site₂ = some (.call source₂ makeState₂) →
    source₁.Names tree → source₂.Names tree → site₁ = site₂

variable {sys} {p q r c c' : Place}

/-! ## Ranks: the way down has no way back -/

theorem Child.descends (h : sys.Child p c) :
    p.depth < c.depth ∨ p.depth = c.depth ∧ p.site.length < c.site.length := by
  cases h with
  | inside => exact .inr ⟨rfl, by simp⟩
  | called => exact .inl (by simp)

theorem Below.descends (h : sys.Below p q) :
    p = q ∨ p.depth < q.depth ∨ p.depth = q.depth ∧ p.site.length < q.site.length := by
  induction h with
  | refl => exact .inl rfl
  | tail _ hc ih =>
    have := hc.descends
    rcases ih with rfl | ih
    · exact .inr this
    · omega

theorem Below.refl : sys.Below p p := Relation.ReflTransGen.refl

theorem Child.below (h : sys.Child p c) : sys.Below p c := Relation.ReflTransGen.single h

theorem Below.trans (h : sys.Below p q) (k : sys.Below q r) : sys.Below p r := Relation.ReflTransGen.trans h k

theorem Child.not_below (h : sys.Child p c) : ¬ sys.Below c p := by
  intro k
  have := h.descends
  rcases k.descends with rfl | k <;> omega

theorem Below.eq_or_child (h : sys.Below p q) : p = q ∨ ∃ c, sys.Child p c ∧ sys.Below c q := by
  rcases Relation.ReflTransGen.cases_head h with rfl | ⟨c, hc, h⟩
  · exact .inl rfl
  · exact .inr ⟨c, hc, h⟩

/-! ## Siblings -/

theorem child_unique (hx : sys.Exclusive) (h : sys.Child p r) (k : sys.Child q r) : p = q := by
  obtain ⟨psite, pdepth⟩ := p
  obtain ⟨qsite, qdepth⟩ := q
  generalize hr : r = r' at k
  cases h with
  | inside hp _ =>
    cases k with
    | inside hq _ => simp_all [Place.inside]
    | called hq _ =>
      simp only [Place.inside, Place.callee, Place.mk.injEq, List.cons.injEq] at hr
      exact absurd hr.1.2 (sys.nodeAt_ne_nil hp)
  | called hp hs =>
    cases k with
    | inside hq _ =>
      simp only [Place.inside, Place.callee, Place.mk.injEq, List.cons.injEq] at hr
      exact absurd hr.1.2.symm (sys.nodeAt_ne_nil hq)
    | called hq ht =>
      simp only [Place.callee, Place.mk.injEq, List.cons.injEq, and_true, Nat.add_right_cancel_iff] at hr
      obtain ⟨rfl, rfl⟩ := hr
      simp only [Place.mk.injEq, and_true]
      exact hx _ _ _ _ _ _ _ hp hq hs ht

/-- Of two places above the same one, one is above the other. -/
theorem above_ordered (hx : sys.Exclusive) (h : sys.Below p r) (k : sys.Below q r) :
    sys.Below p q ∨ sys.Below q p := by
  induction h with
  | refl => exact .inr k
  | tail h hc ih =>
    rcases Relation.ReflTransGen.cases_tail k with rfl | ⟨z, hz, hzr⟩
    · exact .inl (h.tail hc)
    · obtain rfl := child_unique hx hc hzr
      exact ih hz

/-- What lies below two siblings is disjoint. -/
theorem siblings_apart (hx : sys.Exclusive) (h : sys.Child p c) (h' : sys.Child p c') (hne : c ≠ c')
    (k : sys.Below c q) : ¬ sys.Below c' q := by
  have through : ∀ {a b}, sys.Child p a → sys.Child p b → a ≠ b → ¬ sys.Below a b := by
    intro a b ha hb hab hk
    rcases Relation.ReflTransGen.cases_tail hk with rfl | ⟨z, hz, hzb⟩
    · exact hab rfl
    · obtain rfl := child_unique hx hzb hb
      exact ha.not_below hz
  intro k'
  rcases above_ordered hx k k' with hc | hc
  · exact through h h' hne hc
  · exact through h' h hne.symm hc

end System

end BehaviorTree
