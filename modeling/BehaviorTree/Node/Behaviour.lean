/-
  BehaviorTree.Node.Behaviour: what a node does.

  All that a node needs from its surroundings is given as `Links`: where the nodes keep
  their slots, who chooses for them and what happens around them, all by address, the
  callbacks' access to whole trees, and the looking up and running of called trees. The
  run states may be of any type `ρ`.
-/

import BehaviorTree.Node

namespace BehaviorTree

variable {ρ μ σ : Type}

/-- What the nodes of a tree find around them. -/
structure Links (ρ μ σ : Type) where
  /-- The slots of the node at an address. -/
  cell : Address → Cell ρ σ
  /-- Who chooses for the node at an address. -/
  chooser : Address → Policy μ → Chooser ρ μ σ
  /-- What happens around the node at an address. -/
  watch : Address → Behaviour ρ μ σ → Behaviour ρ μ σ
  host : Host ρ μ σ
  resolve : Source μ → Run ρ μ σ (Option TreeId)
  callee : TreeId → Callee ρ μ σ

namespace Node

mutual

/-- The behaviour of the node at an address. -/
def behaviour (links : Links ρ μ σ) (site : Address) (node : Node μ σ) : Behaviour ρ μ σ :=
  links.watch site <| match node with
    | action body => .action links.host body
    | custom body onReset => .custom links.host body onReset
    | condition holds every => .condition (links.cell site) holds every
    | waitUntil holds every => .waitUntil (links.cell site) holds every
    | wait duration => .wait (links.cell site) duration
    | pause => .pause (links.cell site)
    | earlyReturn verdict => .earlyReturn verdict
    | invert child => .invert (links.cell site) (child.behaviour links (0 :: site))
    | force verdict child => .force (links.cell site) verdict (child.behaviour links (0 :: site))
    | guard holds child => .guard (links.cell site) holds (child.behaviour links (0 :: site))
    | repeatTimes count child =>
      .repeatTimes (links.cell site) count (child.behaviour links (0 :: site))
    | repeatUntil target child =>
      .repeatUntil (links.cell site) target (child.behaviour links (0 :: site))
    | retry retries child => .retry (links.cell site) retries (child.behaviour links (0 :: site))
    | timeout duration child =>
      .timeout (links.cell site) duration (child.behaviour links (0 :: site))
    | delay duration child => .delay (links.cell site) duration (child.behaviour links (0 :: site))
    | scope hooks child =>
      .scope (links.cell site) links.host hooks (child.behaviour links (0 :: site))
    | localScope child => .localScope (links.cell site) (child.behaviour links (0 :: site))
    | sequence children => .sequence (links.cell site) (behaviours links site 0 children)
    | selector children => .selector (links.cell site) (behaviours links site 0 children)
    | reactiveSequence children =>
      .reactiveSequence (links.cell site) (behaviours links site 0 children)
    | reactiveSelector children =>
      .reactiveSelector (links.cell site) (behaviours links site 0 children)
    | parallel policy children =>
      .parallel (links.cell site) policy (behaviours links site 0 children)
    | join policy children => .join (links.cell site) policy (behaviours links site 0 children)
    | race children => .race (links.cell site) (behaviours links site 0 children)
    | selectOne policy children =>
      .selectOne (links.cell site) (links.chooser site policy) (behaviours links site 0 children)
    | call source makeState =>
      .call (links.cell site) (links.resolve source) makeState links.callee

/-- The behaviours of siblings, the first of them at place `index` below `site`. -/
def behaviours (links : Links ρ μ σ) (site : Address) (index : Nat) :
    List (Node μ σ) → List (Behaviour ρ μ σ)
  | [] => []
  | child :: rest =>
    child.behaviour links (index :: site) :: behaviours links site (index + 1) rest

end

mutual

/-- The calls of other trees in a node, with their addresses. -/
def calls (site : Address) : Node μ σ → List (Address × Source μ)
  | call source _ => [(site, source)]
  | invert child | force _ child | guard _ child | repeatTimes _ child | repeatUntil _ child
  | retry _ child | timeout _ child | delay _ child | scope _ child | localScope child =>
    child.calls (0 :: site)
  | sequence children | selector children | reactiveSequence children
  | reactiveSelector children | parallel _ children | join _ children | race children
  | selectOne _ children => callsAmong site 0 children
  | _ => []

/-- The calls in siblings. -/
def callsAmong (site : Address) (index : Nat) : List (Node μ σ) → List (Address × Source μ)
  | [] => []
  | child :: rest => child.calls (index :: site) ++ callsAmong site (index + 1) rest

end

end Node

end BehaviorTree
