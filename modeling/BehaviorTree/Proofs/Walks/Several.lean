/-
  BehaviorTree.Proofs.Walks.Several: nodes with several children, told by deeds.

  Whichever children are ticked and abandoned, in whatever order, a child that is written
  down as running is one that there is.
-/

import BehaviorTree.Proofs.Walks.Behaviours

namespace BehaviorTree

variable {μ σ : Type} {sys : System μ σ} {takes : Prop} {limit : Nat} {p : Place} {path : List Place}
  {node : Node μ σ} {bs : List (Behaviour (Recorded μ σ) μ σ)}

namespace System

/-- The behaviours of a node's children from the given place on. -/
def FaresFrom (sys : System μ σ) (takes : Prop) (limit : Nat) (p : Place) (node : Node μ σ) (first : Nat)
    (bs : List (Behaviour (Recorded μ σ) μ σ)) : Prop :=
  ∀ j b, bs[j]? = some b → first + j < node.children.length ∧ sys.Fares takes limit ((first + j) :: p.site) p.depth b

namespace FaresFrom

variable {first : Nat} {b : Behaviour (Recorded μ σ) μ σ}

theorem head (h : sys.FaresFrom takes limit p node first (b :: bs)) :
    first < node.children.length ∧ sys.Fares takes limit (first :: p.site) p.depth b := h 0 b rfl

theorem tail (h : sys.FaresFrom takes limit p node first (b :: bs)) :
    sys.FaresFrom takes limit p node (first + 1) bs := by
  intro j c hc
  have := h (j + 1) c hc
  rwa [← Nat.add_assoc, Nat.add_right_comm] at this

theorem drop (h : sys.FaresFrom takes limit p node 0 bs) (n : Nat) :
    sys.FaresFrom takes limit p node n (bs.drop n) := by
  intro j c hc
  rw [List.getElem?_drop] at hc
  have := h (n + j) c hc
  rwa [Nat.zero_add] at this

end FaresFrom

/-- Children of a node, with what is remembered of them. -/
def FaresAmong (sys : System μ σ) (takes : Prop) (limit : Nat) (p : Place)
    (ts : List (Behaviour.Tracked (Recorded μ σ) μ σ)) : Prop :=
  ∀ t ∈ ts, ∃ i, sys.Fares takes limit (i :: p.site) p.depth t.1

theorem FaresAmong.zip (h : sys.FaresFrom takes limit p node 0 bs) (states : List ChildState) :
    sys.FaresAmong takes limit p (bs.zip states) := by
  intro t ht
  obtain ⟨i, hi⟩ := List.getElem?_of_mem (List.of_mem_zip ht).1
  exact ⟨_, (h i _ hi).2⟩

namespace Working

open Behaviour

variable {w : sys.Working p node} (children : sys.FaresFrom takes limit p node 0 bs)

/-! ## One after the other -/

section
variable (w)
include w

theorem inOrderFrom {pass : Verdict} {first : Nat} (children : sys.FaresFrom takes limit p node first bs) :
    sys.Answering takes limit p path (inOrderFrom (Stage.recording.cell p.site) pass p.depth first bs) := by
  induction bs generalizing first with
  | nil => exact w.forget.bind fun _ => w.finish _
  | cons b rest ih =>
    obtain ⟨inside, child⟩ := children.head
    refine (w.tick child).bind fun _ => (w.aside .reading).bind fun _ => ?_
    refine .ite (fun _ => w.forget.bind fun _ => w.finish _) fun _ => ?_
    refine .ite (fun _ => (w.keepChild inside).bind fun _ => w.finish _) fun _ => ?_
    exact .ite (fun _ => ih children.tail) fun _ => w.forget.bind fun _ => w.finish _

end

include w children

theorem inOrder {pass : Verdict} :
    sys.Answering takes limit p path (inOrder (Stage.recording.cell p.site) pass bs).tick :=
  Walks.depth ((w.aside .reading).bind fun _ => w.inOrderFrom (children.drop _))

theorem preempt {current : Nat} :
    sys.Underway takes limit p path ((Stage.recording.cell p.site).preempt bs p.depth current) := by
  refine w.take.bind fun slot => ?_
  cases slot
  case child i =>
    refine .ite (fun _ => ?_) fun _ => .stay _
    cases here : bs[i]? with
    | none => exact .throw trivial
    | some b => exact w.reset (children i b here).2 true
  all_goals exact .stay _

theorem reactiveFrom {pass : Verdict} {rest : List (Behaviour (Recorded μ σ) μ σ)} {first : Nat}
    (later : sys.FaresFrom takes limit p node first rest) :
    sys.Answering takes limit p path (reactiveFrom (Stage.recording.cell p.site) pass bs p.depth first rest) := by
  induction rest generalizing first with
  | nil => exact w.forget.bind fun _ => w.finish _
  | cons b rest ih =>
    obtain ⟨inside, child⟩ := later.head
    refine (w.tick child).bind fun _ => (w.aside .reading).bind fun _ => ?_
    refine .ite (fun _ => (w.preempt children).bind fun _ => w.finish _) fun _ =>
      .ite (fun _ => ih later.tail) fun _ => ?_
    refine (w.preempt children).bind fun _ => .ite (fun _ => ?_) fun _ => w.finish _
    exact (w.keepChild inside).bind fun _ => w.finish _

theorem reactive {pass : Verdict} :
    sys.Answering takes limit p path (reactive (Stage.recording.cell p.site) pass bs).tick :=
  Walks.depth (w.reactiveFrom children children)

/-! ## Side by side -/

omit children in
theorem abort {ts : List (Tracked (Recorded μ σ) μ σ)} (among : sys.FaresAmong takes limit p ts) (fire : Bool) :
    sys.Underway takes limit p path (abort p.depth fire ts) := by
  induction ts with
  | nil => exact .stay _
  | cons t ts ih =>
    obtain ⟨⟨i, child⟩, others⟩ := List.forall_mem_cons.mp among
    obtain ⟨b, state⟩ := t
    cases state with
    | running => exact (w.reset child fire).bind fun _ => ih others
    | idle | finished => exact ih others

omit children in
theorem visit {stop : Status → Bool} {seen rest : List (Tracked (Recorded μ σ) μ σ)}
    (before : sys.FaresAmong takes limit p seen) (after : sys.FaresAmong takes limit p rest) :
    sys.Underway takes limit p path (visit stop p.depth seen rest) := by
  induction rest generalizing seen with
  | nil => exact .stay _
  | cons t rest ih =>
    obtain ⟨⟨i, child⟩, others⟩ := List.forall_mem_cons.mp after
    obtain ⟨b, state⟩ := t
    have visited : ∀ state, sys.FaresAmong takes limit p (seen ++ [(b, state)]) :=
      fun state => List.forall_mem_append.mpr ⟨before, List.forall_mem_singleton.mpr ⟨i, child⟩⟩
    cases state with
    | finished s => exact ih (visited _) others
    | running | idle =>
      refine (w.tick child).bind fun s => (w.aside .reading).bind fun _ =>
        .ite (fun _ => ?_) fun _ => ih (visited _) others
      exact (w.abort (List.forall_mem_append.mpr ⟨visited _, others⟩) true).bind fun _ => .stay _

theorem visitAll {stop : Status → Bool} {otherwise : List ChildState → Status} :
    sys.Answering takes limit p path (visitAll (Stage.recording.cell p.site) stop otherwise bs) := by
  refine Walks.depth (w.take.bind fun slot => ?_)
  refine (w.visit (fun t ht => by cases ht) (.zip children _)).bind fun r => ?_
  cases r with
  | inl s => exact w.finish _
  | inr states => exact .ite (fun _ => (w.keep rfl).bind fun _ => w.finish _) fun _ => w.finish _

omit children in
theorem raceFrom {seen rest : List (Tracked (Recorded μ σ) μ σ)} (before : sys.FaresAmong takes limit p seen)
    (after : sys.FaresAmong takes limit p rest) :
    sys.Answering takes limit p path (raceFrom (Stage.recording.cell p.site) p.depth seen rest) := by
  induction rest generalizing seen with
  | nil => exact (w.keep rfl).bind fun _ => w.finish _
  | cons t rest ih =>
    obtain ⟨⟨i, child⟩, others⟩ := List.forall_mem_cons.mp after
    obtain ⟨b, state⟩ := t
    refine (w.tick child).bind fun s => (w.aside .reading).bind fun _ => .ite (fun _ => ?_) fun _ => ?_
    · have ended : sys.FaresAmong takes limit p (seen ++ (b, .finished s) :: rest) :=
        List.forall_mem_append.mpr ⟨before, List.forall_mem_cons.mpr ⟨⟨i, child⟩, others⟩⟩
      exact (w.abort ended true).bind fun _ => w.finish _
    · exact ih (List.forall_mem_append.mpr ⟨before, List.forall_mem_singleton.mpr ⟨i, child⟩⟩) others

theorem race : sys.Answering takes limit p path (race (Stage.recording.cell p.site) bs).tick := by
  refine .ite (fun _ => w.finish _) fun _ => Walks.depth (w.take.bind fun slot => ?_)
  exact w.raceFrom (fun t ht => by cases ht) (.zip children _)

/-! ## One of them -/

theorem selectOne {chooser : Chooser (Recorded μ σ) μ σ} (picks : ∀ count, Incidental takes (chooser.pick count))
    (completes : ∀ i, Incidental takes (chooser.complete i)) :
    sys.Answering takes limit p path (selectOne (Stage.recording.cell p.site) chooser bs).tick := by
  have chooses : sys.Underway takes limit p path (choose (Stage.recording.cell p.site) chooser bs.length p.depth) := by
    refine (w.aside .reading).bind fun slot => ?_
    cases slot.child? with
    | some i => exact .stay _
    | none => exact w.aside (picks _)
  refine Walks.depth (chooses.bind fun o => ?_)
  cases o with
  | none => exact w.finish _
  | some i =>
    show sys.Answering takes limit p path (tickChosen (Stage.recording.cell p.site) chooser bs p.depth i)
    unfold tickChosen
    cases here : bs[i]? with
    | none => exact .throw trivial
    | some b =>
      obtain ⟨inside, child⟩ := children i b here
      rw [Nat.zero_add] at inside
      refine (w.tick child).bind fun _ => .ite (fun _ => (w.keepChild inside).bind fun _ => w.finish _) fun _ => ?_
      exact w.forget.bind fun _ => (w.aside (completes i)).bind fun _ => w.finish _

end Working

end System

end BehaviorTree
