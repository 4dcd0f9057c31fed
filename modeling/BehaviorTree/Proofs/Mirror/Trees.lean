/-
  BehaviorTree.Proofs.Mirror.Trees: nothing depends on the diary.

  The system with a diary beside its memory mirrors the system that it was made from: ticks and
  resets do to the memory, to the slots, to the board and to all that goes out what they do
  without the diary (`tick_beside`, `reset_beside`).
-/

import BehaviorTree.Proofs.Accord.Behaviours
import BehaviorTree.Proofs.Diary
import BehaviorTree.Proofs.Mirror

namespace BehaviorTree

variable {μ σ α : Type}

/-! ## Callbacks -/

/-- What is done to the rest of the memory first makes no difference. -/
theorem Mirrors.beforehand {ρ μ' : Type} {part : μ' → μ} {a : Run ρ μ σ α} {b : Run ρ μ' σ α} {f : μ' → μ'}
    (keeps : ∀ n, part (f n) = part n) (h : Mirrors part a b) : Mirrors part a (do Run.remember f; b) := by
  intro m
  have same : m.part part = (m.withMemory (f m.memory)).part part := by
    show (⟨_, part m.memory, _, _, _⟩ : Machine ρ μ σ) = ⟨_, part (f m.memory), _, _, _⟩
    rw [keeps]
    rfl
  rw [same]
  exact h (m.withMemory (f m.memory))

theorem callback_beside {ρ : Type} {host : Host ρ μ σ} {host' : Host ρ (Diary μ) σ}
    (hosts : host.Mirrors Diary.own host') (body : Callback μ σ α) :
    Mirrors Diary.own (body.run host) (body.beside.run host') := by
  induction body with
  | done => exact .pure _
  | look next ih => exact fun m => ih m.context m.memory.own m
  | remember f next ih => exact Mirrors.bind (.remember fun _ => rfl) fun _ => ih
  | edit _ _ _ ih | setGlobal _ _ _ _ ih => exact Mirrors.onContext.bind fun _ => ih
  | requestReturn _ _ ih => exact Mirrors.requestReturn.bind fun _ => ih
  | takeReturn _ ih => exact Mirrors.takeReturn.bind ih
  | takeOverflow _ ih => exact Mirrors.takeOverflow.bind ih
  | trace _ _ _ _ ih => exact Mirrors.trace.bind fun _ => ih
  | tickTree tree delta _ ih => exact (hosts.tick tree delta).bind ih
  | resetTree tree fire _ ih => exact (hosts.reset tree fire).bind fun _ => ih

theorem stateFor_beside {ρ : Type} (makeState : Option (StateMaker μ σ)) :
    Mirrors Diary.own (Behaviour.stateFor (ρ := ρ) makeState)
      (Behaviour.stateFor (makeState.map fun make s => Diary.use (make s))) := by
  cases makeState with
  | none => exact .pure _
  | some make => exact Mirrors.context.bind fun c => Mirrors.bind (.consult fun _ => rfl) fun _ => .pure _

/-! ## What happens around the nodes -/

namespace Stage

/-- What is written down around a run changes nothing else. -/
theorem atWork_mirrors {p : Place} {first : Diary μ → Diary μ} {last : α → Diary μ → Diary μ}
    {a : Run (Store σ) μ σ α} {b : Run (Store σ) (Diary μ) σ α} (first_own : ∀ n, (first n).own = n.own)
    (last_own : ∀ x n, (last x n).own = n.own) (h : Mirrors Diary.own a b) :
    Mirrors Diary.own a (atWork p first b last) := by
  intro m
  have start : m.part Diary.own = (m.withMemory (first { m.memory with here := p })).part Diary.own := by
    show (⟨_, m.memory.own, _, _, _⟩ : Machine (Store σ) μ σ) = ⟨_, (first { m.memory with here := p }).own, _, _, _⟩
    rw [first_own]
    rfl
  rw [atWork_apply, start, h]
  cases b (m.withMemory (first { m.memory with here := p })) with
  | ok x n =>
    show EStateM.Result.ok x (⟨_, n.memory.own, _, _, _⟩ : Machine (Store σ) μ σ) =
      .ok x ⟨_, (last x n.memory).own, _, _, _⟩
    rw [last_own]
    rfl
  | error => rfl

theorem watch_mirrored (site : Address) {b : Behaviour (Store σ) μ σ} {b' : Behaviour (Store σ) (Diary μ) σ}
    (h : Mirrored Diary.own b b') : Mirrored Diary.own (Stage.plain.watch site b) (Stage.diary.watch site b') where
  tick := by
    have noted : ∀ depth, Mirrors Diary.own b.tick
        (atWork ⟨site, depth⟩ id b'.tick fun status => Diary.write (.answered status)) :=
      fun depth => atWork_mirrors (fun _ => rfl) (fun _ _ => rfl) h.tick
    exact fun m => noted m.context.depth m
  reset d fire := atWork_mirrors (fun _ => rfl) (fun _ _ => rfl) (h.reset d fire)

theorem chooser_mirrors (site : Address) (policy : Policy μ) :
    (∀ count, Mirrors Diary.own ((Stage.plain.chooser (σ := σ) site policy).pick count)
      ((Stage.diary.chooser site policy.beside).pick count)) ∧
    ∀ i, Mirrors Diary.own ((Stage.plain.chooser (σ := σ) site policy).complete i)
      ((Stage.diary.chooser site policy.beside).complete i) := by
  cases policy with
  | picker initial => exact ⟨fun _ _ => rfl, fun _ _ => rfl⟩
  | custom pick complete => exact ⟨fun _ => .consult fun _ => rfl, fun _ => .remember fun _ => rfl⟩

end Stage

/-! ## Nodes with all that is below -/

/-- What the nodes of a system with a diary find around them mirrors what those of the system find. -/
structure MirroredLinks (links : Links (Store σ) μ σ) (links' : Links (Store σ) (Diary μ) σ) : Prop where
  cell : links.cell = links'.cell
  chooser : links.chooser = Stage.plain.chooser
  chooser' : links'.chooser = Stage.diary.chooser
  watch : links.watch = Stage.plain.watch
  watch' : links'.watch = Stage.diary.watch
  host : links.host.Mirrors Diary.own links'.host
  resolve : ∀ source, Mirrors Diary.own (links.resolve source) (links'.resolve source.beside)
  name : ∀ tree, (links.callee tree).name = (links'.callee tree).name
  callee : ∀ tree, Mirrored Diary.own (links.callee tree).root (links'.callee tree).root

open Accord Behaviour in
/-- The diary has no part in the slots, so each behaviour goes in accord with what it is without. -/
theorem node_beside {links : Links (Store σ) μ σ} {links' : Links (Store σ) (Diary μ) σ}
    (around : MirroredLinks links links') (node : Node μ σ) : ∀ site,
    (mirror (Store σ) σ Diary.own).Goes () (node.behaviour links site) (node.beside.behaviour links' site) := by
  induction node using Node.induction with
  | step node ih =>
    intro site
    have siblings : ∀ nodes, node.children = nodes → List.Forall₂ ((mirror (Store σ) σ Diary.own).Goes ())
        (Node.behaviours links site 0 nodes) (Node.behaviours links' site 0 (Node.besideAll nodes)) := by
      intro nodes same
      subst same
      have each : List.Forall₂ ((mirror (Store σ) σ Diary.own).Goes ())
          (Node.behaviours links site 0 (node.children.map id))
          (Node.behaviours links' site 0 (node.children.map Node.beside)) :=
        Node.behaviours_forall₂ node.children 0 fun i child hc => ih child (List.mem_of_getElem? hc) _
      rwa [List.map_id, ← Node.besideAll_eq_map] at each
    have one : ∀ child ∈ node.children, (mirror (Store σ) σ Diary.own).Goes () (child.behaviour links (0 :: site))
        (child.beside.behaviour links' (0 :: site)) := fun child hc => ih child hc (0 :: site)
    have c : (mirror (Store σ) σ (Diary.own (μ := μ))).Cells (links'.cell site) := mirror_cells _
    have remembers : ∀ (f : Diary μ → Diary μ) (own : μ → μ) (k : Unit), (∀ n, own n.own = (f n).own) →
        (mirror (Store σ) σ Diary.own).Paired k k (Run.remember own) (Run.remember f) :=
      fun f own k same => paired_of_mirrors (.remember same) k k
    have tests : ∀ p : Predicate μ σ, (mirror (Store σ) σ Diary.own).Paired () () (Run.test p)
        (Run.test fun c => Diary.use (p c)) := fun p => paired_of_mirrors (.test fun _ _ => rfl) () ()
    rw [Node.behaviour.eq_def, Node.behaviour.eq_def, around.watch, around.watch', around.cell]
    refine goes_of_mirrored (Stage.watch_mirrored site (Goes.mirrored (i := ()) ?_)) ()
    cases node
    case action body => exact ofTick_goes (paired_of_mirrors (callback_beside around.host body) () ())
    case custom body onReset =>
      exact ⟨paired_of_mirrors (callback_beside around.host body) () (), fun k _ _ => remembers _ _ k fun _ => rfl⟩
    case condition p _ => exact condition_goes c (tests p)
    case waitUntil p _ => exact waitUntil_goes c (tests p)
    case wait => exact wait_goes c
    case pause => exact pause_goes c
    case earlyReturn => exact earlyReturn_goes
    case invert child => exact invert_goes c (one child (List.mem_singleton_self _))
    case force child => exact force_goes c (one child (List.mem_singleton_self _))
    case guard p child => exact guard_goes c (tests p) (one child (List.mem_singleton_self _))
    case repeatUntil child => exact repeatUntil_goes c (one child (List.mem_singleton_self _))
    case repeatTimes child | retry child => exact iterate_goes c (one child (List.mem_singleton_self _))
    case timeout child => exact timeout_goes c (one child (List.mem_singleton_self _))
    case delay child => exact delay_goes c (one child (List.mem_singleton_self _))
    case scope hooks child =>
      have enters := (callback_beside around.host hooks.onEnter).beforehand (f := Diary.write .entered) fun _ => rfl
      exact scope_goes c (paired_of_mirrors enters () ()) (fun k s => remembers _ _ k fun _ => rfl)
        (one child (List.mem_singleton_self _))
    case localScope child => exact localScope_goes c (one child (List.mem_singleton_self _))
    case sequence | selector => exact inOrder_goes c (siblings _ rfl)
    case reactiveSequence | reactiveSelector => exact reactive_goes c (siblings _ rfl)
    case parallel => exact parallel_goes c (siblings _ rfl)
    case join => exact join_goes c (siblings _ rfl)
    case race => exact race_goes c (siblings _ rfl)
    case selectOne policy children =>
      rw [around.chooser, around.chooser']
      obtain ⟨picks, completes⟩ := Stage.chooser_mirrors (σ := σ) site policy
      exact selectOne_goes c (fun n => paired_of_mirrors (picks n) () ()) (fun n => paired_of_mirrors (completes n) () ())
        (siblings _ rfl)
    case call source makeState =>
      refine call_goes c (paired_of_mirrors (around.resolve source) () ())
        (paired_of_mirrors (stateFor_beside makeState) () ()) ?_ around.name fun tree =>
          goes_of_mirrored (around.callee tree) ()
      cases makeState <;> rfl

/-! ## Which trees are available -/

namespace Node

mutual

theorem calls_beside (site : Address) (node : Node μ σ) :
    node.beside.calls site = (node.calls site).map (Prod.map id Source.beside) := by
  cases node <;>
    simp only [beside, calls, calls_beside, callsAmong_beside, List.map_cons, List.map_nil, Prod.map_apply, id]

theorem callsAmong_beside (site : Address) (index : Nat) (nodes : List (Node μ σ)) :
    callsAmong site index (besideAll nodes) = (callsAmong site index nodes).map (Prod.map id Source.beside) := by
  cases nodes with
  | nil => rfl
  | cons node rest =>
    simp only [besideAll, callsAmong, calls_beside _ node, callsAmong_beside _ _ rest, List.map_append]

end

end Node

namespace System

variable (sys : System μ σ)

theorem trees_beside (tree : Nat) : sys.beside.trees[tree]? = sys.trees[tree]?.map Tree.beside := by
  simp [beside]

theorem nameOf_beside (tree : TreeId) : sys.beside.nameOf tree = sys.nameOf tree := by
  unfold nameOf
  rw [trees_beside]
  cases sys.trees[tree]? <;> rfl

theorem limitsOf_beside (tree : TreeId) : sys.beside.limitsOf tree = sys.limitsOf tree := by
  unfold limitsOf
  rw [trees_beside]
  cases sys.trees[tree]? <;> rfl

theorem owned_beside (s : Store σ) (site : Address) : sys.beside.owned s site = sys.owned s site := by
  have targets_beside : ∀ (caller : Address) (source : Source μ),
      targets s caller source.beside = targets s caller source := by
    intro caller source
    rcases source with (tree | tree) | provide <;> rfl
  have below : sys.beside.callsBelow site = (sys.callsBelow site).map (Prod.map id Source.beside) := by
    unfold callsBelow
    cases site.getLast? with
    | none => rfl
    | some tree =>
      simp only [trees_beside]
      cases sys.trees[tree]? with
      | none => rfl
      | some t =>
        simp only [Option.map_some, Tree.beside, Node.calls_beside, List.filter_map]
        rfl
  unfold owned
  rw [below, List.flatMap_map]
  exact congrArg (List.flatMap · (sys.callsBelow site)) (funext fun call => targets_beside call.1 call.2)

theorem alive_beside (s : Store σ) (tree : TreeId) : sys.beside.alive s tree = sys.alive s tree := by
  have pruned : ∀ rounds trees, sys.beside.prune s rounds trees = sys.prune s rounds trees := by
    intro rounds
    induction rounds with
    | zero => exact fun _ => rfl
    | succ rounds ih =>
      intro trees
      unfold prune
      rw [ih]
      simp only [funext (owned_beside sys s)]
  have size : sys.beside.trees.size = sys.trees.size := by simp [beside]
  unfold alive
  rw [pruned, size]

theorem resolve_beside (source : Source μ) :
    Mirrors Diary.own (sys.resolve .plain source) (sys.beside.resolve .diary source.beside) := by
  rcases source with (tree | tree) | provide
  · exact .pure _
  · intro m
    show EStateM.Result.ok (if sys.alive m.runs tree then some tree else none) _ =
      .ok (if sys.beside.alive m.runs tree then some tree else none) _
    rw [alive_beside]
  · exact .consult fun _ => rfl

/-! ## Ticks and resets -/

theorem rootOf_beside {links : Links (Store σ) μ σ} {links' : Links (Store σ) (Diary μ) σ}
    (around : MirroredLinks links links') (tree : TreeId) :
    Mirrored Diary.own (sys.rootOf links tree) (sys.beside.rootOf links' tree) := by
  unfold rootOf
  rw [trees_beside]
  cases sys.trees[tree]? with
  | none => exact ⟨.pure _, fun _ _ => .pure _⟩
  | some t => exact (node_beside around t.root [tree]).mirrored

theorem resetRoot_beside (levels : Nat) (tree : TreeId) (d : Nat) (fire : Bool) :
    Mirrors Diary.own (sys.resetRoot .plain levels tree d fire) (sys.beside.resetRoot .diary levels tree d fire) := by
  induction levels generalizing tree d fire with
  | zero => exact .throw
  | succ levels ih =>
    have around : MirroredLinks (sys.resetLinks .plain (sys.resetRoot .plain levels))
        (sys.beside.resetLinks .diary (sys.beside.resetRoot .diary levels)) := {
      cell := rfl
      chooser := rfl
      chooser' := rfl
      watch := rfl
      watch' := rfl
      host := ⟨fun _ _ => .throw, fun _ _ => .throw⟩
      resolve := fun _ => .throw
      name := fun tree => (sys.nameOf_beside tree).symm
      callee := fun tree => ⟨.throw, ih tree⟩ }
    exact (sys.rootOf_beside around tree).reset d fire

theorem resetAt_beside (tree : TreeId) (d : Nat) (fire : Bool) :
    Mirrors Diary.own (sys.resetAt .plain tree d fire) (sys.beside.resetAt .diary tree d fire) :=
  fun m => sys.resetRoot_beside (m.runs.height - d + 1) tree d fire m

/-- Resets are as without the diary. -/
theorem reset_beside (tree : TreeId) (fire : Bool) :
    Mirrors Diary.own (sys.reset .plain tree fire) (sys.beside.reset .diary tree fire) := sys.resetAt_beside tree 0 fire

variable {host : Host (Store σ) μ σ} {host' : Host (Store σ) (Diary μ) σ} (hosts : host.Mirrors Diary.own host')

theorem modifyStore_mirrors (f : Store σ → Store σ) :
    Mirrors Diary.own (Stage.plain.modifyStore (μ := μ) f) (Stage.diary.modifyStore f) := fun _ => rfl

include hosts

theorem tickRoot_beside (levels : Nat) (tree : TreeId) :
    Mirrors Diary.own (sys.tickRoot .plain host levels tree) (sys.beside.tickRoot .diary host' levels tree) := by
  induction levels generalizing tree with
  | zero => exact .throw
  | succ levels ih =>
    have around : MirroredLinks (sys.tickLinks .plain host (sys.tickRoot .plain host levels))
        (sys.beside.tickLinks .diary host' (sys.beside.tickRoot .diary host' levels)) := {
      cell := rfl
      chooser := rfl
      chooser' := rfl
      watch := rfl
      watch' := rfl
      host := hosts
      resolve := sys.resolve_beside
      name := fun tree => (sys.nameOf_beside tree).symm
      callee := fun tree => ⟨ih tree, sys.resetAt_beside tree⟩ }
    refine (modifyStore_mirrors _).bind fun _ => (sys.rootOf_beside around tree).tick.bind fun _ => ?_
    exact (modifyStore_mirrors _).bind fun _ => .pure _

theorem tickFresh_beside (tree : TreeId) (tick : UInt64) (delta : Float32) (state : Option σ) :
    Mirrors Diary.own (sys.tickFresh .plain host tree tick delta state)
      (sys.beside.tickFresh .diary host' tree tick delta state) := by
  have fresh : ∀ layers, sys.beside.freshContext tree tick delta state layers =
      sys.freshContext tree tick delta state layers := fun layers => by
    unfold freshContext
    rw [limitsOf_beside]
  have here : Mirrors Diary.own (sys.tickHere .plain host tree) (sys.beside.tickHere .diary host' tree) :=
    fun m => sys.tickRoot_beside hosts (m.context.maxDepth - m.context.depth + 1) tree m
  refine Mirrors.context.bind fun outer => ?_
  rw [fresh]
  refine Mirrors.onContext.bind fun _ => here.bind fun _ => Mirrors.context.bind fun _ => ?_
  refine Mirrors.onContext.bind fun _ => ?_
  exact (modifyStore_mirrors _).bind fun _ => .pure _

theorem tickWith_beside (tree : TreeId) (delta : Float32) (state : Option σ) :
    Mirrors Diary.own (sys.tickWith .plain host tree delta state)
      (sys.beside.tickWith .diary host' tree delta state) := by
  have ticks := fun tick => sys.tickFresh_beside hosts tree tick delta state
  have after : ∀ before : Progress, Mirrors Diary.own (sys.tickAfter .plain before host tree delta state)
      (sys.beside.tickAfter .diary before host' tree delta state) := by
    intro before
    unfold tickAfter
    rw [limitsOf_beside, nameOf_beside]
    refine .ite (ticks _) (.ite (Mirrors.report.bind fun _ => .pure _) ?_)
    exact (modifyStore_mirrors _).bind fun _ => (ticks _).bind fun _ => (modifyStore_mirrors _).bind fun _ => .pure _
  exact .reading
    (f := fun before : Progress => do
      Stage.plain.modifyStore (·.onProgress tree ({ · with ticks := before.ticks + 1 }))
      sys.tickAfter .plain before host tree delta state)
    (g := fun before : Progress => do
      Stage.diary.modifyStore (·.onProgress tree ({ · with ticks := before.ticks + 1 }))
      sys.beside.tickAfter .diary before host' tree delta state)
    (fun before => (modifyStore_mirrors _).bind fun _ => after before) fun _ => rfl

omit hosts in
theorem nestedHost_beside (nesting : Nat) :
    (sys.nestedHost .plain nesting).Mirrors Diary.own (sys.beside.nestedHost .diary nesting) := by
  induction nesting with
  | zero => exact ⟨fun _ _ => .throw, sys.reset_beside⟩
  | succ nesting ih => exact ⟨fun tree delta => sys.tickWith_beside ih tree delta none, sys.reset_beside⟩

omit hosts in
/-- Ticks are as without the diary. -/
theorem tick_beside (tree : TreeId) (delta : Float32) (state : Option σ) :
    Mirrors Diary.own (sys.tick .plain tree delta state) (sys.beside.tick .diary tree delta state) :=
  sys.tickWith_beside (sys.nestedHost_beside nestingBound) tree delta state

end System

end BehaviorTree
