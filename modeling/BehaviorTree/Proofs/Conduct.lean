/-
  BehaviorTree.Proofs.Conduct: what work at a place may do to the machine.

  A conduct says of the run states and the memory what work at a place, and below it, may do to
  them, whether the work ends or a fault breaks it off. Of the context it says what has passed
  when the work ends. It is enough that the primitive actions keep to it: `Heeds` says that a
  run does, and there is one rule for each way that runs are put together. No run of any
  system is special here, neither is any sharing of trees forbidden.
-/

import BehaviorTree.Proofs.Lockstep.Calls
import BehaviorTree.Proofs.Residue
import BehaviorTree.Proofs.Run

namespace BehaviorTree

variable {ρ μ σ α β : Type}

/-! ## What has passed when a run ends -/

/-- How the context may look when a run ends, compared with its start. -/
structure Passing (σ : Type) where
  holds : Context σ → Context σ → Prop
  refl : ∀ c, holds c c
  trans : ∀ {c d e}, holds c d → holds d e → holds c e
  depth : ∀ {c d}, holds c d → d.depth = c.depth
  request : ∀ c s, holds c { c with returnRequest := s }
  emitted : ∀ c e, holds c { c with layers := { c.layers with root := (c.layers.root.emit e).1 } }
  refused : ∀ c o, holds c (c.recordOverflow o)
  /-- An overlay is put in place meanwhile. -/
  overlaid : ∀ {c d} b, holds { c with layers := c.layers.push b } d →
    holds c { d with layers := { d.layers with overlays := d.layers.overlays.tail } }
  /-- Another state is in place meanwhile. -/
  lent : ∀ {c d} state, holds { c with state } d → holds c { d with state := c.state }
  /-- A call is entered meanwhile. -/
  called : ∀ {c d e name}, c.enter name = .ok d → holds d e → holds c e.leave

/-- The call depth is the same again. -/
def Passing.depths : Passing σ where
  holds c d := d.depth = c.depth
  refl _ := rfl
  trans h k := k.trans h
  depth h := h
  request _ _ := rfl
  emitted _ _ := rfl
  refused _ _ := rfl
  overlaid _ h := h
  lent _ h := h
  called {c d e name} entered h := by
    show e.depth - 1 = c.depth
    rw [h, Context.enter_depth entered]
    rfl

/-! ## What work at a place does -/

/-- The run states and the memory. -/
def Machine.ground (m : Machine ρ μ σ) : ρ × μ := (m.runs, m.memory)

/-- The tree of an unfinished call. -/
def Slot.callee? : Slot σ → Option TreeId
  | call tree _ => some tree
  | _ => none

/-- What work at a place may do to the run states and the memory, and to the context. -/
structure Conduct (sys : System μ σ) (stage : Stage ρ μ σ) where
  /-- Of work at the place that has ended, or else that was broken off. -/
  does : (ended : Bool) → Place → ρ × μ → ρ × μ → Prop
  passing : Passing σ
  /-- What a callback may do to the memory. -/
  spares : μ → μ → Prop
  refl : ∀ p g, does true p g g
  trans : ∀ {ended p g h i}, does true p g h → does ended p h i → does ended p g i
  broken : ∀ {p g h}, does true p g h → does false p g h
  spared : ∀ {x y} p r, spares x y → does true p (r, x) (r, y)
  /-- Nothing is done to the slots. -/
  aside : ∀ {f : Store σ → Store σ} p r x, (∀ s q, (f s).slot q = s.slot q) →
    does true p (r, x) (stage.onStore f r, x)
  inside : ∀ {ended p node i g h}, sys.nodeAt p.site = some node → i < node.children.length →
    does ended (p.inside i) g h → does ended p g h
  /-- Work at the tree that the call in progress runs. -/
  callee : ∀ {ended p source makeState tree state r x h}, sys.nodeAt p.site = some (.call source makeState) →
    (stage.store r).slot p = .call tree state → does ended (p.callee tree) (r, x) h → does ended p (r, x) h
  /-- So is work at the tree of a call that is given up. -/
  givenUp : ∀ {ended p source makeState tree state r x h}, sys.nodeAt p.site = some (.call source makeState) →
    (stage.store r).slot p = .call tree state →
    does ended (p.callee tree) ((stage.cell p.site).reset r p.depth, x) h → does ended p (r, x) h
  /-- The tree of a call is looked up. -/
  lookedUp : ∀ {p source makeState tree} r x state, sys.nodeAt p.site = some (.call source makeState) →
    source.Names tree → does true p (r, x) ((stage.cell p.site).set r p.depth (.call tree state), x)

namespace Conduct

variable {sys : System μ σ} {stage : Stage ρ μ σ} (C : Conduct sys stage)

/-- Work at the place may use its slot; only calls note trees there. -/
structure Owns (p : Place) : Prop where
  set : ∀ r x slot, slot.callee? = none → C.does true p (r, x) ((stage.cell p.site).set r p.depth slot, x)
  reset : ∀ r x, C.does true p (r, x) ((stage.cell p.site).reset r p.depth, x)

/-- What comes of work at a place. -/
inductive Comes (p : Place) (m : Machine ρ μ σ) : EStateM.Result Fault (Machine ρ μ σ) α → Prop
  | ok {x : α} {m' : Machine ρ μ σ} : C.does true p m.ground m'.ground → C.passing.holds m.context m'.context →
      Comes p m (.ok x m')
  | error {e : Fault} {m' : Machine ρ μ σ} : C.does false p m.ground m'.ground → Comes p m (.error e m')

/-- The run is work at the place, which a tick does at the place's depth only. -/
def Heeds (ticking : Prop) (p : Place) (a : Run ρ μ σ α) : Prop :=
  ∀ m, (ticking → m.context.depth = p.depth) → C.Comes p m (a m)

/-- The ticks and resets of a behaviour are work at the place. -/
structure Fares (p : Place) (b : Behaviour ρ μ σ) : Prop where
  tick : C.Heeds True p b.tick
  reset : ∀ fire, C.Heeds False p (b.reset p.depth fire)

variable {C} {ticking : Prop} {p : Place} {m n : Machine ρ μ σ}

/-! ## Runs put together -/

theorem Comes.after {r : EStateM.Result Fault (Machine ρ μ σ) α} (does : C.does true p m.ground n.ground)
    (passed : C.passing.holds m.context n.context) (h : C.Comes p n r) : C.Comes p m r := by
  cases h with
  | ok later passed' => exact .ok (C.trans does later) (C.passing.trans passed passed')
  | error later => exact .error (C.trans does later)

namespace Heeds

theorem pure (x : α) : C.Heeds ticking p (pure x) := fun m _ => .ok (C.refl p m.ground) (C.passing.refl _)

theorem throw (e : Fault) : C.Heeds ticking p (throw e : Run ρ μ σ α) :=
  fun m _ => .error (C.broken (C.refl p m.ground))

/-- What is so whatever the depth is so in a tick. -/
theorem anywhere {a : Run ρ μ σ α} (h : C.Heeds False p a) : C.Heeds ticking p a := fun m _ => h m fun no => no.elim

/-- A run goes on with what it knows of its first part. -/
theorem bind' {a : Run ρ μ σ α} {f : α → Run ρ μ σ β} (first : C.Heeds ticking p a)
    (rest : ∀ m x m₁, a m = .ok x m₁ → (ticking → m₁.context.depth = p.depth) → C.Comes p m₁ (f x m₁)) :
    C.Heeds ticking p (a >>= f) := by
  intro m ready
  have came := first m ready
  show C.Comes p m (EStateM.bind a f m)
  unfold EStateM.bind
  cases ran : a m with
  | ok x m₁ =>
    rw [ran] at came
    cases came with
    | ok does passed =>
      exact (rest m x m₁ ran fun t => (C.passing.depth passed).trans (ready t)).after does passed
  | error e m₁ =>
    rw [ran] at came
    cases came with
    | error does => exact .error does

theorem bind {a : Run ρ μ σ α} {f : α → Run ρ μ σ β} (first : C.Heeds ticking p a)
    (rest : ∀ x, C.Heeds ticking p (f x)) : C.Heeds ticking p (a >>= f) :=
  first.bind' fun _ x m₁ _ ready => rest x m₁ ready

theorem ite {c : Prop} [Decidable c] {a b : Run ρ μ σ α} (yes : c → C.Heeds ticking p a)
    (no : ¬ c → C.Heeds ticking p b) : C.Heeds ticking p (if c then a else b) := by
  split
  · exact yes ‹_›
  · exact no ‹_›

/-- The depth is that of the place. -/
theorem depth {f : Nat → Run ρ μ σ α} (rest : C.Heeds True p (f p.depth)) : C.Heeds True p (Run.depth >>= f) := by
  intro m ready
  have same : (Run.depth >>= f) m = f p.depth m := congrArg (f · m) (ready trivial)
  rw [same]
  exact rest m ready

/-! ## Primitive actions -/

theorem reading {f : Machine ρ μ σ → α} : C.Heeds ticking p (fun m => .ok (f m) m) :=
  fun m _ => .ok (C.refl p m.ground) (C.passing.refl _)

theorem report {d : Diagnostic} : C.Heeds ticking p (Run.report (ρ := ρ) (μ := μ) (σ := σ) d) :=
  fun m _ => .ok (C.refl p m.ground) (C.passing.refl _)

theorem onContext {f : Context σ → Context σ} (passes : ∀ c, C.passing.holds c (f c)) :
    C.Heeds ticking p (Run.onContext (ρ := ρ) (μ := μ) f) := fun m _ => .ok (C.refl p m.ground) (passes _)

theorem requestReturn {s : Status} : C.Heeds ticking p (Run.requestReturn (ρ := ρ) (μ := μ) (σ := σ) s) :=
  onContext fun c => C.passing.request c _

theorem takeReturn : C.Heeds ticking p (Run.takeReturn (ρ := ρ) (μ := μ) (σ := σ)) :=
  fun m _ => .ok (C.refl p m.ground) (C.passing.request _ _)

/-- An event goes out, or the board holds something else in its place. -/
theorem trace {tag : String} {x y : UInt64} : C.Heeds ticking p (Run.trace (ρ := ρ) (μ := μ) (σ := σ) tag x y) := by
  intro m _
  have passed := C.passing.emitted m.context { tick := m.context.tick, tag, a := x, b := y }
  obtain ⟨_, _, ran⟩ | ⟨_, -, ran⟩ := Run.trace_spec tag x y m <;> rw [ran]
  · exact .ok (C.refl p m.ground) passed
  · exact .error (C.broken (C.refl p m.ground))

/-- A callback uses the memory. -/
theorem memory {f : Machine ρ μ σ → α} {g : Machine ρ μ σ → μ} (spares : ∀ m, C.spares m.memory (g m)) :
    C.Heeds ticking p (fun m => .ok (f m) (m.withMemory (g m))) :=
  fun m _ => .ok (C.spared p m.runs (spares m)) (C.passing.refl _)

/-- Something is changed in the store beside the slots. -/
theorem store {f : Machine ρ μ σ → α} {g : Machine ρ μ σ → Store σ → Store σ}
    (slots : ∀ m s q, (g m s).slot q = s.slot q) :
    C.Heeds ticking p (fun m => .ok (f m) (m.onRuns (stage.onStore (g m)))) :=
  fun m _ => .ok (C.aside p m.runs m.memory (slots m)) (C.passing.refl _)

/-! ## Brackets -/

/-- A run over an overlay, which is taken off again. -/
theorem overlaid {a : Run ρ μ σ α} {k : α → Context σ → Run ρ μ σ β} (board : Board) (work : C.Heeds True p a)
    (rest : ∀ x c, C.Heeds True p (k x c)) :
    C.Heeds True p (do
      Run.onContext fun c => { c with layers := c.layers.push board }
      let x ← a
      let c ← Run.context
      Run.onContext fun c => { c with layers := { c.layers with overlays := c.layers.overlays.tail } }
      k x c) := by
  intro m ready
  have came := work { m with context := { m.context with layers := m.context.layers.push board } } ready
  show C.Comes p m (EStateM.bind a _ { m with context := { m.context with layers := m.context.layers.push board } })
  unfold EStateM.bind
  generalize a _ = r at came
  cases came with
  | @ok x m₁ does passed =>
    have passed := C.passing.overlaid board passed
    refine Comes.after (n := { m₁ with
      context := { m₁.context with layers := { m₁.context.layers with overlays := m₁.context.layers.overlays.tail } } })
      does passed ?_
    exact rest x m₁.context _ fun _ => (C.passing.depth passed).trans (ready trivial)
  | error does => exact .error does

/-- A run with another state, after which the caller's state is back. -/
theorem withState {a : Run ρ μ σ α} (state : Option σ) (work : C.Heeds ticking p a) :
    C.Heeds ticking p (Run.withState state a) := by
  intro m ready
  have came := work { m with context := { m.context with state } } ready
  show C.Comes p m (EStateM.bind a _ { m with context := { m.context with state } })
  unfold EStateM.bind
  generalize a _ = r at came
  cases came with
  | ok does passed => exact .ok does (C.passing.lent state passed)
  | error does => exact .error does

end Heeds

/-! ## Work further down -/

/-- A behaviour of a child. -/
theorem Fares.inside {b : Behaviour ρ μ σ} {node : Node μ σ} {i : Nat} (here : sys.nodeAt p.site = some node)
    (among : i < node.children.length) (h : C.Fares (p.inside i) b) : C.Fares p b where
  tick m ready := by
    have came := h.tick m ready
    generalize b.tick m = r at came
    cases came with
    | ok does passed => exact .ok (C.inside here among does) passed
    | error does => exact .error (C.inside here among does)
  reset fire m ready := by
    have came := h.reset fire m ready
    rw [Place.inside_depth] at came
    generalize b.reset p.depth fire m = r at came
    cases came with
    | ok does passed => exact .ok (C.inside here among does) passed
    | error does => exact .error (C.inside here among does)

end Conduct

end BehaviorTree
