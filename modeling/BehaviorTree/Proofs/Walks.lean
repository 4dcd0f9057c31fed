/-
  BehaviorTree.Proofs.Walks: runs that go from spot to spot by deeds.

  `Walks` says of a run, whatever comes of it, that it is told by deeds: up to its end, or up
  to the place where a fault broke it off. The faults that it may end with are those of the
  program, never a bound of the machine itself. One rule for each way that runs are put
  together, and one for each primitive action.
-/

import BehaviorTree.Proofs.Deeds

namespace BehaviorTree

variable {μ σ α β : Type}

/-- A fault of the program: a board entry of another type, or a choice that names no child. -/
def Fault.Raised : Fault → Prop
  | typeMismatch _ | noSuchChild _ _ => True
  | _ => False

theorem Board.emit_raised {b : Board} {e : TraceEvent} {fault : Fault} (h : (b.emit e).2 = .error fault) :
    fault.Raised := by
  obtain ⟨id, rfl⟩ := Board.emit_error h
  trivial

/-- Ticks no tree, and takes the record of a refused call away only if `takes`. -/
def Callback.Modest (takes : Prop) : Callback μ σ α → Prop
  | done _ => True
  | look next => ∀ context memory, (next context memory).Modest takes
  | remember _ next | edit _ _ next | setGlobal _ _ _ next | trace _ _ _ next | requestReturn _ next =>
    next.Modest takes
  | takeReturn next => ∀ request, (next request).Modest takes
  | takeOverflow next => takes ∧ ∀ overflow, (next overflow).Modest takes
  | tickTree _ _ _ => False
  | resetTree _ _ next => next.Modest takes

/-- The callbacks of the node are modest. -/
def Node.Modest (takes : Prop) : Node μ σ → Prop
  | action body | custom body _ => body.Modest takes
  | scope hooks _ => hooks.onEnter.Modest takes
  | _ => True

namespace System

/-- Every callback is modest. -/
def Modest (sys : System μ σ) (takes : Prop) : Prop :=
  ∀ site node, sys.nodeAt site = some node → node.Modest takes

variable (sys : System μ σ) (takes : Prop) (limit : Nat)

/-- What a run comes to, told by deeds. -/
inductive Comes (s : Spot) (m : Machine (Recorded μ σ) μ σ) (t : α → Spot) :
    EStateM.Result Fault (Machine (Recorded μ σ) μ σ) α → Prop
  | ok {x : α} {m' : Machine (Recorded μ σ) μ σ} : sys.Deeds takes s m (t x) m' → Comes s m t (.ok x m')
  | error {e : Fault} {s₁ : Spot} {m₁ m' : Machine (Recorded μ σ) μ σ} : e.Raised → sys.Deeds takes s m s₁ m₁ →
      sys.Broken m₁ m' → Comes s m t (.error e m')

/-- From one spot the run goes by deeds to another, which its answer tells. -/
def Walks (s : Spot) (a : Run (Recorded μ σ) μ σ α) (t : α → Spot) : Prop :=
  ∀ m, sys.Sits limit s m → sys.Comes takes s m t (a m)

/-- A run that does nothing but one thing aside. -/
def Incidental (takes : Prop) (a : Run (Recorded μ σ) μ σ α) : Prop :=
  ∀ m, match a m with
    | .ok _ m' => Aside takes m m'
    | .error e m' => e.Raised ∧ Aside takes m m'

variable {sys takes limit} {s : Spot} {t : α → Spot} {u : β → Spot} {p : Place} {path : List Place} {node : Node μ σ}
  {m m₁ m' : Machine (Recorded μ σ) μ σ}

/-! ## Runs put together -/

theorem Broken.refl (m : Machine (Recorded μ σ) μ σ) : sys.Broken m m := ⟨fun _ => .inl rfl, id, rfl⟩

theorem Aside.broken (h : Aside takes m m') : sys.Broken m m' where
  slots q := .inl (h.slots q)
  followable := h.followable
  history := h.history

theorem Comes.after {s₁ : Spot} {r : EStateM.Result Fault (Machine (Recorded μ σ) μ σ) α}
    (h : sys.Deeds takes s m s₁ m₁) (k : sys.Comes takes s₁ m₁ t r) : sys.Comes takes s m t r := by
  cases k with
  | ok deeds => exact .ok (h.trans deeds)
  | error raised deeds broken => exact .error raised (h.trans deeds) broken

namespace Walks

theorem pure (x : α) : sys.Walks takes limit (t x) (pure x) t := fun _ _ => .ok .refl

/-- Nothing is done. -/
theorem stay (x : α) : sys.Walks takes limit s (Pure.pure x) fun _ => s := fun _ _ => .ok .refl

theorem throw {e : Fault} (raised : e.Raised) : sys.Walks takes limit s (throw e) t :=
  fun m _ => .error raised .refl (.refl m)

theorem bind {a : Run (Recorded μ σ) μ σ α} {f : α → Run (Recorded μ σ) μ σ β} (first : sys.Walks takes limit s a t)
    (rest : ∀ x, sys.Walks takes limit (t x) (f x) u) : sys.Walks takes limit s (a >>= f) u := by
  intro m sits
  have came := first m sits
  show sys.Comes takes s m u (EStateM.bind a f m)
  unfold EStateM.bind
  generalize a m = r at came
  cases came with
  | ok deeds => exact (rest _ _ (deeds.sits sits)).after deeds
  | error raised deeds broken => exact .error raised deeds broken

theorem ite {c : Prop} [Decidable c] {a b : Run (Recorded μ σ) μ σ α} (yes : c → sys.Walks takes limit s a t)
    (no : ¬ c → sys.Walks takes limit s b t) : sys.Walks takes limit s (if c then a else b) t := by
  split
  · exact yes ‹_›
  · exact no ‹_›

/-- The depth is the one of the innermost place. -/
theorem depth {f : Nat → Run (Recorded μ σ) μ σ α} (rest : sys.Walks takes limit (.within (p :: path)) (f p.depth) t) :
    sys.Walks takes limit (.within (p :: path)) (Run.depth >>= f) t := by
  intro m sits
  have same : (Run.depth >>= f) m = f p.depth m := congrArg (f · m) sits.depth
  rw [same]
  exact rest m sits

end Walks

/-! ## Things aside -/

namespace Incidental

theorem of_ok {a : Run (Recorded μ σ) μ σ α} (h : ∀ m, ∃ x m', a m = .ok x m' ∧ Aside takes m m') :
    Incidental takes a := by
  intro m
  obtain ⟨x, m', ok, aside⟩ := h m
  rw [ok]
  exact aside

/-- The context is changed, the recursion guard apart. -/
theorem onContext {f : Context σ → Context σ}
    (keeps : ∀ c, (f c).depth = c.depth ∧ (f c).maxDepth = c.maxDepth ∧ (f c).stack = c.stack ∧
      (f c).overflow = c.overflow) : Incidental takes (Run.onContext (ρ := Recorded μ σ) (μ := μ) f) :=
  of_ok fun m => by
    obtain ⟨depth, maxDepth, stack, overflow⟩ := keeps m.context
    exact ⟨(), _, rfl, ⟨depth, maxDepth, stack⟩, .inl overflow, fun _ => rfl, rfl, rfl⟩

theorem reading {f : Machine (Recorded μ σ) μ σ → α} : Incidental takes (fun m => .ok (f m) m) :=
  of_ok fun m => ⟨_, m, rfl, .refl m⟩

theorem memory {f : Machine (Recorded μ σ) μ σ → α} {g : Machine (Recorded μ σ) μ σ → μ} :
    Incidental takes (fun m => .ok (f m) (m.withMemory (g m))) :=
  of_ok fun _ => ⟨_, _, rfl, ⟨rfl, rfl, rfl⟩, .inl rfl, fun _ => rfl, rfl, rfl⟩

theorem report {d : Diagnostic} : Incidental takes (Run.report (ρ := Recorded μ σ) (μ := μ) (σ := σ) d) :=
  of_ok fun _ => ⟨(), _, rfl, ⟨rfl, rfl, rfl⟩, .inl rfl, fun _ => rfl, rfl, rfl⟩

theorem takeReturn : Incidental takes (Run.takeReturn (ρ := Recorded μ σ) (μ := μ) (σ := σ)) :=
  of_ok fun _ => ⟨_, _, rfl, ⟨rfl, rfl, rfl⟩, .inl rfl, fun _ => rfl, rfl, rfl⟩

theorem takeOverflow (may : takes) : Incidental takes (Run.takeOverflow (ρ := Recorded μ σ) (μ := μ) (σ := σ)) :=
  of_ok fun _ => ⟨_, _, rfl, ⟨rfl, rfl, rfl⟩, .inr may, fun _ => rfl, rfl, rfl⟩

/-- Something is changed in the store beside the slots. -/
theorem store {f : Machine (Recorded μ σ) μ σ → α} {g : Machine (Recorded μ σ) μ σ → Store σ → Store σ}
    (slots : ∀ m s q, (g m s).slot q = s.slot q) (height : ∀ m s, (g m s).height = s.height) :
    Incidental takes (fun m => .ok (f m) (m.onRuns (Stage.recording.onStore (g m)))) :=
  of_ok fun m => ⟨_, _, rfl, ⟨rfl, rfl, rfl⟩, .inl rfl, fun q => slots m _ q, height m _, rfl⟩

/-- An event goes out, or the board holds something else in its place. -/
theorem trace {tag : String} {x y : UInt64} :
    Incidental takes (Run.trace (ρ := Recorded μ σ) (μ := μ) (σ := σ) tag x y) := by
  intro m
  obtain ⟨_, _, ran⟩ | ⟨_, raised, ran⟩ := Run.trace_spec tag x y m <;> rw [ran]
  · exact ⟨⟨rfl, rfl, rfl⟩, .inl rfl, fun _ => rfl, rfl, rfl⟩
  · exact ⟨Board.emit_raised raised, ⟨rfl, rfl, rfl⟩, .inl rfl, fun _ => rfl, rfl, rfl⟩

end Incidental

/-! ## Inside the tick of an ordinary node -/

variable (sys) in
/-- The place has an ordinary node. -/
structure Working (p : Place) (node : Node μ σ) : Prop where
  here : sys.nodeAt p.site = some node
  ordinary : node.Ordinary

variable (sys takes limit) in
/-- The node at an address, so many calls deep, may be ticked wherever it is met and reset in any state. -/
structure Fares (site : Address) (d : Nat) (b : Behaviour (Recorded μ σ) μ σ) : Prop where
  tick : ∀ path, sys.Under path ⟨site, d⟩ → sys.Walks takes limit (.within path) b.tick fun _ => .within path
  reset : ∀ m depth fire, sys.Followable m.runs.store →
    ∃ m', b.reset depth fire m = .ok () m' ∧ sys.Swept ⟨site, depth⟩ (fun _ => False) m m'

variable (sys) in
/-- Resets of whole trees that callbacks start succeed and sweep. -/
def SweepingHost (host : Host (Recorded μ σ) μ σ) : Prop :=
  ∀ tree fire m, sys.Followable m.runs.store →
    ∃ m', host.resetTree tree fire m = .ok () m' ∧ sys.Swept ⟨[tree], 0⟩ (fun _ => False) m m'

namespace Working

variable (w : sys.Working p node)
include w

theorem aside {a : Run (Recorded μ σ) μ σ α} (h : Incidental takes a) :
    sys.Walks takes limit (.within (p :: path)) a fun _ => .within (p :: path) := by
  intro m _
  have happened := h m
  generalize a m = r at happened
  cases r with
  | ok x m' => exact .ok (Deed.aside w.here w.ordinary happened).deeds
  | error e m' => exact .error happened.1 .refl happened.2.broken

theorem keep {slot : Slot σ} (none : slot.child? = none) :
    sys.Walks takes limit (.within (p :: path)) ((Stage.recording.cell p.site).keep p.depth slot)
      fun _ => .within (p :: path) :=
  fun m _ => .ok (Deed.wrote w.here w.ordinary (fun i h => by cases h; cases none) (.set m p slot)).deeds

theorem keepChild {i : Nat} (inside : i < node.children.length) :
    sys.Walks takes limit (.within (p :: path)) ((Stage.recording.cell p.site).keep p.depth (.child i))
      fun _ => .within (p :: path) :=
  fun m _ => .ok (Deed.wrote w.here w.ordinary (fun j h => by cases h; exact inside) (.set m p (.child i))).deeds

theorem forget : sys.Walks takes limit (.within (p :: path)) ((Stage.recording.cell p.site).forget p.depth)
    fun _ => .within (p :: path) :=
  fun m _ => .ok (Deed.wrote w.here w.ordinary (fun _ h => by cases h) (.reset m p)).deeds

theorem take : sys.Walks takes limit (.within (p :: path)) ((Stage.recording.cell p.site).take p.depth)
    fun _ => .within (p :: path) :=
  fun m _ => .ok (Deed.wrote w.here w.ordinary (fun _ h => by cases h) (.reset m p)).deeds

theorem finish (st : Status) :
    sys.Walks takes limit (.within (p :: path)) (pure st) (.leaving (p :: path)) :=
  fun _ _ => .ok (Deed.ended st w.here w.ordinary).deeds

/-- A child is ticked. -/
theorem tick {b : Behaviour (Recorded μ σ) μ σ} {i : Nat} (child : sys.Fares takes limit (i :: p.site) p.depth b) :
    sys.Walks takes limit (.within (p :: path)) b.tick fun _ => .within (p :: path) :=
  child.tick _ ⟨node, i, w.here, w.ordinary, rfl⟩

/-- Something that is reset is swept. -/
theorem sweep {a : Run (Recorded μ σ) μ σ Unit} {q : Place}
    (h : ∀ m, sys.Followable m.runs.store → ∃ m', a m = .ok () m' ∧ sys.Swept q (fun _ => False) m m') :
    sys.Walks takes limit (.within (p :: path)) a fun _ => .within (p :: path) := by
  intro m sits
  obtain ⟨m', ok, swept⟩ := h m sits.followable
  rw [ok]
  exact .ok (Deed.swept w.here w.ordinary swept).deeds

theorem reset {b : Behaviour (Recorded μ σ) μ σ} {i : Nat} (child : sys.Fares takes limit (i :: p.site) p.depth b)
    (fire : Bool) :
    sys.Walks takes limit (.within (p :: path)) (b.reset p.depth fire) fun _ => .within (p :: path) :=
  w.sweep fun m followable => child.reset m p.depth fire followable

/-- A callback that ticks no tree. -/
theorem callback {host : Host (Recorded μ σ) μ σ} (resets : sys.SweepingHost host) {body : Callback μ σ α}
    (modest : body.Modest takes) :
    sys.Walks takes limit (.within (p :: path)) (body.run host) fun _ => .within (p :: path) := by
  induction body with
  | done x => exact .stay x
  | look next ih => exact fun m => ih m.context m.memory (modest _ _) m
  | remember f next ih => exact (w.aside .memory).bind fun _ => ih modest
  | edit reach e next ih | setGlobal t id x next ih | requestReturn s next ih =>
    exact .bind (w.aside (.onContext fun _ => ⟨rfl, rfl, rfl, rfl⟩)) fun _ => ih modest
  | takeReturn next ih => exact (w.aside .takeReturn).bind fun _ => ih _ (modest _)
  | takeOverflow next ih => exact (w.aside (.takeOverflow modest.1)).bind fun _ => ih _ (modest.2 _)
  | trace tag x y next ih => exact (w.aside .trace).bind fun _ => ih modest
  | tickTree => exact absurd modest id
  | resetTree tree fire next ih => exact (w.sweep (resets tree fire)).bind fun _ => ih modest

end Working

end System

end BehaviorTree
