/-
  BehaviorTree.Proofs.Accord: two runs that differ in what no node looks at.

  Two machines may differ in something that is none of the nodes' business: what is installed
  beside the board, how much a recursion guard would still let through, what else the memory
  holds. An accord says how, and that the steps of the nodes keep it up (`Accord`). Runs in
  accord then end alike, with the same answer or the same fault (`Accord.Paired`), and this is
  put together bind by bind. In the second run something may happen that ends the comparison:
  nothing is claimed of runs whose records are not `fine` at the end.

  How deep in calls and overlays the two machines are may matter to an accord, so it is indexed.
-/

import BehaviorTree.Node.Behaviour
import BehaviorTree.Proofs.Lockstep
import BehaviorTree.Proofs.Run

namespace BehaviorTree

variable {ρ μ μ' σ α β : Type}

/-- The machine with its context changed. -/
def Machine.onContext (m : Machine ρ μ σ) (f : Context σ → Context σ) : Machine ρ μ σ :=
  { m with context := f m.context }

/-- The machine with one more record. -/
def Machine.report (m : Machine ρ μ σ) (d : Diagnostic) : Machine ρ μ σ := { m with journal := m.journal.push d }

/-- A new innermost overlay is put in place. -/
def Context.pushed (b : Board) (c : Context σ) : Context σ := { c with layers := c.layers.push b }

/-- The innermost overlay is taken off. -/
def Context.popped (c : Context σ) : Context σ :=
  { c with layers := { c.layers with overlays := c.layers.overlays.tail } }

/-- Two results are alike: the same answer, or the same fault. -/
inductive Ended (rel : Machine ρ μ σ → Machine ρ μ' σ → Prop) (broken : Machine ρ μ σ → Machine ρ μ' σ → Prop) :
    EStateM.Result Fault (Machine ρ μ σ) α → EStateM.Result Fault (Machine ρ μ' σ) α → Prop
  | ok {m : Machine ρ μ σ} {m' : Machine ρ μ' σ} (x : α) : rel m m' → Ended rel broken (.ok x m) (.ok x m')
  | error {m : Machine ρ μ σ} {m' : Machine ρ μ' σ} (e : Fault) :
      broken m m' → Ended rel broken (.error e m) (.error e m')

theorem Ended.of_right {rel broken : Machine ρ μ σ → Machine ρ μ' σ → Prop}
    {r : EStateM.Result Fault (Machine ρ μ σ) α} {x : α} {n : Machine ρ μ' σ} (h : Ended rel broken r (.ok x n)) :
    ∃ m, r = .ok x m ∧ rel m n := by
  cases h with
  | ok _ related => exact ⟨_, rfl, related⟩

/-- How two machines may differ, so that what nodes do first of all does not depend on it. -/
structure Accord (ρ μ μ' σ : Type) where
  Index : Type
  rel : Index → Machine ρ μ σ → Machine ρ μ' σ → Prop
  /-- The records of the second run so far leave it comparable. -/
  fine : Array Diagnostic → Prop
  /-- One call deeper. -/
  call : Index → Index
  /-- Under one overlay more. -/
  overlay : Index → Index
  fine_of_push : ∀ {journal d}, fine (journal.push d) → fine journal
  depth : ∀ {i m m'}, rel i m m' → m.context.depth = m'.context.depth
  delta : ∀ {i m m'}, rel i m m' → m.context.delta = m'.context.delta
  request : ∀ {i m m'}, rel i m m' → m.context.returnRequest = m'.context.returnRequest
  state : ∀ {i m m'}, rel i m m' → m.context.state = m'.context.state
  setRequest : ∀ {i m m'} s, rel i m m' →
    rel i (m.onContext ({ · with returnRequest := s })) (m'.onContext ({ · with returnRequest := s }))
  setState : ∀ {i m m'} s, rel i m m' →
    rel i (m.onContext ({ · with state := s })) (m'.onContext ({ · with state := s }))
  recordOverflow : ∀ {i m m'} o, rel i m m' →
    rel i (m.onContext (·.recordOverflow o)) (m'.onContext (·.recordOverflow o))
  report : ∀ {i m m'} d, rel i m m' → rel i (m.report d) (m'.report d)
  trace : ∀ {i m m'} tag x y, rel i m m' →
    Ended (rel i) (fun n n' => ∃ k, rel k n n') (Run.trace tag x y m) (Run.trace tag x y m')
  pushed : ∀ {i m m'} b, rel i m m' → rel (overlay i) (m.onContext (·.pushed b)) (m'.onContext (·.pushed b))
  innermost : ∀ {i m m'}, rel (overlay i) m m' → m.context.layers.innermost = m'.context.layers.innermost
  popped : ∀ {i m m'}, rel (overlay i) m m' → rel i (m.onContext (·.popped)) (m'.onContext (·.popped))
  entered : ∀ {i m m' c'} tree, rel i m m' → m'.context.enter tree = .ok c' →
    ∃ c, m.context.enter tree = .ok c ∧ rel (call i) { m with context := c } { m' with context := c' }
  /-- Both runs are refused a call, or that ends the comparison. -/
  refused : ∀ {i m m' o} tree, rel i m m' → m'.context.enter tree = .error o →
    m.context.enter tree = .error o ∨ ¬ fine (m'.journal.push (.refused o))
  left : ∀ {i m m'}, rel (call i) m m' → rel i (m.onContext (·.leave)) (m'.onContext (·.leave))

namespace Accord

variable {A : Accord ρ μ μ' σ} {i j k : A.Index}

variable (A) in
/-- What is fine at the end was fine at the start. -/
def Backs (b : Run ρ μ' σ α) : Prop := ∀ m', A.fine (b.last m').journal → A.fine m'.journal

variable (A) in
/-- The runs start in accord, and end alike and in accord. -/
structure Paired (i j : A.Index) (a : Run ρ μ σ α) (b : Run ρ μ' σ α) : Prop where
  before : A.Backs b
  agree : ∀ m m', A.rel i m m' → A.fine (b.last m').journal →
    Ended (A.rel j) (fun n n' => ∃ k, A.rel k n n') (a m) (b m')

variable (A) in
/-- Two behaviours that tick and reset alike. -/
structure Goes (i : A.Index) (b : Behaviour ρ μ σ) (b' : Behaviour ρ μ' σ) : Prop where
  tick : A.Paired i i b.tick b'.tick
  reset : ∀ k d fire, A.Paired k k (b.reset d fire) (b'.reset d fire)

variable (A) in
/-- The slots of a node are the same in both machines. -/
structure Cells (cell : Cell ρ σ) : Prop where
  get : ∀ {i m m'} d, A.rel i m m' → cell.get m.runs d = cell.get m'.runs d
  set : ∀ {i m m'} d x, A.rel i m m' → A.rel i (m.onRuns (cell.set · d x)) (m'.onRuns (cell.set · d x))
  reset : ∀ {i m m'} d, A.rel i m m' → A.rel i (m.onRuns (cell.reset · d)) (m'.onRuns (cell.reset · d))

/-! ## Runs put together -/

theorem fine_of_bind {b : Run ρ μ' σ α} {g : α → Run ρ μ' σ β} (rest : ∀ x, A.Backs (g x)) {m' : Machine ρ μ' σ}
    (h : A.fine ((b >>= g).last m').journal) : A.fine (b.last m').journal := by
  replace h : A.fine (Run.last (EStateM.bind b g) m').journal := h
  unfold Run.last EStateM.bind at h
  unfold Run.last
  cases hb : b m' with
  | ok y n' =>
    rw [hb] at h
    exact rest y n' h
  | error e n' =>
    rw [hb] at h
    exact h

theorem Backs.bind {b : Run ρ μ' σ α} {g : α → Run ρ μ' σ β} (first : A.Backs b) (rest : ∀ x, A.Backs (g x)) :
    A.Backs (b >>= g) := fun m' h => first m' (fine_of_bind rest h)

/-- A step that writes no record. -/
theorem Backs.silent {b : Run ρ μ' σ α} {x : Machine ρ μ' σ → α} {g : Machine ρ μ' σ → Machine ρ μ' σ}
    (ran : ∀ m', b m' = .ok (x m') (g m')) (silent : ∀ m', (g m').journal = m'.journal) : A.Backs b := fun m' h => by
  rwa [Run.last_ok (ran m'), silent] at h

namespace Paired

theorem pure (x : α) : A.Paired i i (pure x) (pure x) := ⟨fun _ h => h, fun _ _ h _ => .ok x h⟩

theorem throw (e : Fault) : A.Paired i j (throw e : Run ρ μ σ α) (throw e) :=
  ⟨fun _ h => h, fun _ _ h _ => .error e ⟨i, h⟩⟩

theorem bind {a : Run ρ μ σ α} {b : Run ρ μ' σ α} {f : α → Run ρ μ σ β} {g : α → Run ρ μ' σ β}
    (first : A.Paired i j a b) (rest : ∀ x, A.Paired j k (f x) (g x)) : A.Paired i k (a >>= f) (b >>= g) := by
  refine ⟨first.before.bind fun x => (rest x).before, fun m m' related h => ?_⟩
  have agreed := first.agree m m' related (fine_of_bind (fun x => (rest x).before) h)
  replace h : A.fine (Run.last (EStateM.bind b g) m').journal := h
  show Ended _ _ (EStateM.bind a f m) (EStateM.bind b g m')
  unfold Run.last EStateM.bind at h
  unfold EStateM.bind
  generalize a m = x at agreed
  generalize b m' = y at agreed h
  cases agreed with
  | ok x related => exact (rest x).agree _ _ related h
  | error e related => exact .error e related

theorem ite {c : Prop} [Decidable c] {a a' : Run ρ μ σ α} {b b' : Run ρ μ' σ α} (yes : A.Paired i j a b)
    (no : A.Paired i j a' b') : A.Paired i j (if c then a else a') (if c then b else b') := by
  split
  · exact yes
  · exact no

/-- A step that always goes well and writes no record. -/
theorem step {a : Run ρ μ σ α} {b : Run ρ μ' σ α} (x : Machine ρ μ' σ → α) (f : Machine ρ μ σ → Machine ρ μ σ)
    (g : Machine ρ μ' σ → Machine ρ μ' σ) (left : ∀ m m', A.rel i m m' → a m = .ok (x m') (f m))
    (right : ∀ m', b m' = .ok (x m') (g m')) (silent : ∀ m', (g m').journal = m'.journal)
    (keeps : ∀ m m', A.rel i m m' → A.rel j (f m) (g m')) : A.Paired i j a b where
  before := .silent right silent
  agree m m' h _ := by
    rw [left m m' h, right]
    exact .ok _ (keeps m m' h)

/-- Both runs go on with something that is the same in both machines. -/
theorem reading {τ : Type} {f : τ → Run ρ μ σ α} {g : τ → Run ρ μ' σ α} {r : Machine ρ μ σ → τ}
    {s : Machine ρ μ' σ → τ} (rest : ∀ x, A.Paired i j (f x) (g x)) (same : ∀ m m', A.rel i m m' → r m = s m') :
    A.Paired i j (fun m => f (r m) m) (fun m => g (s m) m) where
  before m' := (rest (s m')).before m'
  agree m m' h fine := by
    show Ended _ _ (f (r m) m) (g (s m') m')
    rw [same m m' h]
    exact (rest (s m')).agree m m' h fine

/-! ## The steps of the nodes -/

theorem onContext {f : Context σ → Context σ}
    (keeps : ∀ m m', A.rel i m m' → A.rel j (m.onContext f) (m'.onContext f)) :
    A.Paired i j (Run.onContext f) (Run.onContext f) :=
  .step (fun _ => ()) (·.onContext f) (·.onContext f) (fun _ _ _ => rfl) (fun _ => rfl) (fun _ => rfl) keeps

theorem depth : A.Paired i i (Run.depth : Run ρ μ σ Nat) Run.depth :=
  .step (·.context.depth) id id (fun m m' h => by rw [← A.depth h]; rfl) (fun _ => rfl) (fun _ => rfl) fun _ _ h => h

theorem delta : A.Paired i i (Run.delta : Run ρ μ σ Float32) Run.delta :=
  .step (·.context.delta) id id (fun m m' h => by rw [← A.delta h]; rfl) (fun _ => rfl) (fun _ => rfl) fun _ _ h => h

theorem returning : A.Paired i i (Run.returning : Run ρ μ σ Bool) Run.returning :=
  .step (·.context.returnRequest.isSome) id id (fun m m' h => by rw [← A.request h]; rfl) (fun _ => rfl) (fun _ => rfl)
    fun _ _ h => h

theorem requestReturn (s : Status) : A.Paired i i (Run.requestReturn s : Run ρ μ σ Unit) (Run.requestReturn s) :=
  onContext fun _ _ h => A.setRequest (some s) h

theorem takeReturn : A.Paired i i (Run.takeReturn : Run ρ μ σ (Option Status)) Run.takeReturn :=
  .step (·.context.returnRequest) (·.onContext ({ · with returnRequest := none }))
    (·.onContext ({ · with returnRequest := none })) (fun m m' h => by rw [← A.request h]; rfl) (fun _ => rfl)
    (fun _ => rfl) fun _ _ h => A.setRequest none h

theorem report (d : Diagnostic) : A.Paired i i (Run.report d : Run ρ μ σ Unit) (Run.report d) where
  before _ h := A.fine_of_push h
  agree _ _ h _ := .ok () (A.report d h)

/-- A sink may write a record, or a wrong object stop the run. -/
theorem trace (tag : String) (x y : UInt64) :
    A.Paired i i (Run.trace tag x y : Run ρ μ σ Unit) (Run.trace tag x y) where
  before m' h := by
    unfold Run.last Run.trace at h
    generalize m'.context.layers.root.emit ⟨m'.context.tick, tag, x, y⟩ = r at h
    obtain ⟨root, fault | delivery⟩ := r
    · exact h
    · rcases delivery with _ | (e | e)
      · exact h
      · exact h
      · exact A.fine_of_push h
  agree _ _ h _ := A.trace tag x y h

/-- Both runs go on with the caller's state. -/
theorem caller {f : Option σ → Run ρ μ σ α} {g : Option σ → Run ρ μ' σ α} (rest : ∀ s, A.Paired i j (f s) (g s)) :
    A.Paired i j (do f (← Run.context).state) (do g (← Run.context).state) :=
  reading rest fun _ _ h => A.state h

theorem withState {a : Run ρ μ σ α} {b : Run ρ μ' σ α} (s : Option σ) (work : A.Paired i i a b) :
    A.Paired i i (Run.withState s a) (Run.withState s b) :=
  caller (f := fun before => do
      Run.onContext ({ · with state := s })
      let result ← a
      Run.onContext ({ · with state := before })
      return result)
    fun before => (onContext fun _ _ h => A.setState s h).bind fun _ => work.bind fun _ =>
      (onContext fun _ _ h => A.setState before h).bind fun _ => .pure _

/-- An overlay is in place meanwhile. -/
theorem overlaid {a : Run ρ μ σ α} {b : Run ρ μ' σ α} {f : α → Board → Run ρ μ σ β} {g : α → Board → Run ρ μ' σ β}
    (board : Board) (work : A.Paired (A.overlay i) (A.overlay i) a b)
    (rest : ∀ x board, A.Paired i j (f x board) (g x board)) :
    A.Paired i j
      (do Run.onContext (·.pushed board); let x ← a; let layers := (← Run.context).layers
          Run.onContext (·.popped); f x layers.innermost)
      (do Run.onContext (·.pushed board); let x ← b; let layers := (← Run.context).layers
          Run.onContext (·.popped); g x layers.innermost) := by
  refine (onContext fun _ _ h => A.pushed board h).bind fun _ => work.bind fun x => ?_
  exact reading (f := fun board => do Run.onContext (·.popped); f x board)
    (fun board => (onContext fun _ _ h => A.popped h).bind fun _ => rest x board) fun _ _ h => A.innermost h

/-- A refused call is recorded, told and kept for the end of the tick. -/
theorem refuse (o : Overflow) : A.Paired i i (Run.refuse o : Run ρ μ σ Unit) (Run.refuse o) :=
  (report _).bind fun _ => (trace ..).bind fun _ => onContext fun _ _ h => A.recordOverflow o h

/-- The record of the refusal is still there at the end, so it was fine when it was written. -/
theorem fine_of_refuse {i : A.Index} {o : Overflow} {g : Run ρ μ' σ α} (rest : A.Backs g) {m' : Machine ρ μ' σ}
    (h : A.fine ((do Run.refuse o; g : Run ρ μ' σ α).last m').journal) : A.fine (m'.journal.push (.refused o)) := by
  have told : A.fine ((Run.refuse o).last m').journal := fine_of_bind (fun _ => rest) h
  exact fine_of_bind (b := Run.report (.refused o))
    (fun _ => ((trace (i := i) ..).bind fun _ => onContext fun _ _ h => A.recordOverflow o h).before) told

/-- A call is entered, or both runs are refused it. -/
theorem enter {a : Run ρ μ σ α} {b : Run ρ μ' σ α} {f : Overflow → Run ρ μ σ α} {g : Overflow → Run ρ μ' σ α}
    (tree : String) (work : A.Paired (A.call i) j a b) (without : ∀ o, A.Paired i j (f o) (g o)) :
    A.Paired i j
      (do match ← Run.enter tree with
          | some o => do Run.refuse o; f o
          | none => a)
      (do match ← Run.enter tree with
          | some o => do Run.refuse o; g o
          | none => b) := by
  have goesOn : ∀ o, A.Paired i j (do Run.refuse o; f o) (do Run.refuse o; g o) := fun o =>
    (refuse o).bind fun _ => without o
  refine ⟨fun m' h => ?_, fun m m' related h => ?_⟩
  · unfold Run.last at h
    cases entered : m'.context.enter tree with
    | ok c' =>
      rw [Run.enter_bind_ok entered] at h
      exact work.before { m' with context := c' } h
    | error o =>
      rw [Run.enter_bind_error entered] at h
      exact (goesOn o).before m' h
  · unfold Run.last at h
    cases entered : m'.context.enter tree with
    | ok c' =>
      obtain ⟨c, entered', below⟩ := A.entered tree related entered
      rw [Run.enter_bind_ok entered] at h ⊢
      rw [Run.enter_bind_ok entered']
      exact work.agree _ _ below h
    | error o =>
      rw [Run.enter_bind_error entered] at h ⊢
      have fine : A.fine (m'.journal.push (.refused o)) := fine_of_refuse (i := i) (without o).before h
      have entered' := (A.refused tree related entered).resolve_right (not_not_intro fine)
      rw [Run.enter_bind_error entered']
      exact (goesOn o).agree m m' related h

/-! ## Slots -/

section
variable {cell : Cell ρ σ} (c : A.Cells cell) (d : Nat)
include c

theorem read : A.Paired i i (cell.read d : Run ρ μ σ (Slot σ)) (cell.read d) :=
  .step (cell.get ·.runs d) id id (fun m m' h => by rw [← c.get d h]; rfl) (fun _ => rfl) (fun _ => rfl) fun _ _ h => h

theorem keep (x : Slot σ) : A.Paired i i (cell.keep d x : Run ρ μ σ Unit) (cell.keep d x) :=
  .step (fun _ => ()) (·.onRuns (cell.set · d x)) (·.onRuns (cell.set · d x)) (fun _ _ _ => rfl) (fun _ => rfl)
    (fun _ => rfl) fun _ _ h => c.set d x h

theorem forget : A.Paired i i (cell.forget d : Run ρ μ σ Unit) (cell.forget d) :=
  .step (fun _ => ()) (·.onRuns (cell.reset · d)) (·.onRuns (cell.reset · d)) (fun _ _ _ => rfl) (fun _ => rfl)
    (fun _ => rfl) fun _ _ h => c.reset d h

theorem take : A.Paired i i (cell.take d : Run ρ μ σ (Slot σ)) (cell.take d) :=
  .step (cell.get ·.runs d) (·.onRuns (cell.reset · d)) (·.onRuns (cell.reset · d))
    (fun m m' h => by rw [← c.get d h]; rfl) (fun _ => rfl) (fun _ => rfl) fun _ _ h => c.reset d h

end

end Paired

end Accord

end BehaviorTree
