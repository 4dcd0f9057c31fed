/-
  BehaviorTree.Proofs.Lockstep: two runs, side by side.

  Two machines go on in lockstep when they differ in their run states only, and these are
  related (`Along`). A lockstep is put together bind by bind: both runs do the same, and
  what the one answers is a function of what the other answers (`Sim.bind`). The second
  run may come to run states that are not `fine`; nothing is claimed of a run that ends
  with such, and once they are not fine they stay so.
-/

import BehaviorTree.Callback
import BehaviorTree.Proofs.Run

namespace BehaviorTree

variable {ρ ρ' μ σ α β γ δ : Type}

/-- The machines differ in their run states only. -/
structure Machine.Same (m : Machine ρ μ σ) (m' : Machine ρ' μ σ) : Prop where
  context : m.context = m'.context
  memory : m.memory = m'.memory
  journal : m.journal = m'.journal
  heard : m.heard = m'.heard

namespace Machine.Same

variable {ρ'' : Type} {m : Machine ρ μ σ} {m' : Machine ρ' μ σ} {m'' : Machine ρ'' μ σ}

theorem symm (h : m.Same m') : m'.Same m := ⟨h.context.symm, h.memory.symm, h.journal.symm, h.heard.symm⟩

theorem trans (h : m.Same m') (k : m'.Same m'') : m.Same m'' :=
  ⟨h.context.trans k.context, h.memory.trans k.memory, h.journal.trans k.journal, h.heard.trans k.heard⟩

end Machine.Same

/-- At this call depth the machines differ in their run states only, which are related. -/
structure Along (R : ρ → ρ' → Prop) (depth : Nat) (m : Machine ρ μ σ) (m' : Machine ρ' μ σ) : Prop where
  same : m.Same m'
  depth : m'.context.depth = depth
  runs : R m.runs m'.runs

/-- The machine at the end of a run, which may be a fault. -/
def Run.last (a : Run ρ μ σ α) (m : Machine ρ μ σ) : Machine ρ μ σ :=
  match a m with
  | .ok _ n => n
  | .error _ n => n

theorem Run.last_ok {a : Run ρ μ σ α} {m n : Machine ρ μ σ} {x : α} (h : a m = .ok x n) : a.last m = n := by
  simp [last, h]

/-- Two results agree: the answers up to `φ`, the faults as they are. -/
inductive Agree (φ : β → α) (post : Machine ρ μ σ → Machine ρ' μ σ → Prop) :
    EStateM.Result Fault (Machine ρ μ σ) α → EStateM.Result Fault (Machine ρ' μ σ) β → Prop
  | ok {m : Machine ρ μ σ} {m' : Machine ρ' μ σ} (y : β) : post m m' → Agree φ post (.ok (φ y) m) (.ok y m')
  | error {m : Machine ρ μ σ} {m' : Machine ρ' μ σ} (e : Fault) : m.Same m' → Agree φ post (.error e m) (.error e m')

namespace Agree

theorem mono {φ : β → α} {post post' : Machine ρ μ σ → Machine ρ' μ σ → Prop}
    {x : EStateM.Result Fault (Machine ρ μ σ) α}
    {y : EStateM.Result Fault (Machine ρ' μ σ) β} (h : Agree φ post x y) (k : ∀ m m', post m m' → post' m m') :
    Agree φ post' x y := by
  cases h with
  | ok y h => exact .ok y (k _ _ h)
  | error e h => exact .error e h

variable {ρ'' : Type} {post : Machine ρ μ σ → Machine ρ' μ σ → Prop} {x : EStateM.Result Fault (Machine ρ μ σ) α}
  {y : EStateM.Result Fault (Machine ρ' μ σ) α}

theorem of_left {m : Machine ρ μ σ} {answer : α} (h : Agree id post x y) (left : x = .ok answer m) :
    ∃ m', y = .ok answer m' ∧ post m m' := by
  cases h with
  | ok y h =>
    cases left
    exact ⟨_, rfl, h⟩
  | error => cases left

theorem of_right {m' : Machine ρ' μ σ} {answer : α} (h : Agree id post x y) (right : y = .ok answer m') :
    ∃ m, x = .ok answer m ∧ post m m' := by
  cases h with
  | ok y h =>
    cases right
    exact ⟨_, rfl, h⟩
  | error => cases right

/-- Two results that agree with a third one agree. -/
theorem join {post : Machine ρ μ σ → Machine ρ'' μ σ → Prop} {post' : Machine ρ' μ σ → Machine ρ'' μ σ → Prop}
    {z : EStateM.Result Fault (Machine ρ'' μ σ) α} (h : Agree id post x z) (k : Agree id post' y z)
    (same : ∀ m m'', post m m'' → m.Same m'') (same' : ∀ m' m'', post' m' m'' → m'.Same m'') :
    Agree id Machine.Same x y := by
  cases h with
  | ok z h => cases k with
    | ok _ k => exact .ok z ((same _ _ h).trans (same' _ _ k).symm)
  | error e h => cases k with
    | error _ k => exact .error e (h.trans k.symm)

end Agree

/-- From related machines the two runs agree, if the second one ends fine. -/
structure Sim (fine : ρ' → Prop) (pre : Machine ρ μ σ → Machine ρ' μ σ → Prop) (φ : β → α) (a : Run ρ μ σ α)
    (b : Run ρ' μ σ β) (post : Machine ρ μ σ → Machine ρ' μ σ → Prop) : Prop where
  /-- What is fine at the end was fine at the start. -/
  before : ∀ m', fine (b.last m').runs → fine m'.runs
  agree : ∀ m m', pre m m' → fine (b.last m').runs → Agree φ post (a m) (b m')

namespace Sim

variable {fine : ρ' → Prop} {pre mid post : Machine ρ μ σ → Machine ρ' μ σ → Prop} {φ : β → α} {ψ : δ → γ}

theorem pure (y : β) : Sim fine pre φ (pure (φ y)) (pure y : Run ρ' μ σ β) pre where
  before _ h := h
  agree _ _ h _ := .ok y h

theorem throw {e : Fault} (same : ∀ m m', pre m m' → m.Same m') :
    Sim fine pre φ (throw e : Run ρ μ σ α) (throw e : Run ρ' μ σ β) post where
  before _ h := h
  agree _ _ h _ := .error e (same _ _ h)

theorem bind {a : Run ρ μ σ α} {b : Run ρ' μ σ β} {f : α → Run ρ μ σ γ} {g : β → Run ρ' μ σ δ}
    (first : Sim fine pre φ a b mid) (rest : ∀ y, Sim fine mid ψ (f (φ y)) (g y) post) :
    Sim fine pre ψ (a >>= f) (b >>= g) post := by
  have through : ∀ m', fine ((b >>= g).last m').runs → fine (b.last m').runs := by
    intro m' h
    replace h : fine (Run.last (EStateM.bind b g) m').runs := h
    unfold Run.last EStateM.bind at h
    unfold Run.last
    cases hb : b m' with
    | ok y n' =>
      rw [hb] at h
      exact (rest y).before n' h
    | error e n' =>
      rw [hb] at h
      exact h
  refine ⟨fun m' h => first.before m' (through m' h), fun m m' related h => ?_⟩
  have agreed := first.agree m m' related (through m' h)
  replace h : fine (Run.last (EStateM.bind b g) m').runs := h
  show Agree ψ post (EStateM.bind a f m) (EStateM.bind b g m')
  unfold Run.last EStateM.bind at h
  unfold EStateM.bind
  generalize a m = x at agreed
  generalize b m' = y at agreed h
  cases agreed with
  | ok y related => exact (rest y).agree _ _ related h
  | error e same => exact .error e same

theorem ite {c : Prop} [Decidable c] {a a' : Run ρ μ σ α} {b b' : Run ρ' μ σ β} (yes : c → Sim fine pre φ a b post)
    (no : ¬ c → Sim fine pre φ a' b' post) :
    Sim fine pre φ (if c then a else a') (if c then b else b') post := by
  split
  · exact yes ‹_›
  · exact no ‹_›

theorem weaken {pre' post' : Machine ρ μ σ → Machine ρ' μ σ → Prop} {a : Run ρ μ σ α} {b : Run ρ' μ σ β}
    (h : Sim fine pre φ a b post) (before : ∀ m m', pre' m m' → pre m m') (after : ∀ m m', post m m' → post' m m') :
    Sim fine pre' φ a b post' where
  before := h.before
  agree m m' related ok := (h.agree m m' (before _ _ related) ok).mono after

/-- A step that always goes well. -/
theorem step {a : Run ρ μ σ α} {b : Run ρ' μ σ β} (answer : Machine ρ' μ σ → β) (next : Machine ρ' μ σ → Machine ρ' μ σ)
    (does : ∀ m', b m' = .ok (answer m') (next m')) (fresh : ∀ m', fine (next m').runs → fine m'.runs)
    (matched : ∀ m m', pre m m' → fine (next m').runs → ∃ n, a m = .ok (φ (answer m')) n ∧ post n (next m')) :
    Sim fine pre φ a b post where
  before m' h := fresh m' (by rwa [Run.last_ok (does m')] at h)
  agree m m' related h := by
    rw [Run.last_ok (does m')] at h
    obtain ⟨n, ha, hn⟩ := matched m m' related h
    rw [ha, does]
    exact .ok _ hn

/-- The second run does something first. -/
theorem beforehand {a : Run ρ μ σ α} {b : Run ρ' μ σ β} {first : Run ρ' μ σ Unit}
    {next : Machine ρ' μ σ → Machine ρ' μ σ}
    (rest : Sim fine mid φ a b post) (does : ∀ m', first m' = .ok () (next m'))
    (fresh : ∀ m', fine (next m').runs → fine m'.runs)
    (matched : ∀ m m', pre m m' → fine (next m').runs → mid m (next m')) :
    Sim fine pre φ a (first >>= fun _ => b) post := by
  have skips : ∀ m', (first >>= fun _ => b) m' = b (next m') := by
    intro m'
    show EStateM.bind _ _ _ = _
    simp only [EStateM.bind, does]
  refine ⟨fun m' h => ?_, fun m m' related h => ?_⟩
  · unfold Run.last at h
    rw [skips] at h
    exact fresh m' (rest.before _ h)
  · unfold Run.last at h
    rw [skips] at h ⊢
    exact rest.agree m _ (matched m m' related (rest.before _ h)) h

/-- The second run does something at the end. -/
theorem afterwards {a : Run ρ μ σ α} {b : Run ρ' μ σ β} {last : β → Run ρ' μ σ Unit}
    {next : β → Machine ρ' μ σ → Machine ρ' μ σ} (first : Sim fine pre φ a b mid)
    (does : ∀ y m', last y m' = .ok () (next y m')) (fresh : ∀ y m', fine (next y m').runs → fine m'.runs)
    (matched : ∀ y m m', mid m m' → fine (next y m').runs → post m (next y m')) :
    Sim fine pre φ a (do let y ← b; last y; return y) post := by
  rw [← bind_pure a]
  exact first.bind fun y => (Sim.pure y).beforehand (does y) (fresh y) (matched y)

/-- Both runs go on with something that is the same in both machines. -/
theorem reading {ι : Type} {a : ι → Run ρ μ σ α} {b : ι → Run ρ' μ σ β} {k : Machine ρ μ σ → ι}
    {k' : Machine ρ' μ σ → ι}
    (rest : ∀ x, Sim fine pre φ (a x) (b x) post) (same : ∀ m m', pre m m' → k m = k' m') :
    Sim fine pre φ (fun m => a (k m) m) (fun m => b (k' m) m) post where
  before m' := (rest (k' m')).before m'
  agree m m' related h := by
    show Agree φ post (a (k m) m) (b (k' m') m')
    rw [same m m' related]
    exact (rest (k' m')).agree m m' related h

end Sim

/-! ## Steps that leave the run states alone -/

section
variable {fine : ρ' → Prop} {R : ρ → ρ' → Prop} {d : Nat}

/-- In lockstep, with equal answers. -/
abbrev Lock (fine : ρ' → Prop) (R : ρ → ρ' → Prop) (d : Nat) (a : Run ρ μ σ α) (b : Run ρ' μ σ α) : Prop :=
  Sim fine (Along R d) id a b (Along R d)

namespace Lock

/-- With equal answers both runs go on alike. -/
theorem bind {φ : δ → γ} {a : Run ρ μ σ α} {b : Run ρ' μ σ α} {f : α → Run ρ μ σ γ} {g : α → Run ρ' μ σ δ}
    {post : Machine ρ μ σ → Machine ρ' μ σ → Prop} (first : Lock fine R d a b)
    (rest : ∀ y, Sim fine (Along R d) φ (f y) (g y) post) : Sim fine (Along R d) φ (a >>= f) (b >>= g) post :=
  Sim.bind first rest

/-- A step that changes the same in both machines, neither the depth nor the run states. -/
theorem alike {a : Run ρ μ σ α} {b : Run ρ' μ σ α} (answer : Context σ → μ → α) (context : Context σ → Context σ)
    (memory : Context σ → μ → μ) (journal : Array Diagnostic → Array Diagnostic)
    (keeps : ∀ c, (context c).depth = c.depth)
    (left : ∀ m, a m = .ok (answer m.context m.memory)
      ⟨context m.context, memory m.context m.memory, m.runs, journal m.journal, m.heard⟩)
    (right : ∀ m, b m = .ok (answer m.context m.memory)
      ⟨context m.context, memory m.context m.memory, m.runs, journal m.journal, m.heard⟩) : Lock fine R d a b :=
  .step _ _ right (fun _ h => h) fun m m' h _ => by
    obtain ⟨c, x, r, j, heard⟩ := m
    obtain ⟨⟨hc, hm, hj, hh⟩, hd, hr⟩ := h
    cases hc
    cases hm
    cases hj
    cases hh
    exact ⟨_, left _, ⟨rfl, rfl, rfl, rfl⟩, (keeps _).trans hd, hr⟩

/-- The board and the tick's other data may be changed, the depth aside. -/
theorem onContext {f : Context σ → Context σ} (keeps : ∀ c, (f c).depth = c.depth) :
    Lock fine R d (Run.onContext (μ := μ) f) (Run.onContext f) :=
  alike (fun _ _ => ()) f (fun _ x => x) id keeps (fun _ => rfl) fun _ => rfl

theorem context : Lock fine R d (Run.context (μ := μ) (σ := σ)) Run.context :=
  alike (fun c _ => c) id (fun _ x => x) id (fun _ => rfl) (fun _ => rfl) fun _ => rfl

theorem delta : Lock fine R d (Run.delta (μ := μ) (σ := σ)) Run.delta :=
  alike (fun c _ => c.delta) id (fun _ x => x) id (fun _ => rfl) (fun _ => rfl) fun _ => rfl

theorem returning : Lock fine R d (Run.returning (μ := μ) (σ := σ)) Run.returning :=
  alike (fun c _ => c.returnRequest.isSome) id (fun _ x => x) id (fun _ => rfl) (fun _ => rfl) fun _ => rfl

theorem takeReturn : Lock fine R d (Run.takeReturn (μ := μ) (σ := σ)) Run.takeReturn :=
  alike (fun c _ => c.returnRequest) (fun c => { c with returnRequest := none }) (fun _ x => x) id (fun _ => rfl)
    (fun _ => rfl) fun _ => rfl

theorem takeOverflow : Lock fine R d (Run.takeOverflow (μ := μ) (σ := σ)) Run.takeOverflow :=
  alike (fun c _ => c.overflow) (fun c => { c with overflow := none }) (fun _ x => x) id (fun _ => rfl)
    (fun _ => rfl) fun _ => rfl

theorem requestReturn {s : Status} : Lock fine R d (Run.requestReturn (μ := μ) (σ := σ) s) (Run.requestReturn s) :=
  onContext fun _ => rfl

theorem consult {f : μ → α × μ} : Lock fine R d (Run.consult (σ := σ) f) (Run.consult f) :=
  alike (fun _ x => (f x).1) id (fun _ x => (f x).2) id (fun _ => rfl) (fun _ => rfl) fun _ => rfl

theorem remember {f : μ → μ} : Lock fine R d (Run.remember (σ := σ) f) (Run.remember f) :=
  alike (fun _ _ => ()) id (fun _ x => f x) id (fun _ => rfl) (fun _ => rfl) fun _ => rfl

theorem test {p : Predicate μ σ} : Lock fine R d (Run.test p) (Run.test p) :=
  alike (fun c x => (p c x).1) id (fun c x => (p c x).2) id (fun _ => rfl) (fun _ => rfl) fun _ => rfl

theorem report {e : Diagnostic} : Lock fine R d (Run.report (μ := μ) (σ := σ) e) (Run.report e) :=
  alike (fun _ _ => ()) id (fun _ x => x) (·.push e) (fun _ => rfl) (fun _ => rfl) fun _ => rfl

/-- An event goes out in both runs, or neither sink takes it. -/
theorem trace {tag : String} {x y : UInt64} :
    Lock fine R d (Run.trace (μ := μ) (σ := σ) tag x y) (Run.trace tag x y) where
  before m' h := by
    unfold Run.last at h
    obtain ⟨_, _, ran⟩ | ⟨_, -, ran⟩ := Run.trace_spec tag x y m'
    all_goals
      rw [ran] at h
      exact h
  agree m m' h _ := by
    obtain ⟨⟨hc, hm, hj, hh⟩, hd, hr⟩ := h
    unfold Run.trace
    rw [hc]
    dsimp only
    split
    · rename_i outcome _
      rcases outcome with _ | (e | e)
      · exact .ok () ⟨⟨rfl, hm, hj, hh⟩, hd, hr⟩
      · exact .ok () ⟨⟨rfl, hm, hj, congrArg (·.push e) hh⟩, hd, hr⟩
      · exact .ok () ⟨⟨rfl, hm, congrArg (·.push (.event e)) hj, hh⟩, hd, hr⟩
    · exact .error _ ⟨rfl, hm, hj, hh⟩

theorem throw {e : Fault} {φ : β → α} {post : Machine ρ μ σ → Machine ρ' μ σ → Prop} :
    Sim fine (Along R d) φ (throw e : Run ρ μ σ α) (throw e : Run ρ' μ σ β) post :=
  .throw fun _ _ h => h.same

/-- The depth is known. -/
theorem depth {R : Nat → ρ → ρ' → Prop} {φ : β → α} {a : Nat → Run ρ μ σ α} {b : Nat → Run ρ' μ σ β}
    (h : ∀ e, Sim fine (Along (R e) e) φ (a e) (b e) (Along (R e) e)) (d : Nat) :
    Sim fine (Along (R d) d) φ (Run.depth >>= a) (Run.depth >>= b) (Along (R d) d) where
  before m' := (h m'.context.depth).before m'
  agree m m' related ok := by
    obtain rfl := related.depth
    have first : (Run.depth >>= a) m = a m'.context.depth m :=
      congrArg (a · m) (congrArg Context.depth related.same.context)
    rw [first]
    exact (h _).agree m m' related ok

end Lock

/-! ## Callbacks -/

/-- The trees that a callback ticks or resets are of this kind. -/
def Callback.Only (kind : TreeId → Prop) : Callback μ σ α → Prop
  | done _ => True
  | look next => ∀ context memory, (next context memory).Only kind
  | remember _ next | edit _ _ next | setGlobal _ _ _ next | trace _ _ _ next | requestReturn _ next => next.Only kind
  | takeReturn next => ∀ request, (next request).Only kind
  | takeOverflow next => ∀ overflow, (next overflow).Only kind
  | tickTree tree _ next => kind tree ∧ ∀ status, (next status).Only kind
  | resetTree tree _ next => kind tree ∧ next.Only kind

/-- What callbacks do to trees of this kind goes in lockstep. -/
structure Host.Lock (fine : ρ' → Prop) (R : ρ → ρ' → Prop) (d : Nat) (kind : TreeId → Prop) (host : Host ρ μ σ)
    (host' : Host ρ' μ σ) : Prop where
  tick : ∀ tree delta, kind tree → BehaviorTree.Lock fine R d (host.tickTree tree delta) (host'.tickTree tree delta)
  reset : ∀ tree fire, kind tree → BehaviorTree.Lock fine R d (host.resetTree tree fire) (host'.resetTree tree fire)

theorem Lock.callback {kind : TreeId → Prop} {host : Host ρ μ σ} {host' : Host ρ' μ σ}
    (hosts : host.Lock fine R d kind host') {body : Callback μ σ α} (only : body.Only kind) :
    Lock fine R d (body.run host) (body.run host') := by
  induction body with
  | done => exact .pure _
  | look next ih =>
    refine ⟨fun m' h => (ih m'.context m'.memory (only _ _)).before m' h, fun m m' related h => ?_⟩
    have agreed := (ih m'.context m'.memory (only _ _)).agree m m' related h
    simpa only [Callback.run, related.same.context, related.same.memory] using agreed
  | remember f next ih => exact Lock.remember.bind fun _ => ih only
  | edit reach e next ih => exact .bind (Lock.onContext fun _ => rfl) fun _ => ih only
  | setGlobal t id v next ih => exact .bind (Lock.onContext fun _ => rfl) fun _ => ih only
  | requestReturn s next ih => exact Lock.requestReturn.bind fun _ => ih only
  | takeReturn next ih => exact Lock.takeReturn.bind fun _ => ih _ (only _)
  | takeOverflow next ih => exact Lock.takeOverflow.bind fun _ => ih _ (only _)
  | trace tag x y next ih => exact Lock.trace.bind fun _ => ih only
  | tickTree tree delta next ih => exact (hosts.tick tree delta only.1).bind fun s => ih s (only.2 s)
  | resetTree tree fire next ih => exact (hosts.reset tree fire only.1).bind fun _ => ih only.2

end

end BehaviorTree
