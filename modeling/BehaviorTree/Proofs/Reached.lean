/-
  BehaviorTree.Proofs.Reached: the machines between the ticks and resets of one tree.

  `Reached` closes the machines with nothing remembered under top-level ticks and resets of
  one tree, and under everything that may happen in between. All of them are `Settled`:
  what is remembered lies below the tree and is sound there.
-/

import BehaviorTree.Proofs.Ticks.Calls

namespace BehaviorTree

variable {ρ μ σ : Type}

/-- Where the ticks and resets of a tree may lead, from run states with nothing remembered. Between
them the board, the memory and what is in use may change, the slots may not. -/
inductive System.Reached (sys : System μ σ) (stage : Stage ρ μ σ) (top : TreeId) (initial : ρ) :
    Machine ρ μ σ → Prop
  | start {m : Machine ρ μ σ} : m.runs = initial → Reached sys stage top initial m
  | between {m : Machine ρ μ σ} {f : Store σ → Store σ} (context : Context σ) (memory : μ)
      (journal : Array Diagnostic) (heard : Array TraceEvent) : Reached sys stage top initial m →
      (∀ s p, (f s).slot p = s.slot p) → (∀ s, (f s).height = s.height) →
      Reached sys stage top initial { context, memory, runs := stage.onStore f m.runs, journal, heard }
  | tick {m m' : Machine ρ μ σ} {delta : Float32} {state : Option σ} {status : Status} :
      Reached sys stage top initial m → sys.tick stage top delta state m = .ok status m' →
      Reached sys stage top initial m'
  | reset {m m' : Machine ρ μ σ} {fire : Bool} : Reached sys stage top initial m →
      sys.reset stage top fire m = .ok () m' → Reached sys stage top initial m'

namespace Setting

variable (S : Setting ρ μ σ)

/-- Between the ticks and resets of a tree: all that is remembered lies below it and is sound. -/
structure Settled (top : TreeId) (m : Machine ρ μ σ) : Prop where
  bounded : (S.store m).Bounded
  tidy : S.Tidy m.runs
  sound : S.Sound m ⟨[top], 0⟩
  elsewhere : ∀ q, ¬ S.sys.Below ⟨[top], 0⟩ q → (S.store m).slot q = .idle

variable {S} {top : TreeId} {m m₁ m' : Machine ρ μ σ} {st : Status}

/-! ## Top-level ticks -/

/-- What a top-level tick leaves unchanged beside the run of the tree: slots and what goes with them. -/
structure Untouched (S : Setting ρ μ σ) (m m' : Machine ρ μ σ) : Prop where
  slots : ∀ q, (S.store m').slot q = (S.store m).slot q
  height : (S.store m').height = (S.store m).height
  tidy : S.Tidy m.runs → S.Tidy m'.runs
  fewer : ∀ q, S.Counts m'.runs q → S.Counts m.runs q

theorem Untouched.trans (h : S.Untouched m m₁) (k : S.Untouched m₁ m') : S.Untouched m m' :=
  ⟨fun q => (k.slots q).trans (h.slots q), k.height.trans h.height, k.tidy ∘ h.tidy, fun q => h.fewer q ∘ k.fewer q⟩

theorem Untouched.of_store {f : Store σ → Store σ} (slots : ∀ s q, (f s).slot q = s.slot q)
    (height : ∀ s, (f s).height = s.height) (runs : m'.runs = S.stage.onStore f m.runs) : S.Untouched m m' where
  slots q := by rw [store, store, runs, S.stage.store_onStore, slots]
  height := by rw [store, store, runs, S.stage.store_onStore, height]
  tidy h := runs ▸ S.tidy_onStore f _ h
  fewer q counts := S.counts_onStore f _ q (runs ▸ counts)

theorem Untouched.of_runs (runs : m'.runs = m.runs) : S.Untouched m m' where
  slots q := by rw [store, store, runs]
  height := by rw [store, store, runs]
  tidy h := runs ▸ h
  fewer _ counts := runs ▸ counts

theorem Settled.congr (h : S.Settled top m) (u : S.Untouched m m') : S.Settled top m' where
  bounded q hq := by
    rw [u.slots] at hq
    rw [u.height]
    exact h.bounded q hq
  tidy := u.tidy h.tidy
  sound := h.sound.congr u.fewer fun q _ => u.slots q
  elsewhere q hq := (u.slots q).trans (h.elsewhere q hq)

theorem guarded_fresh (limits : S.limits = S.sys.limitsOf top) (m : Machine ρ μ σ) (tick : UInt64) (delta : Float32)
    (state : Option σ) (layers : Layers) :
    S.Guarded { m with context := S.sys.freshContext top tick delta state layers } where
  maxDepth := by rw [limits]; rfl
  capacity := by rw [limits]; simp [System.freshContext, Function.comp_def]
  frames stack h := by
    simp only [System.freshContext, Option.map_eq_some_iff] at h
    obtain ⟨capacity, -, rfl⟩ := h
    rfl

theorem tickFresh_settles (faithful : S.Faithful) (limits : S.limits = S.sys.limitsOf top) {host : Host ρ μ σ}
    {tick : UInt64} {delta : Float32} {state : Option σ} (h : S.Settled top m)
    (ok : S.sys.tickFresh S.stage host top tick delta state m = .ok st m') : S.Settled top m' := by
  simp only [System.tickFresh, Stage.modifyStore, Run.bind_eq_ok, Run.context_eq_ok, Run.onContext_eq_ok,
    Run.pure_eq_ok, EStateM.Result.ok.injEq] at ok
  obtain ⟨_, _, ⟨rfl, rfl⟩, _, m₀, fresh, status, m₁, ticked, _, _, ⟨rfl, rfl⟩, _, m₂, back, _, m₃, ⟨-, noted⟩, rfl,
    rfl⟩ := ok
  have runs : m₀.runs = m.runs := by rw [← fresh]
  have ready : S.Ready ⟨[top], 0⟩ m₀ := {
    depth := by rw [← fresh]; rfl
    guarded := fresh ▸ guarded_fresh limits m tick delta state m.context.layers
    bounded := by rw [store, runs]; exact h.bounded
    tidy := runs ▸ h.tidy
    calm := .inr (by rw [← fresh]; rfl)
    sound := h.sound.congr (fun _ counts => runs ▸ counts) fun q _ => by rw [store, runs]; rfl }
  have ended := (works_root faithful host (m₀.context.maxDepth - m₀.context.depth + 1) top).tick 0 m₀ status m₁ ready
    ticked
  have settled : S.Settled top m₁ := {
    bounded := ended.moves.bounded ready.bounded
    tidy := ended.moves.tidy ready.tidy
    sound := ended.sound
    elsewhere := fun q hq => (ended.moves.within q hq).trans (by rw [store, runs]; exact h.elsewhere q hq) }
  have kept : S.Untouched m₁ m₂ := .of_runs (by rw [← back])
  refine settled.congr (kept.trans ?_)
  exact .of_store (f := (·.onProgress top ({ · with overflow := m₁.context.overflow }))) (fun _ _ => rfl)
    (fun _ => rfl) (by rw [← noted])

theorem tickWith_settles (faithful : S.Faithful) (limits : S.limits = S.sys.limitsOf top) {host : Host ρ μ σ}
    {delta : Float32} {state : Option σ} (h : S.Settled top m)
    (ok : S.sys.tickWith S.stage host top delta state m = .ok st m') : S.Settled top m' := by
  have progress : ∀ {n n' : Machine ρ μ σ} {f : Progress → Progress},
      S.stage.modifyStore (·.onProgress top f) n = .ok () n' → S.Untouched n n' := by
    intro n n' f ok
    simp only [Stage.modifyStore, EStateM.Result.ok.injEq] at ok
    exact .of_store (f := (·.onProgress top f)) (fun _ _ => rfl) (fun _ => rfl) (by rw [← ok.2])
  simp only [System.tickWith, System.tickAfter, Run.bind_eq_ok, Run.get_eq_ok] at ok
  obtain ⟨_, _, ⟨rfl, rfl⟩, _, m₁, counted, ok⟩ := ok
  have h₁ := h.congr (progress counted)
  simp only [Run.ite_eq_ok, Run.bind_eq_ok, Run.pure_eq_ok] at ok
  rcases ok with ⟨-, ok⟩ | ⟨-, ⟨-, _, m₂, refused, rfl, rfl⟩ | ⟨-, _, m₂, entered, _, m₃, ok, _, m₄, left, rfl, rfl⟩⟩
  · exact tickFresh_settles faithful limits h₁ ok
  · exact h₁.congr (.of_runs (Run.report_alike refused).runs)
  · exact (tickFresh_settles faithful limits (h₁.congr (progress entered)) ok).congr (progress left)

/-! ## Everything that is reached -/

theorem Abandoned.settled {fire : Bool} (h : S.Settled top m) (a : S.Abandoned ⟨[top], 0⟩ fire m m') :
    S.Settled top m' where
  bounded := a.moves.bounded h.bounded
  tidy := a.moves.tidy h.tidy
  sound := a.sound
  elsewhere q hq := (a.moves.within q hq).trans (h.elsewhere q hq)

/-- A reset between ticks succeeds, and leaves nothing. -/
theorem Settled.reset (faithful : S.Faithful) (h : S.Settled top m) (fire : Bool) :
    ∃ m', S.sys.reset S.stage top fire m = .ok () m' ∧ S.Abandoned ⟨[top], 0⟩ fire m m' :=
  resets_at faithful.reset (fun _ _ => True) top (pure .failure) m 0 fire h.bounded h.tidy h.sound trivial

theorem reached_settled (faithful : S.Faithful) (limits : S.limits = S.sys.limitsOf top) {initial : ρ}
    (fresh : ∀ p, (S.stage.store initial).slot p = .idle) (tidy : S.Tidy initial)
    (h : S.sys.Reached S.stage top initial m) : S.Settled top m := by
  induction h with
  | start runs =>
    have idle : ∀ q, (S.store _).slot q = .idle := fun q => by rw [store, runs, fresh]
    exact ⟨fun q hq => absurd (idle q) hq, runs ▸ tidy, System.sound_of_idle idle _, fun q _ => idle q⟩
  | between context memory journal heard _ slots height ih => exact ih.congr (.of_store slots height rfl)
  | tick _ ok ih => exact tickWith_settles faithful limits ih ok
  | reset _ ok ih =>
    obtain ⟨m', ok', a⟩ := ih.reset faithful _
    cases ok'.symm.trans ok
    exact a.settled ih

end Setting

end BehaviorTree
