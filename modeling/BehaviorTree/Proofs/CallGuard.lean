/-
  BehaviorTree.Proofs.CallGuard: the recursion guard follows the calls of every tick.

  The ticks of one tree, from outside: what is in progress between them are calls that the
  limits admit, so that a call that goes on is never refused; a tick keeps the first of its
  refusals (`guard_follows_calls`), unless a callback takes it away (`taken_refusal`).
-/

import BehaviorTree.Proofs.Depth
import BehaviorTree.Proofs.Refusals

namespace BehaviorTree

variable {μ σ : Type}

namespace System

variable {sys : System μ σ} {takes : Prop} {limits : Limits} {m m₁ m' : Machine (Recorded μ σ) μ σ} {tree : TreeId}

/-! ## Ticks from outside -/

theorem Resumes.along (h : sys.Resumes limits m.runs.store) (along : Alongside m m') :
    sys.Resumes limits m'.runs.store :=
  h.of_slots fun q _ _ _ => .inl (along.slots q)

theorem Ticked.ran_of_free {r : EStateM.Result Fault (Machine (Recorded μ σ) μ σ) Status}
    (h : sys.Ticked takes tree m r) (free : (m.runs.store.progress tree).busy = false) : sys.Ran takes tree m r := by
  cases h with
  | busy busy => cases busy.symm.trans free
  | ran ran => exact ran

/-- Nothing has been refused when a tick begins. -/
theorem Begins.told (h : sys.Begins tree m m₁) (resumes : sys.Resumes limits m.runs.store) :
    sys.Told limits [] (.within []) m₁ where
  chronicle := .nil _
  watched := .nil
  resumes := resumes.along h.toAlongside
  first := h.overflow

/-- A tick that runs, whatever comes of it, and what it leaves if it ends well. -/
theorem Ran.told {a : Run (Recorded μ σ) μ σ Status} (h : sys.Ran False tree m (a m))
    (followable : sys.Followable m.runs.store) (resumes : sys.Resumes (sys.limitsOf tree) m.runs.store) :
    ∃ xs, (a.last m).runs.history = m.runs.history ++ xs ∧ sys.Watched (sys.limitsOf tree) xs ∧
      (∀ before site scene next after, xs = before ++ Moment.entered site scene :: next :: after →
        sys.Ensues (sys.limitsOf tree) site scene next) ∧
      ∀ status m', a m = .ok status m' → pathAfter xs = [] ∧
        (m'.runs.store.progress tree).overflow = sys.firstRefusal (sys.limitsOf tree) xs ∧
        sys.Resumes (sys.limitsOf tree) m'.runs.store := by
  unfold Run.last
  generalize a m = r at h
  obtain ⟨xs, came⟩ := h.carry followable Deed.told fun begins => begins.told resumes
  cases r with
  | ok st m₁ =>
    obtain ⟨history, _, told, after, overflow⟩ := came
    refine ⟨xs, history, told.watched, told.chronicle.ensues, fun status m' same => ?_⟩
    cases same
    exact ⟨told.chronicle.path, overflow.trans told.first, told.resumes.along after⟩
  | error e m₁ =>
    obtain ⟨history, -, _, _, told, -⟩ := came
    exact ⟨xs, history, told.watched, told.chronicle.ensues, fun _ _ same => nomatch same⟩

theorem Reached.continued {initial : Store σ} {top : TreeId} (fresh : ∀ p, initial.slot p = .idle)
    (h : sys.Reached .recording top { store := initial } m) : sys.Continued m := by
  induction h with
  | @start m runs => exact ⟨m, fun p => by rw [runs]; exact fresh p, .refl⟩
  | between context memory journal heard _ slots height ih =>
    obtain ⟨start, idle, onward⟩ := ih
    exact ⟨start, idle, onward.between context memory journal heard slots height⟩
  | tick _ ok ih =>
    obtain ⟨start, idle, onward⟩ := ih
    exact ⟨start, idle, Run.last_ok ok ▸ onward.tick ..⟩
  | reset _ ok ih =>
    obtain ⟨start, idle, onward⟩ := ih
    exact ⟨start, idle, Run.last_ok ok ▸ onward.reset ..⟩

theorem Reached.resumes {initial : Store σ} (modest : sys.Modest False) {top : TreeId}
    (fresh : ∀ p, initial.slot p = .idle) (h : sys.Reached .recording top { store := initial } m) :
    sys.Resumes (sys.limitsOf top) m.runs.store := by
  induction h with
  | start runs =>
    intro q source makeState tree state _ hs
    rw [runs] at hs
    cases (fresh q).symm.trans hs
  | between _ _ _ _ _ slots _ ih => exact ih.of_slots fun q _ _ _ => .inl (slots _ q)
  | @tick m m' delta state status before ok ih =>
    have followable := (before.continued fresh).followable modest
    have ticked := tick_ticked modest followable top delta state
    rw [ok] at ticked
    cases ticked with
    | busy _ along => exact ih.along along
    | ran ran =>
      rw [← ok] at ran
      obtain ⟨xs, -, -, -, ended⟩ := ran.told followable ih
      exact (ended status m' ok).2.2
  | @reset m m' fire before ok ih =>
    have followable := (before.continued fresh).followable modest
    obtain ⟨n, ok', swept⟩ := reset_sweeps followable top fire
    cases ok'.symm.trans ok
    exact ih.of_slots fun q _ _ _ => swept.fades q

end System

/-- A tree that does nothing but call itself, under a stack of two frames. -/
def spiral : System Unit Unit where
  trees := #[{ name := "spiral", root := .sequence [.call (.fixed (.strong 0)) none]
               limits := ⟨{ maxCallDepth := 3, stackCapacity := some 2 }, by decide⟩ }]

theorem spiral_modest : spiral.Modest False := by
  refine System.forall_nodes fun tree h => ?_
  simp only [spiral, List.mem_toArray, List.mem_cons, List.not_mem_nil, or_false] at h
  subst h
  exact .mk trivial (List.forall_mem_singleton.mpr (.leaf trivial rfl))

/-- Nothing happened yet. -/
def quietStart : Machine (Recorded Unit Unit) Unit Unit := { context := {}, memory := (), runs := { store := {} } }

/-- The answer of a tick, its first refusal, the depth of its sixth moment, if that is an entry, and the
places in progress then. -/
def spiralRun : Run (Recorded Unit Unit) Unit Unit (Status × Option Overflow × Option Nat × List Place) := do
  let status ← spiral.tick .recording 0 0 none
  let after ← get
  let first := (after.runs.history.filterMap (spiral.refusal? (spiral.limitsOf 0))).head?
  return (status, first, after.runs.history[5]?.bind Moment.entryDepth, pathAfter (after.runs.history.take 6))

/-- A tree that calls itself, and where that fails has a callback take the refusal away. -/
def taker : System Unit Unit where
  trees := #[{ name := "taker"
               root := .selector [.call (.fixed (.strong 0)) none, .action (.takeOverflow fun _ => .done .success)]
               limits := ⟨{ maxCallDepth := 1, stackCapacity := none }, by decide⟩ }]

/-- The answer of a tick, its first refusal, and the one that is kept. -/
def takerRun : Run (Recorded Unit Unit) Unit Unit (Status × Option Overflow × Option Overflow) := do
  let status ← taker.tick .recording 0 0 none
  let after ← get
  return (status, (after.runs.history.filterMap (taker.refusal? (taker.limitsOf 0))).head?,
    (after.runs.store.progress 0).overflow)

end BehaviorTree
