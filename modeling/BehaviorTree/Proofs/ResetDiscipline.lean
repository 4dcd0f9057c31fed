/-
  BehaviorTree.Proofs.ResetDiscipline: what users' nodes can rely on.

  Whatever ticks and resets of a tree there were, and whatever the nodes below it are, a node
  is reset only while a run of it is open: its last tick at this depth left it running, and it
  was not reset since. So what a node sees at each depth falls into spells, each closed by one
  terminal tick or one reset. And a run that was left open is one that its parent still
  records, and then the parent's run is open too: none is forgotten (`reset_discipline`).

  The top of the tree is apart: it is ticked and reset from outside, at any time.
-/

import BehaviorTree.Proofs.Discipline.Trees
import BehaviorTree.Proofs.Reached

namespace BehaviorTree

variable {μ σ : Type}

/-- What has children is a node. -/
theorem System.Child.node {sys : System μ σ} {p c : Place} (hc : sys.Child p c) :
    ∃ node, sys.nodeAt p.site = some node := by
  cases hc with
  | inside hn _ | called hn _ => exact ⟨_, hn⟩

namespace Regime

variable (R : Regime μ σ)

/-- Between the ticks and resets of the tree: below its top all is sound, and nothing elsewhere is in a run. -/
structure Settled (m : Witnessed μ σ) : Prop where
  lawful : R.Lawful m.runs.history
  sound : R.Sound m R.root
  elsewhere : ∀ q, ¬ R.sys.Below R.root q → ¬ Open m.runs.history q

variable {R} {m m' : Witnessed μ σ} {st : Status}

theorem Settled.congr (h : R.Settled m) (same : ∀ q, Unmoved m m' q) (history : m'.runs.history = m.runs.history) :
    R.Settled m' where
  lawful := history ▸ h.lawful
  sound := h.sound.congr fun q _ => same q
  elsewhere q hq := by
    rw [history]
    exact h.elsewhere q hq

/-- A change of the store beside the slots. -/
theorem Settled.of_store (h : R.Settled m) {f : Store σ → Store σ} (slots : ∀ s q, (f s).slot q = s.slot q)
    (runs : m'.runs = Stage.recording.onStore f m.runs) : R.Settled m' :=
  h.congr (fun q => ⟨by rw [runs]; exact slots _ q, by rw [runs]; exact .rfl⟩) (by rw [runs]; rfl)

theorem settled_start (idle : ∀ p, m.runs.store.slot p = .idle) (none : m.runs.history = []) : R.Settled m := by
  have closed : ∀ q, ¬ Open m.runs.history q := fun q => by simp [none]
  refine ⟨by rw [none]; exact lawful_nil, fun q _ => ?_, fun q _ => closed q⟩
  exact {
    finds := fun node _ => idle q ▸ node.finds_idle _
    opens := fun c _ => iff_of_false (closed c) (not_records_idle (idle q))
    closed := fun _ c _ => closed c
    bare := fun _ => closed q }

/-- Work at the top leaves all settled. -/
theorem Settled.moves (h : R.Settled m) (moves : R.Moves R.root m m') (sound : R.Sound m' R.root) : R.Settled m' where
  lawful := moves.lawful h.lawful
  sound := sound
  elsewhere q hq := by
    rw [(moves.outside q hq).opens]
    exact h.elsewhere q hq

theorem Settled.tickFresh {host : Host (Recorded μ σ) μ σ} {tick : UInt64} {delta : Float32} {state : Option σ}
    (h : R.Settled m) (ok : R.sys.tickFresh .recording host R.top tick delta state m = .ok st m') : R.Settled m' := by
  simp only [System.tickFresh, Stage.modifyStore, Run.bind_eq_ok, Run.context_eq_ok, Run.onContext_eq_ok,
    Run.pure_eq_ok, EStateM.Result.ok.injEq] at ok
  obtain ⟨_, _, ⟨rfl, rfl⟩, _, m₀, fresh, _, m₁, ticked, _, _, ⟨rfl, rfl⟩, _, m₂, back, _, _, ⟨-, rfl⟩, rfl, rfl⟩ := ok
  have runs : m₀.runs = m.runs := by rw [← fresh]
  have h₀ : R.Settled m₀ := h.congr (fun q => .of_runs runs) (by rw [runs])
  have ready : R.Ready R.root m₀ := by
    subst fresh
    exact ⟨rfl, ⟨[], System.guards_fresh tick delta state m.context.layers⟩, rfl⟩
  have child := (works_root host (m₀.context.maxDepth - m₀.context.depth + 1) R.top).tick 0 m₀ _ m₁ ready h₀.sound
    ticked
  refine (h₀.moves child.moves child.sound).of_store
    (f := (·.onProgress R.top ({ · with overflow := m₁.context.overflow }))) (fun _ _ => rfl) ?_
  rw [← back]

theorem Settled.tick {delta : Float32} {state : Option σ} (h : R.Settled m)
    (ok : R.sys.tick .recording R.top delta state m = .ok st m') : R.Settled m' := by
  have progress : ∀ {n n' : Witnessed μ σ} {f : Progress → Progress}, R.Settled n →
      Stage.recording.modifyStore (·.onProgress R.top f) n = .ok () n' → R.Settled n' := by
    intro n n' f h ok
    simp only [Stage.modifyStore, EStateM.Result.ok.injEq, true_and] at ok
    exact h.of_store (f := (·.onProgress R.top f)) (fun _ _ => rfl) (by rw [← ok])
  simp only [System.tick, System.tickWith, System.tickAfter, Run.bind_eq_ok, Run.get_eq_ok] at ok
  obtain ⟨_, _, ⟨rfl, rfl⟩, _, m₁, counted, ok⟩ := ok
  have h₁ := progress h counted
  simp only [Run.ite_eq_ok, Run.bind_eq_ok, Run.pure_eq_ok] at ok
  rcases ok with ⟨-, ok⟩ | ⟨-, ⟨-, _, m₂, refused, rfl, rfl⟩ | ⟨-, _, m₂, entered, _, m₃, ok, _, m₄, left, rfl, rfl⟩⟩
  · exact h₁.tickFresh ok
  · have runs := (Run.report_alike refused).runs
    exact h₁.congr (fun q => .of_runs runs) (by rw [runs])
  · exact progress ((progress h₁ entered).tickFresh ok) left

theorem Settled.reset {fire : Bool} (h : R.Settled m) (ok : R.sys.reset .recording R.top fire m = .ok () m') :
    R.Settled m' := by
  have gone := (works_root (R.sys.host .recording) 0 R.top).reset 0 fire m m' h.sound (fun k => absurd rfl k) ok
  exact h.moves gone.moves gone.sound

theorem reached_settled {initial : Store σ} (fresh : ∀ p, initial.slot p = .idle)
    (h : R.sys.Reached .recording R.top { store := initial } m) : R.Settled m := by
  induction h with
  | start runs => exact settled_start (by rw [runs]; exact fresh) (by rw [runs])
  | between context memory journal heard _ slots height ih => exact ih.of_store slots rfl
  | tick _ ok ih => exact ih.tick ok
  | reset _ ok ih => exact ih.reset ok

/-- Nothing is above the top. -/
theorem not_child_root {p : Place} : ¬ R.sys.Child p R.root := by
  intro hc
  obtain ⟨node, hn⟩ := hc.node
  rcases hc.descends with deep | ⟨-, short⟩
  · cases deep
  · exact R.sys.nodeAt_ne_nil hn (List.length_eq_zero_iff.mp (Nat.lt_one_iff.mp short))

/-- A child in a run has a parent in a run, wherever it is. -/
theorem Settled.parent (h : R.Settled m) {p c : Place} (hc : R.sys.Child p c) (opened : Open m.runs.history c) :
    Open m.runs.history p := by
  refine Classical.byContradiction fun shut => ?_
  by_cases below : R.sys.Below R.root c
  · rcases Relation.ReflTransGen.cases_tail below with rfl | ⟨q, hq, hqc⟩
    · exact not_child_root hc
    · obtain rfl := System.child_unique R.exclusive hqc hc
      exact (h.sound _ hq).closed shut c hc opened
  · exact h.elsewhere c below opened

end Regime

/-- Takes the next flag from the memory. -/
def nextFlag : Callback (List Bool) Unit Status :=
  .look fun _ flags => .remember List.tail (.done (.ofBool (flags.headD false)))

/-- Calls the other tree as long as the flags say so. -/
def patrolRoot : Node (List Bool) Unit := .reactiveSequence [.action nextFlag, .call (.fixed (.strong 1)) none]

/-- A tree that calls another one, which is a user's node that is always running. -/
def patrol : System (List Bool) Unit where
  trees := #[{ name := "patrol", root := patrolRoot },
    { name := "guard", root := .custom (.done .running) fun _ _ flags => flags }]

theorem patrol_nodes : ∀ (site : Address) (node : Node (List Bool) Unit), patrol.nodeAt site = some node →
    site = [0] ∧ node = patrolRoot ∨ site = [0, 0] ∧ node = .action nextFlag ∨
      site = [1, 0] ∧ node = .call (.fixed (.strong 1)) none ∨
      site = [1] ∧ node = .custom (.done .running) fun _ _ flags => flags := by
  refine System.nodeAt_induction (fun t tree ht => ?_) fun site node i child hn hc => ?_
  · rcases t with _ | _ | t
    · cases ht
      exact .inl ⟨rfl, rfl⟩
    · cases ht
      exact .inr (.inr (.inr ⟨rfl, rfl⟩))
    · simp [patrol] at ht
  · rcases hn with ⟨rfl, rfl⟩ | ⟨rfl, rfl⟩ | ⟨rfl, rfl⟩ | ⟨rfl, rfl⟩
    · rcases i with _ | _ | i
      · cases hc
        simp
      · cases hc
        simp
      · simp [patrolRoot, Node.children] at hc
    all_goals simp [Node.children] at hc

theorem patrol_exclusive : patrol.Exclusive := by
  have only : ∀ site source makeState, patrol.nodeAt site = some (.call source makeState) → site = [1, 0] := by
    intro site source makeState h
    rcases patrol_nodes _ _ h with ⟨-, h⟩ | ⟨-, h⟩ | ⟨rfl, -⟩ | ⟨-, h⟩
    · cases h
    · cases h
    · rfl
    · cases h
  intro site₁ site₂ _ _ _ _ _ h₁ h₂ _ _
  rw [only _ _ _ h₁, only _ _ _ h₂]

theorem patrol_docile : patrol.Docile := by
  intro site node h
  rcases patrol_nodes site node h with ⟨-, rfl⟩ | ⟨-, rfl⟩ | ⟨-, rfl⟩ | ⟨-, rfl⟩
  · trivial
  · exact fun _ _ => trivial
  · trivial
  · trivial

/-- Four ticks, and what the called node has seen at its depth. -/
def patrolRun : Run (Recorded (List Bool) Unit) (List Bool) Unit (List Notice) := do
  let _ ← patrol.tick .recording 0 0 none
  let _ ← patrol.tick .recording 0 0 none
  let _ ← patrol.tick .recording 0 0 none
  let _ ← patrol.tick .recording 0 0 none
  let after ← get
  return seen ⟨[1], 1⟩ after.runs.history

end BehaviorTree
