/-
  BehaviorTree.Proofs.Discipline.Resets: resets follow the record.

  A reset of a node resets the children that its slot records and forgets the slot. Where the
  record is right these are the children in a run, so each of them is reset once, and after it
  none is in a run.
-/

import BehaviorTree.Proofs.Discipline
import BehaviorTree.Proofs.Ticks.Concurrent

namespace BehaviorTree

variable {μ σ : Type}

open Behaviour (Tracked)

/-- One child gets another state, and the other children keep theirs. -/
theorem busyAmong_update {p c : Place} {pre post : List ChildState} {x y : ChildState} :
    busyAmong p (pre ++ y :: post) c ↔
      c ≠ p.inside pre.length ∧ busyAmong p (pre ++ x :: post) c ∨ c = p.inside pre.length ∧ y = .running := by
  by_cases here : c = p.inside pre.length
  · subst here
    simp [busyAmong_here]
  · simp only [ne_eq, here, not_false_eq_true, true_and, false_and, or_false]
    exact ⟨busyAmong_elsewhere here, busyAmong_elsewhere here⟩

namespace Regime

variable {R : Regime μ σ} {site : Address} {p c : Place} {node child : Node μ σ} {d : Nat} {fire : Bool}
  {b B : Behaviour (Recorded μ σ) μ σ} {bs : List (Behaviour (Recorded μ σ) μ σ)}
  {m m₁ m' base : Witnessed μ σ} {busy : Place → Prop}

/-! ## Leaves and single children -/

theorem no_child (hn : R.sys.nodeAt p.site = some node) (leaf : node.children = [])
    (calls : ∀ source makeState, node ≠ .call source makeState) (c : Place) : ¬ R.sys.Child p c := by
  intro hc
  obtain ⟨i, hi, -⟩ := hc.of_node hn calls
  simp [leaf] at hi

/-- An only child is recorded when the slot says so. -/
theorem records_only (hn : R.sys.nodeAt p.site = some node) (one : node.children = [child]) (hc : R.sys.Child p c)
    (m : Witnessed μ σ) : R.sys.Records m.runs.store p c ↔ node.Runs (m.runs.store.slot p) 0 := by
  obtain rfl := hc.only hn one
  exact ⟨fun h => h.runs hn, fun h => .inside hn h⟩

theorem child_only (hn : R.sys.nodeAt p.site = some node) (one : node.children = [child]) :
    R.sys.Child p (p.inside 0) := .inside hn (by simp [one])

/-- A node without children only forgets. -/
theorem resets_leaf (hn : R.sys.nodeAt site = some node) (leaf : node.children = [])
    (calls : ∀ source makeState, node ≠ .call source makeState)
    (finds : ∀ slot admits, node.Finds (σ := σ) slot admits)
    (reset : ∀ d fire m m', B.reset d fire m = .ok () m' →
      (∃ x, m' = m.withMemory x) ∨ m' = m.onRuns ((slots site).reset · d)) : R.Resets site B := by
  intro d fire m m' rested ok
  have none := no_child (R := R) (p := ⟨site, d⟩) hn leaf calls
  have finds : ∀ n, R.sys.nodeAt site = some n → ∀ slot admits, n.Finds (σ := σ) slot admits :=
    fun n h => Option.some.inj (hn.symm.trans h) ▸ finds
  rcases reset d fire m m' ok with ⟨x, rfl⟩ | rfl
  · exact ⟨(rested.start.still (.of_memory m x)).done (fun n h => finds n h _ _) (fun c hc => absurd hc (none c))
      fun _ c hc => absurd hc (none c), rfl⟩
  · exact ⟨(rested.start.reset (p := ⟨site, d⟩)).done (fun n h => finds n h _ _) (fun c hc => absurd hc (none c))
      fun _ c hc => absurd hc (none c), rfl⟩

/-- A node with one child resets it if the slot says that it is in a run. -/
theorem resets_one (hn : R.sys.nodeAt site = some node) (one : node.children = [child])
    (spec : R.Works (0 :: site) b)
    (reset : ∀ d fire m m', B.reset d fire m = .ok () m' →
      ¬ node.Runs (m.runs.store.slot ⟨site, d⟩) 0 ∧ (m' = m ∨ m' = m.onRuns ((slots site).reset · d)) ∨
      node.Runs (m.runs.store.slot ⟨site, d⟩) 0 ∧ ∃ m₁ x,
        b.reset d fire (m.onRuns ((slots site).reset · d)) = .ok () m₁ ∧ m' = m₁.withMemory x) :
    R.Resets site B := by
  intro d fire m m' rested ok
  have w := rested.start
  rcases reset d fire m m' ok with ⟨unrecorded, rfl | rfl⟩ | ⟨recorded, m₁, x, gone, rfl⟩
  · refine ⟨rested.unchanged (.refl _) fun _ c hc => ?_, rfl⟩
    rwa [records_only hn one hc]
  · refine ⟨(w.reset (p := ⟨site, d⟩)).rested (fun c hc => ?_) (slot_reset _ ⟨site, d⟩), rfl⟩
    rwa [records_only hn one hc]
  · have hc : R.sys.Child ⟨site, d⟩ ⟨0 :: site, d⟩ := child_only (p := ⟨site, d⟩) hn one
    have w₁ := w.reset (p := ⟨site, d⟩)
    have gone := spec.reset d fire _ m₁ (w₁.sound _ hc)
      (fun _ => (w₁.opens _ hc).mpr ((records_only hn one hc m).mpr recorded)) gone
    refine ⟨((w₁.gone hc gone).still (.of_memory m₁ x)).rested (fun c hc k => k.1 (hc.only hn one)) ?_, gone.context⟩
    exact (gone.moves.parent hc).slot.trans (slot_reset m ⟨site, d⟩)

theorem resets_started {tick : Run (Recorded μ σ) μ σ Status} (hn : R.sys.nodeAt site = some node)
    (one : node.children = [child]) (spec : R.Works (0 :: site) b)
    (runs : ∀ slot, node.Runs (σ := σ) slot 0 ↔ slot = .started) :
    R.Resets site ⟨tick, (slots site).resetStarted b⟩ := by
  refine resets_one hn one spec fun d fire m m' ok => ?_
  rw [runs]
  replace ok := (Cell.resetStarted_apply ..).symm.trans ok
  split at ok
  · rename_i started
    exact .inr ⟨started, m', _, ok, rfl⟩
  · rename_i fresh
    cases ok
    exact .inl ⟨fresh, .inl rfl⟩

theorem resets_iteration {tick : Run (Recorded μ σ) μ σ Status} (hn : R.sys.nodeAt site = some node)
    (one : node.children = [child]) (spec : R.Works (0 :: site) b)
    (runs : ∀ slot, node.Runs (σ := σ) slot 0 ↔ ∃ count, slot = .iterations count true) :
    R.Resets site ⟨tick, (slots site).resetIteration b⟩ := by
  refine resets_one hn one spec fun d fire m m' ok => ?_
  rw [runs]
  replace ok := (Cell.resetIteration_apply ..).symm.trans ok
  split at ok
  · rename_i count running
    exact .inr ⟨⟨count, running⟩, m', _, ok, rfl⟩
  · rename_i fresh
    cases ok
    exact .inl ⟨fun found => found.elim fresh, .inr rfl⟩

theorem resets_timeout {duration : Duration} (hn : R.sys.nodeAt site = some (.timeout duration child))
    (spec : R.Works (0 :: site) b) : R.Resets site (.timeout (slots site) duration b) := by
  refine resets_one hn rfl spec fun d fire m m' ok => ?_
  replace ok := (Behaviour.timeout_reset_apply ..).symm.trans ok
  split at ok
  · rename_i time running
    exact .inr ⟨⟨time, running⟩, m', _, ok, rfl⟩
  · rename_i fresh
    cases ok
    exact .inl ⟨fun found => found.elim fresh, .inr rfl⟩

theorem resets_delay {duration : Duration} (hn : R.sys.nodeAt site = some (.delay duration child))
    (spec : R.Works (0 :: site) b) : R.Resets site (.delay (slots site) duration b) := by
  refine resets_one hn rfl spec fun d fire m m' ok => ?_
  replace ok := (Behaviour.delay_reset_apply ..).symm.trans ok
  split at ok
  · rename_i released
    exact .inr ⟨released, m', _, ok, rfl⟩
  · rename_i fresh
    cases ok
    exact .inl ⟨fresh, .inr rfl⟩

theorem resets_localScope (hn : R.sys.nodeAt site = some (.localScope child)) (spec : R.Works (0 :: site) b) :
    R.Resets site (.localScope (slots site) b) := by
  refine resets_one hn rfl spec fun d fire m m' ok => ?_
  replace ok := (Behaviour.localScope_reset_apply ..).symm.trans ok
  split at ok
  · rename_i board running
    exact .inr ⟨⟨board, running⟩, m', _, ok, rfl⟩
  · rename_i fresh
    cases ok
    exact .inl ⟨fun found => found.elim fresh, .inr rfl⟩

theorem resets_scope {host : Host (Recorded μ σ) μ σ} {hooks : Hooks μ σ}
    (hn : R.sys.nodeAt site = some (.scope hooks child)) (spec : R.Works (0 :: site) b) :
    R.Resets site (.scope (slots site) host hooks b) := by
  refine resets_one hn rfl spec fun d fire m m' ok => ?_
  replace ok := (Behaviour.scope_reset_apply ..).symm.trans ok
  split at ok
  · rename_i started
    simp only [Run.bind_eq_ok, Run.ite_eq_ok, Run.remember_eq_ok, Run.pure_eq_ok] at ok
    obtain ⟨_, m₁, gone, ⟨-, rfl⟩ | ⟨-, -, rfl⟩⟩ := ok
    · exact .inr ⟨started, m₁, _, gone, rfl⟩
    · exact .inr ⟨started, m₁, m₁.memory, gone, rfl⟩
  · rename_i fresh
    cases ok
    exact .inl ⟨fresh, .inl rfl⟩

/-! ## Several children -/

variable (R) in
/-- The behaviours of a node's children. -/
structure WorksAll (site : Address) (node : Node μ σ) (bs : List (Behaviour (Recorded μ σ) μ σ)) : Prop where
  here : R.sys.nodeAt site = some node
  count : bs.length = node.children.length
  works : ∀ i b, bs[i]? = some b → R.Works (i :: site) b

theorem WorksAll.among (a : R.WorksAll site node bs) {i : Nat} (hb : bs[i]? = some b) :
    R.sys.Child ⟨site, d⟩ ⟨i :: site, d⟩ := by
  obtain ⟨hi, -⟩ := List.getElem?_eq_some_iff.mp hb
  exact System.Child.inside (p := ⟨site, d⟩) a.here (a.count ▸ hi)

/-- A node that remembers the child it is at. -/
structure OneAtATime (node : Node μ σ) : Prop where
  calls : ∀ source makeState, node ≠ .call source makeState
  runs : ∀ (slot : Slot σ) i, node.Runs slot i ↔ slot = .child i
  finds : ∀ (slot : Slot σ) admits, node.Finds slot admits

/-- What is recorded is the child in the slot. -/
theorem OneAtATime.records (one : OneAtATime node) (hn : R.sys.nodeAt p.site = some node) (hc : R.sys.Child p c)
    (m : Witnessed μ σ) : R.sys.Records m.runs.store p c ↔ ∃ i, m.runs.store.slot p = .child i ∧ c = p.inside i := by
  obtain ⟨i, -, rfl⟩ := hc.of_node hn one.calls
  constructor
  · exact fun h => ⟨i, (one.runs _ _).mp (h.runs hn), rfl⟩
  · intro found
    obtain ⟨j, hj, same⟩ := found
    obtain rfl := Place.inside_injective same
    exact .inside hn ((one.runs _ _).mpr hj)

theorem resets_child {tick : Run (Recorded μ σ) μ σ Status} (one : OneAtATime node) (a : R.WorksAll site node bs) :
    R.Resets site ⟨tick, (slots site).resetChild bs⟩ := by
  intro d fire m m' rested ok
  have w := (rested.start.reset (p := ⟨site, d⟩)).congr fun c hc => one.records (p := ⟨site, d⟩) a.here hc m
  replace ok := (Cell.resetChild_apply ..).symm.trans ok
  split at ok
  · rename_i i running
    cases hb : bs[i]? with
    | none =>
      rw [hb] at ok
      cases ok
    | some b =>
      rw [hb] at ok
      have hc := a.among (d := d) hb
      have gone := (a.works i b hb).reset d fire _ m' (w.sound _ hc)
        (fun _ => (w.opens _ hc).mpr ⟨i, running, rfl⟩) ok
      refine ⟨(w.gone hc gone).rested (fun c hc k => ?_) ?_, gone.context⟩
      · obtain ⟨other, j, hj, rfl⟩ := k
        cases Eq.trans (Eq.symm running) hj
        exact other rfl
      · exact (gone.moves.parent hc).slot.trans (slot_reset m ⟨site, d⟩)
  · rename_i fresh
    cases ok
    exact ⟨w.rested (fun c hc k => k.elim fun i k => fresh i k.1) (slot_reset m ⟨site, d⟩), rfl⟩

/-- The running children are abandoned, one after the other. -/
theorem AtWork.aborted (a : R.WorksAll site node bs) (rest pre : List (Tracked (Recorded μ σ) μ σ))
    (here : (pre ++ rest).map (·.1) = bs) (passed : ∀ t ∈ pre, t.2 ≠ .running)
    (w : R.AtWork ⟨site, d⟩ base m (busyAmong ⟨site, d⟩ ((pre ++ rest).map (·.2))))
    (idle : m.runs.store.slot ⟨site, d⟩ = .idle) (ok : Behaviour.abort d fire rest m = .ok () m') :
    R.AtWork ⟨site, d⟩ base m' (fun _ => False) ∧ m'.runs.store.slot ⟨site, d⟩ = .idle ∧ m'.context = m.context := by
  induction rest generalizing pre m with
  | nil =>
    simp only [Behaviour.abort, Run.pure_eq_ok, true_and] at ok
    subst ok
    refine ⟨w.congr fun c _ => iff_of_false (fun busy => ?_) id, idle, rfl⟩
    obtain ⟨i, -, hi⟩ := busy
    rw [List.append_nil] at hi
    obtain ⟨t, ht, running⟩ := List.mem_map.mp (List.mem_of_getElem? hi)
    exact passed t ht running
  | cons first rest ih =>
    obtain ⟨b, state⟩ := first
    by_cases running : state = .running
    · subst running
      simp only [Behaviour.abort, Run.bind_eq_ok] at ok
      obtain ⟨_, m₁, reset, ok⟩ := ok
      have hb : bs[(pre.map (·.2)).length]? = some b := by simp [← here]
      have hc := a.among (d := d) hb
      have gone := (a.works _ b hb).reset d fire m m₁ (w.sound _ hc)
        (fun _ => (w.opens _ hc).mpr (by
          rw [List.map_append, List.map_cons]
          exact busyAmong_here.mpr rfl)) reset
      have w₁ : R.AtWork ⟨site, d⟩ base m₁
          (busyAmong ⟨site, d⟩ ((pre ++ [(b, ChildState.idle)] ++ rest).map Prod.snd)) := by
        refine (w.gone hc gone).congr fun c _ => ?_
        simp only [List.map_append, List.map_cons, List.append_assoc, List.singleton_append]
        rw [busyAmong_update (p := ⟨site, d⟩) (x := .running) (y := .idle)]
        simp [Place.inside]
      obtain ⟨w₂, idle₂, context⟩ := ih (pre ++ [(b, ChildState.idle)]) (by simpa using here)
        (fun t ht => by
          rcases List.mem_append.mp ht with ht | ht
          · exact passed t ht
          · simp [List.mem_singleton.mp ht]) w₁ ((gone.moves.parent hc).slot.trans idle) ok
      exact ⟨w₂, idle₂, context.trans gone.context⟩
    · have skip : Behaviour.abort d fire ((b, state) :: rest) = Behaviour.abort d fire rest := by
        cases state with
        | running => exact absurd rfl running
        | _ => rfl
      rw [skip] at ok
      refine ih (pre ++ [(b, state)]) (by simpa using here) (fun t ht => ?_) (by simpa using w) idle ok
      rcases List.mem_append.mp ht with ht | ht
      · exact passed t ht
      · rw [List.mem_singleton.mp ht]
        exact running

/-- A node that remembers the states of all its children. -/
structure SideBySide (node : Node μ σ) : Prop where
  calls : ∀ source makeState, node ≠ .call source makeState
  runs : ∀ (slot : Slot σ) i, node.Runs slot i ↔ ∃ states, slot = .children states ∧ states[i]? = some .running
  finds : ∀ (slot : Slot σ) admits, node.Finds slot admits ↔
    ∀ states, slot = .children states → states.length = node.children.length

/-- What is recorded are the children that the states call running. -/
theorem SideBySide.records (side : SideBySide node) (hn : R.sys.nodeAt p.site = some node) (hc : R.sys.Child p c)
    (m : Witnessed μ σ) : R.sys.Records m.runs.store p c ↔
      ∃ states, m.runs.store.slot p = .children states ∧ busyAmong p states c := by
  obtain ⟨i, -, rfl⟩ := hc.of_node hn side.calls
  constructor
  · intro h
    obtain ⟨states, hs, hi⟩ := (side.runs _ _).mp (h.runs hn)
    exact ⟨states, hs, i, rfl, hi⟩
  · intro found
    obtain ⟨states, hs, j, same, hj⟩ := found
    obtain rfl := Place.inside_injective same
    exact .inside hn ((side.runs _ _).mpr ⟨states, hs, hj⟩)

theorem resets_tracked {tick : Run (Recorded μ σ) μ σ Status} (side : SideBySide node) (a : R.WorksAll site node bs) :
    R.Resets site ⟨tick, Behaviour.resetTracked (slots site) bs⟩ := by
  intro d fire m m' rested ok
  have w := (rested.start.reset (p := ⟨site, d⟩)).congr fun c hc => side.records (p := ⟨site, d⟩) a.here hc m
  replace ok := (Behaviour.resetTracked_apply ..).symm.trans ok
  split at ok
  · rename_i states running
    have length : states.length = bs.length :=
      ((side.finds _ _).mp (rested.agrees.finds node a.here) states running).trans a.count.symm
    obtain ⟨w₁, idle, context⟩ := AtWork.aborted a (bs.zip states) [] (Setting.zip_map_fst length) (by simp)
      (w.congr fun c _ => by
        rw [List.nil_append, Setting.zip_map_snd length]
        constructor
        · intro found
          obtain ⟨states', hs, busy⟩ := found
          cases Eq.trans (Eq.symm running) hs
          exact busy
        · exact fun busy => ⟨states, running, busy⟩) (slot_reset m ⟨site, d⟩) ok
    exact ⟨w₁.rested (fun _ _ => id) idle, context⟩
  · rename_i fresh
    cases ok
    exact ⟨w.rested (fun c _ k => k.elim fun states k => fresh states k.1) (slot_reset m ⟨site, d⟩), rfl⟩

/-! ## Calls -/

/-- What is recorded is the tree in the slot. -/
theorem records_call {source : Source μ} {makeState : Option (StateMaker μ σ)}
    (hn : R.sys.nodeAt p.site = some (.call source makeState)) (m : Witnessed μ σ) :
    R.sys.Records m.runs.store p c ↔ ∃ tree state, m.runs.store.slot p = .call tree state ∧ c = p.callee tree := by
  constructor
  · intro h
    cases h with
    | inside h hi =>
      obtain rfl := Option.some.inj (hn.symm.trans h)
      exact absurd hi id
    | called _ hs => exact ⟨_, _, hs, rfl⟩
  · intro found
    obtain ⟨tree, state, hs, rfl⟩ := found
    exact .called hn hs

theorem resets_call {source : Source μ} {makeState : Option (StateMaker μ σ)}
    {resolve : Run (Recorded μ σ) μ σ (Option TreeId)} {callee : TreeId → Callee (Recorded μ σ) μ σ}
    (hn : R.sys.nodeAt site = some (.call source makeState)) (specs : ∀ tree, R.Works [tree] (callee tree).root) :
    R.Resets site (.call (slots site) resolve makeState callee) := by
  intro d fire m m' rested ok
  have w := (rested.start.reset (p := ⟨site, d⟩)).congr fun c _ => records_call (p := ⟨site, d⟩) hn m
  replace ok := (Behaviour.call_reset_apply ..).symm.trans ok
  split at ok
  · rename_i tree state running
    obtain ⟨names, -⟩ : source.Names tree ∧ _ := rested.agrees.finds _ hn tree state running
    have hc : R.sys.Child ⟨site, d⟩ ⟨[tree], d + 1⟩ := System.Child.called (p := ⟨site, d⟩) hn names
    have gone := (specs tree).reset (d + 1) fire _ m' (w.sound _ hc)
      (fun _ => (w.opens _ hc).mpr ⟨tree, state, running, rfl⟩) ok
    refine ⟨(w.gone hc gone).rested (fun c hc k => ?_) ?_, gone.context⟩
    · obtain ⟨other, tree', state', hs, rfl⟩ := k
      cases Eq.trans (Eq.symm running) hs
      exact other rfl
    · exact (gone.moves.parent hc).slot.trans (slot_reset m ⟨site, d⟩)
  · rename_i fresh
    cases ok
    exact ⟨w.rested (fun c _ k => by
      obtain ⟨tree, state, hs, -⟩ := k
      exact fresh tree state hs) (slot_reset m ⟨site, d⟩), rfl⟩

end Regime

end BehaviorTree
