/-
  BehaviorTree.Proofs.Discipline.Several: ticks of nodes with several children.

  A node that runs its children in turn has one child in a run at most, and a node that looks
  at them again resets the one that it leaves behind. A node that runs them side by side knows
  a state for each, visit after visit, and resets those still running when it stops.
-/

import BehaviorTree.Proofs.Discipline.Single

namespace BehaviorTree

variable {μ σ : Type}

open Behaviour (Tracked)

namespace Regime

variable {R : Regime μ σ} {site : Address} {p c : Place} {node : Node μ σ} {d : Nat} {st : Status}
  {b : Behaviour (Recorded μ σ) μ σ} {bs : List (Behaviour (Recorded μ σ) μ σ)} {m m₁ m' base : Witnessed μ σ}
  {busy : Place → Prop}

/-! ## Children in order -/

/-- A node goes on with the child in its slot, which is the one in a run. -/
theorem AtWork.waits (w : R.AtWork p base m busy) (one : OneAtATime node) (hn : R.sys.nodeAt p.site = some node)
    {i : Nat} (only : ∀ c, R.sys.Child p c → (busy c ↔ c = p.inside i)) :
    R.Done p base (Status.running.isTerminal = true) (m.onRuns ((slots p.site).set · p.depth (.child i))) := by
  refine (w.set (.child i)).done (fun _ h => Option.some.inj (hn.symm.trans h) ▸ one.finds _ _) (fun c hc => ?_) nofun
  rw [only c hc, one.records hn hc, slot_set]
  constructor
  · exact fun here => ⟨i, rfl, here⟩
  · intro found
    obtain ⟨j, hj, rfl⟩ := found
    cases hj
    rfl

/-- All children before place `i` have ended, and none after it is in a run. -/
theorem inOrderFrom_done (one : OneAtATime node) (a : R.WorksAll site node bs) (ready : R.Ready ⟨site, d⟩ base)
    {pass : Verdict} (rest : List (Behaviour (Recorded μ σ) μ σ)) (i : Nat) (here : rest = bs.drop i)
    (w : R.AtWork ⟨site, d⟩ base m busy) (only : ∀ c, busy c → c = Place.inside ⟨site, d⟩ i)
    (calm : m.context.returnRequest = none)
    (ok : Behaviour.inOrderFrom (slots site) pass d i rest m = .ok st m') :
    R.Done ⟨site, d⟩ base (st.isTerminal = true) m' ∧ Asks m'.context st := by
  induction rest generalizing i m busy with
  | nil =>
    obtain ⟨rfl, rfl⟩ := Behaviour.inOrderFrom_nil_ok ok
    refine ⟨w.reset.rested (fun c hc k => ?_) (slot_reset _ ⟨site, d⟩), .of_calm calm⟩
    obtain ⟨j, hj, rfl⟩ := hc.of_node a.here one.calls
    obtain rfl := Place.inside_injective (only _ k)
    have := List.drop_eq_nil_iff.mp here.symm
    rw [a.count] at this
    omega
  | cons b rest ih =>
    obtain ⟨hb, next⟩ := cons_eq_drop here
    have hc := a.among (d := d) hb
    obtain ⟨s, m₁, ticked, outcome⟩ := Behaviour.inOrderFrom_cons_ok ok
    have child := (a.works i b hb).tick _ _ _ _ (w.ready ready rfl calm) (w.sound _ hc) ticked
    have w₁ := w.ticked hc child
    have others : ∀ c, ¬ (c ≠ ⟨i :: site, d⟩ ∧ busy c) := fun c k => k.1 (only c k.2)
    rcases outcome with ⟨why, rfl, rfl⟩ | ⟨calm, rfl, rfl, rfl⟩ | ⟨calm, rfl, ok⟩
    · have ended : st.isTerminal = true := why.elim child.asks.ended id
      refine ⟨w₁.reset.rested (fun c _ k => ?_) (slot_reset _ ⟨site, d⟩), child.asks⟩
      exact Status.isTerminal_iff.mp ended (k.resolve_left (others c)).2
    · refine ⟨w₁.waits one a.here fun c _ => ?_, child.asks⟩
      exact ⟨fun k => (k.resolve_left (others c)).1, fun same => .inr ⟨same, rfl⟩⟩
    · refine ih (i + 1) next w₁ (fun c k => ?_) calm ok
      cases pass <;> cases (k.resolve_left (others c)).2

theorem ticks_inOrder (one : OneAtATime node) (a : R.WorksAll site node bs) {pass : Verdict} :
    R.Ticks site (.inOrder (slots site) pass bs) := by
  intro d m st m' ready rested ok
  obtain rfl : m.context.depth = d := ready.depth
  have w := rested.start.congr fun c hc => one.records (p := ⟨site, m.context.depth⟩) a.here hc m
  refine inOrderFrom_done one a ready _ _ rfl w (fun c found => ?_) ready.calm (Behaviour.inOrder_ok ok)
  obtain ⟨i, hi, rfl⟩ := found
  have slot : (slots site).get m.runs m.context.depth = .child i := hi
  rw [slot]
  rfl

/-! ## Children looked at again -/

/-- Forgetting the child in the slot resets it if it is a later one. -/
theorem AtWork.preempted (a : R.WorksAll site node bs) (i : Nat)
    (w : R.AtWork ⟨site, d⟩ base m busy)
    (later : ∀ c, R.sys.Child ⟨site, d⟩ c → c ≠ Place.inside ⟨site, d⟩ i →
      (busy c ↔ ∃ k, m.runs.store.slot ⟨site, d⟩ = .child k ∧ i < k ∧ c = Place.inside ⟨site, d⟩ k))
    (ok : (slots site).preempt bs d i m = .ok () m') :
    R.AtWork ⟨site, d⟩ base m' (fun c => busy c ∧ c = Place.inside ⟨site, d⟩ i) ∧
      m'.runs.store.slot ⟨site, d⟩ = .idle ∧ m'.context = m.context := by
  rcases Behaviour.preempt_ok ok with ⟨none, rfl⟩ | ⟨k, b, hk, hik, hb, reset⟩
  · refine ⟨(w.reset (p := ⟨site, d⟩)).congr fun c hc => ⟨fun hb => ⟨hb, ?_⟩, And.left⟩, slot_reset _ ⟨site, d⟩, rfl⟩
    refine Decidable.byContradiction fun hne => ?_
    obtain ⟨k, hk, hik, -⟩ := (later c hc hne).mp hb
    have := none k hk
    omega
  · have hc := a.among (d := d) hb
    have other : Place.inside ⟨site, d⟩ k ≠ Place.inside ⟨site, d⟩ i := fun same => by
      have := Place.inside_injective same
      omega
    have w₁ := w.reset (p := ⟨site, d⟩)
    have gone := (a.works k b hb).reset d true _ m' (w₁.sound _ hc)
      (fun _ => (w₁.opens _ hc).mpr ((later _ hc other).mpr ⟨k, hk, hik, rfl⟩)) reset
    refine ⟨(w₁.gone hc gone).congr fun c hc' => ⟨fun hb => ⟨hb.2, ?_⟩, fun hb => ⟨hb.2 ▸ other.symm, hb.1⟩⟩,
      (gone.moves.parent hc).slot.trans (slot_reset m ⟨site, d⟩), gone.context⟩
    refine Decidable.byContradiction fun hne => ?_
    obtain ⟨k', hk', -, rfl⟩ := (later c hc' hne).mp hb.2
    cases Eq.trans (Eq.symm hk) hk'
    exact hb.1 rfl

/-- All children before place `i` have ended, and the one in a run, if there is one, is the one in the slot. -/
theorem reactiveFrom_done (one : OneAtATime node) (a : R.WorksAll site node bs) (ready : R.Ready ⟨site, d⟩ base)
    {pass : Verdict} {slot : Slot σ} (rest : List (Behaviour (Recorded μ σ) μ σ)) (i : Nat) (here : rest = bs.drop i)
    (w : R.AtWork ⟨site, d⟩ base m fun c => ∃ k, slot = .child k ∧ i ≤ k ∧ c = Place.inside ⟨site, d⟩ k)
    (same : m.runs.store.slot ⟨site, d⟩ = slot) (calm : m.context.returnRequest = none)
    (ok : Behaviour.reactiveFrom (slots site) pass bs d i rest m = .ok st m') :
    R.Done ⟨site, d⟩ base (st.isTerminal = true) m' ∧ Asks m'.context st := by
  induction rest generalizing i m with
  | nil =>
    obtain ⟨rfl, rfl⟩ := Behaviour.reactiveFrom_nil_ok ok
    refine ⟨w.reset.rested (fun c hc found => ?_) (slot_reset _ ⟨site, d⟩), .of_calm calm⟩
    obtain ⟨k, -, hik, rfl⟩ := found
    obtain ⟨j, hj, e⟩ := hc.of_node a.here one.calls
    obtain rfl := Place.inside_injective e
    have := List.drop_eq_nil_iff.mp here.symm
    rw [a.count] at this
    omega
  | cons b rest ih =>
    obtain ⟨hb, next⟩ := cons_eq_drop here
    have hc := a.among (d := d) hb
    obtain ⟨s, m₁, ticked, outcome⟩ := Behaviour.reactiveFrom_cons_ok ok
    have child := (a.works i b hb).tick _ _ _ _ (w.ready ready rfl calm) (w.sound _ hc) ticked
    have same₁ : m₁.runs.store.slot ⟨site, d⟩ = slot := (child.moves.parent hc).slot.trans same
    have later : ∀ c, c ≠ Place.inside ⟨site, d⟩ i →
        ((∃ k, slot = .child k ∧ i ≤ k ∧ c = Place.inside ⟨site, d⟩ k) ↔
          ∃ k, slot = .child k ∧ i < k ∧ c = Place.inside ⟨site, d⟩ k) := by
      intro c hne
      refine exists_congr fun k => and_congr_right fun _ => ⟨?_, ?_⟩
      · rintro ⟨hik, rfl⟩
        exact ⟨Nat.lt_of_le_of_ne hik fun e => hne (e ▸ rfl), rfl⟩
      · exact fun found => ⟨Nat.le_of_lt found.1, found.2⟩
    have w₁ : R.AtWork ⟨site, d⟩ base m₁ fun c =>
        (∃ k, slot = .child k ∧ i < k ∧ c = Place.inside ⟨site, d⟩ k) ∨
          c = Place.inside ⟨site, d⟩ i ∧ s = .running := by
      refine (w.ticked hc child).congr fun c _ => or_congr_left' fun _ => ?_
      refine ⟨fun k => (later c k.1).mp k.2, fun found => ?_⟩
      obtain ⟨k, hk, hik, rfl⟩ := found
      have hne : Place.inside ⟨site, d⟩ k ≠ Place.inside ⟨site, d⟩ i := fun e => by
        have := Place.inside_injective e
        omega
      exact ⟨hne, (later _ hne).mpr ⟨k, hk, hik, rfl⟩⟩
    have preempts : ∀ m₂, (slots site).preempt bs d i m₁ = .ok () m₂ →
        R.AtWork ⟨site, d⟩ base m₂ (fun c => c = Place.inside ⟨site, d⟩ i ∧ s = .running) ∧
          m₂.runs.store.slot ⟨site, d⟩ = .idle ∧ m₂.context = m₁.context := by
      intro m₂ preempt
      obtain ⟨w₂, idle, context⟩ := AtWork.preempted a i w₁ (fun c _ hne => by simp [hne, same₁]) preempt
      refine ⟨w₂.congr fun c _ => ⟨fun k => ⟨k.2, ?_⟩, fun k => ⟨.inr k, k.1⟩⟩, idle, context⟩
      obtain ⟨⟨k, -, hik, e⟩ | ⟨-, running⟩, rfl⟩ := k
      · have := Place.inside_injective e
        omega
      · exact running
    rcases outcome with ⟨why, rfl, preempt⟩ | ⟨calm, rfl, rfl, m₂, preempt, rfl⟩ | ⟨calm, rfl, ok⟩
    · have ended : st.isTerminal = true := why.elim child.asks.ended id
      obtain ⟨w₂, idle, context⟩ := preempts m' preempt
      exact ⟨w₂.rested (fun c _ k => Status.isTerminal_iff.mp ended k.2) idle, context ▸ child.asks⟩
    · obtain ⟨w₂, -, context⟩ := preempts m₂ preempt
      exact ⟨w₂.waits one a.here fun c _ => and_iff_left rfl, context ▸ child.asks⟩
    · refine ih (i + 1) next (w₁.congr fun c _ => ?_)
        same₁ calm ok
      exact or_iff_left fun k => by cases pass <;> cases k.2

theorem ticks_reactive (one : OneAtATime node) (a : R.WorksAll site node bs) {pass : Verdict} :
    R.Ticks site (.reactive (slots site) pass bs) := by
  intro d m st m' ready rested ok
  obtain rfl : m.context.depth = d := ready.depth
  have w := rested.start.congr fun c hc => one.records (p := ⟨site, m.context.depth⟩) a.here hc m
  exact reactiveFrom_done one a ready bs 0 rfl (w.congr fun c _ => by simp) rfl ready.calm (Behaviour.reactive_ok ok)

/-! ## One child among several -/

theorem ticks_selectOne {chooser : Chooser (Recorded μ σ) μ σ} (one : OneAtATime node) (a : R.WorksAll site node bs)
    (pick : ∀ count o m m', chooser.pick count m = .ok o m' → R.Still m m')
    (complete : ∀ i m m', chooser.complete i m = .ok () m' → R.Still m m') :
    R.Ticks site (.selectOne (slots site) chooser bs) := by
  intro d m st m' ready rested ok
  obtain rfl : m.context.depth = d := ready.depth
  obtain ⟨o, m₀, chosen, outcome⟩ := Behaviour.selectOne_ok ok
  obtain ⟨still, fresh⟩ : R.Still m m₀ ∧ ∀ i, m.runs.store.slot ⟨site, m.context.depth⟩ = .child i → o = some i := by
    rcases Behaviour.choose_ok chosen with ⟨i, hi, rfl, rfl⟩ | ⟨hf, picked⟩
    · refine ⟨.refl _, fun j hj => ?_⟩
      have slot : (slots site).get m₀.runs m₀.context.depth = .child j := hj
      rw [slot] at hi
      exact hi.symm
    · refine ⟨pick _ _ _ _ picked, fun j hj => ?_⟩
      have slot : (slots site).get m.runs m.context.depth = .child j := hj
      rw [slot] at hf
      cases hf
  have w := (rested.start.congr fun c hc => one.records (p := ⟨site, m.context.depth⟩) a.here hc m).still still
  rcases outcome with ⟨rfl, rfl, rfl⟩ | ⟨i, rfl, ticked⟩
  · refine ⟨rested.unchanged still fun _ c hc recorded => ?_, .of_calm (still.calm ready.calm)⟩
    obtain ⟨i, hi, -⟩ := (one.records (p := ⟨site, m.context.depth⟩) a.here hc m).mp recorded
    cases fresh i hi
  · obtain ⟨b, m₁, hb, ticked, outcome⟩ := Behaviour.tickChosen_ok ticked
    have hc := a.among (d := m.context.depth) hb
    have child := (a.works i b hb).tick _ _ _ _ (w.ready ready rfl (still.calm ready.calm)) (w.sound _ hc) ticked
    have w₁ : R.AtWork ⟨site, m.context.depth⟩ m m₁ fun c =>
        c = Place.inside ⟨site, m.context.depth⟩ i ∧ st = .running := by
      refine (w.ticked hc child).congr fun c _ => or_iff_right fun k => k.1 ?_
      obtain ⟨j, hj, rfl⟩ := k.2
      cases fresh j hj
      rfl
    rcases outcome with ⟨rfl, rfl⟩ | ⟨terminal, completed⟩
    · exact ⟨w₁.waits one a.here fun c _ => and_iff_left rfl, child.asks⟩
    · have still := complete _ _ _ completed
      have asks : Asks (m₁.onRuns ((slots site).reset · m.context.depth)).context st := child.asks
      refine ⟨(w₁.reset.still still).rested (fun c _ k => Status.isTerminal_iff.mp terminal k.2) ?_, asks.still still⟩
      exact (still.unmoved _).slot.trans (slot_reset m₁ ⟨site, m.context.depth⟩)

/-! ## Children side by side -/

/-- The visit of a child updates its state. -/
theorem AtWork.visited (pre post : List ChildState) (x : ChildState)
    (w : R.AtWork p base m (busyAmong p (pre ++ x :: post))) (hc : R.sys.Child p (p.inside pre.length))
    (h : R.Ticked (p.inside pre.length) m st m₁) :
    R.AtWork p base m₁ (busyAmong p (pre ++ ChildState.after st :: post)) := by
  refine (w.ticked hc h).congr fun c _ => (or_congr_right ?_).trans busyAmong_update.symm
  refine and_congr_right fun _ => ?_
  cases st <;> simp [ChildState.after, Status.isRunning]

/-- Either the node stops with an answer, and no child is in a run, or all children were visited. -/
theorem visit_done (a : R.WorksAll site node bs) (ready : R.Ready ⟨site, d⟩ base) {stop : Status → Bool}
    {r : Status ⊕ List ChildState} (rest seen : List (Tracked (Recorded μ σ) μ σ))
    (here : (seen ++ rest).map (·.1) = bs)
    (w : R.AtWork ⟨site, d⟩ base m (busyAmong ⟨site, d⟩ ((seen ++ rest).map (·.2))))
    (idle : m.runs.store.slot ⟨site, d⟩ = .idle) (calm : m.context.returnRequest = none)
    (ok : Behaviour.visit stop d seen rest m = .ok r m') :
    m'.runs.store.slot ⟨site, d⟩ = .idle ∧
      ((∃ s, r = .inl s ∧ R.AtWork ⟨site, d⟩ base m' (fun _ => False) ∧ Asks m'.context s) ∨
        ∃ states, r = .inr states ∧ states.length = bs.length ∧ m'.context.returnRequest = none ∧
          R.AtWork ⟨site, d⟩ base m' (busyAmong ⟨site, d⟩ states)) := by
  induction rest generalizing seen m with
  | nil =>
    simp only [Behaviour.visit, Run.pure_eq_ok] at ok
    obtain ⟨rfl, rfl⟩ := ok
    rw [List.append_nil] at here w
    exact ⟨idle, .inr ⟨_, rfl, by rw [← here, List.length_map, List.length_map], calm, w⟩⟩
  | cons first rest ih =>
    obtain ⟨b, state⟩ := first
    by_cases finished : ∃ s, state = .finished s
    · obtain ⟨s, rfl⟩ := finished
      rw [Behaviour.visit_finished] at ok
      exact ih (seen ++ [(b, ChildState.finished s)]) (by simpa using here) (by simpa using w) idle calm ok
    · have hb : bs[(seen.map (·.2)).length]? = some b := by simp [← here]
      have hc := a.among (d := d) hb
      obtain ⟨s, m₁, ticked, outcome⟩ := Behaviour.visit_cons_ok (fun s e => finished ⟨s, e⟩) ok
      have child := (a.works _ b hb).tick _ _ _ _ (w.ready ready rfl calm) (w.sound _ hc) ticked
      have w₁ := AtWork.visited (p := ⟨site, d⟩) (seen.map (·.2)) (rest.map (·.2)) state (by simpa using w) hc child
      have idle₁ : m₁.runs.store.slot ⟨site, d⟩ = .idle := (child.moves.parent hc).slot.trans idle
      rcases outcome with ⟨-, rfl, aborted⟩ | ⟨calm, -, ok⟩
      · obtain ⟨w₂, idle₂, context⟩ := AtWork.aborted a (seen ++ (b, ChildState.after s) :: rest) []
          (by simpa using here) (by simp) (by simpa using w₁) idle₁ aborted
        exact ⟨idle₂, .inl ⟨s, rfl, w₂, context ▸ child.asks⟩⟩
      · exact ih (seen ++ [(b, ChildState.after s)]) (by simpa using here) (by simpa using w₁) idle₁ calm ok

section
variable (side : SideBySide node) (hn : R.sys.nodeAt p.site = some node)
include side hn

/-- The states that a tick starts with call those children running that the slot records. -/
theorem Rested.begins (h : R.Rested m p) : R.AtWork p m (m.onRuns ((slots p.site).reset · p.depth))
    (busyAmong p ((m.runs.store.slot p).childStates node.children.length)) := by
  refine h.start.reset.congr fun c hc => (side.records hn hc m).trans ?_
  have length := (side.finds _ _).mp (h.agrees.finds node hn)
  constructor
  · intro found
    obtain ⟨states, hs, busy⟩ := found
    rwa [hs, Slot.childStates, if_pos (length states hs)]
  · intro busy
    cases hs : m.runs.store.slot p with
    | children states =>
      rw [hs, Slot.childStates, if_pos (length states hs)] at busy
      exact ⟨states, rfl, busy⟩
    | _ =>
      obtain ⟨i, -, hi⟩ := busy
      rw [hs] at hi
      simp [Slot.childStates, List.getElem?_replicate] at hi

/-- A tick that leaves children running, and says so in the slot. -/
theorem AtWork.keeps {states : List ChildState} (w : R.AtWork p base m (busyAmong p states))
    (length : states.length = node.children.length) :
    R.Done p base (Status.running.isTerminal = true)
      (m.onRuns ((slots p.site).set · p.depth (.children states))) := by
  refine (w.set (.children states)).done (fun _ h => Option.some.inj (hn.symm.trans h) ▸ ?_) (fun c hc => ?_) nofun
  · rw [slot_set, side.finds]
    intro states' hs
    cases hs
    exact length
  · rw [side.records hn hc, slot_set]
    constructor
    · exact fun busy => ⟨states, rfl, busy⟩
    · intro found
      obtain ⟨states', hs, busy⟩ := found
      cases hs
      exact busy

end

/-- A node that visits its children and goes on while some are running. -/
theorem ticks_visitAll (side : SideBySide node) (a : R.WorksAll site node bs) {B : Behaviour (Recorded μ σ) μ σ}
    {stop : Status → Bool} {otherwise : List ChildState → Status}
    (tick : B.tick = Behaviour.visitAll (slots site) stop otherwise bs) : R.Ticks site B := by
  intro d m st m' ready rested ok
  obtain rfl : m.context.depth = d := ready.depth
  rw [tick] at ok
  obtain ⟨r, m₁, visited, outcome⟩ := Behaviour.visitAll_ok ok
  have length := (m.runs.store.slot ⟨site, m.context.depth⟩).length_childStates bs.length
  have w := rested.begins side a.here
  rw [← a.count, ← Setting.zip_map_snd length] at w
  obtain ⟨idle, works⟩ := visit_done a ready _ [] (Setting.zip_map_fst length) w
    (slot_reset m ⟨site, m.context.depth⟩) ready.calm visited
  rcases works with ⟨s, rfl, w₁, asks⟩ | ⟨states, rfl, length, calm, w₁⟩
  · rcases outcome with ⟨hs, rfl⟩ | ⟨states, hs, -⟩
    · cases hs
      exact ⟨w₁.rested (fun _ _ => id) idle, asks⟩
    · cases hs
  · rcases outcome with ⟨hs, -⟩ | ⟨states', hs, kept⟩
    · cases hs
    cases hs
    rcases Behaviour.keepRunning_ok kept with ⟨-, rfl, rfl⟩ | ⟨none, rfl, rfl⟩
    · exact ⟨w₁.keeps side a.here (length.trans a.count), .of_calm calm⟩
    · refine ⟨w₁.rested (fun c _ found => ?_) idle, .of_calm calm⟩
      obtain ⟨i, -, hi⟩ := found
      exact none (List.mem_of_getElem? hi)

/-- The first child that ends decides; the others that are in a run are reset. -/
theorem raceFrom_done (side : SideBySide node) (a : R.WorksAll site node bs) (ready : R.Ready ⟨site, d⟩ base)
    (rest seen : List (Tracked (Recorded μ σ) μ σ)) (here : (seen ++ rest).map (·.1) = bs)
    (w : R.AtWork ⟨site, d⟩ base m (busyAmong ⟨site, d⟩ ((seen ++ rest).map (·.2))))
    (idle : m.runs.store.slot ⟨site, d⟩ = .idle) (calm : m.context.returnRequest = none)
    (ok : Behaviour.raceFrom (slots site) d seen rest m = .ok st m') :
    R.Done ⟨site, d⟩ base (st.isTerminal = true) m' ∧ Asks m'.context st := by
  induction rest generalizing seen m with
  | nil =>
    obtain ⟨rfl, rfl⟩ := Behaviour.raceFrom_nil_ok ok
    rw [List.append_nil] at here w
    exact ⟨w.keeps side a.here (by rw [List.length_map, ← a.count, ← here, List.length_map]), .of_calm calm⟩
  | cons first rest ih =>
    obtain ⟨b, state⟩ := first
    have hb : bs[(seen.map (·.2)).length]? = .some b := by simp [← here]
    have hc := a.among (d := d) hb
    obtain ⟨s, m₁, ticked, outcome⟩ := Behaviour.raceFrom_cons_ok ok
    have child := (a.works _ b hb).tick _ _ _ _ (w.ready ready rfl calm) (w.sound _ hc) ticked
    have idle₁ : m₁.runs.store.slot ⟨site, d⟩ = .idle := (child.moves.parent hc).slot.trans idle
    have w₁ := AtWork.visited (p := ⟨site, d⟩) (seen.map (·.2)) (rest.map (·.2)) state (by simpa using w) hc child
    rcases outcome with ⟨why, rfl, aborted⟩ | ⟨calm, rfl, ok⟩
    · have ended : st.isTerminal = true := why.elim child.asks.ended id
      have after : ChildState.after st = .finished st := by
        rw [ChildState.after, if_neg (by simpa [Status.isTerminal] using ended)]
      rw [after] at w₁
      obtain ⟨w₂, idle₂, context⟩ := AtWork.aborted a (seen ++ (b, .finished st) :: rest) []
        (by simpa using here) (by simp) (by simpa using w₁) idle₁ aborted
      exact ⟨w₂.rested (fun _ _ => id) idle₂, context ▸ child.asks⟩
    · exact ih (seen ++ [(b, ChildState.running)]) (by simpa using here)
        (by simpa [ChildState.after, Status.isRunning] using w₁) idle₁ calm ok

theorem ticks_race (side : SideBySide node) (a : R.WorksAll site node bs) :
    R.Ticks site (.race (slots site) bs) := by
  intro d m st m' ready rested ok
  obtain rfl : m.context.depth = d := ready.depth
  rcases Behaviour.race_ok ok with ⟨none, rfl, rfl⟩ | ⟨-, raced⟩
  · refine ⟨rested.unchanged (.refl _) fun _ c hc _ => ?_, .of_calm ready.calm⟩
    obtain ⟨i, hi, -⟩ := hc.of_node a.here side.calls
    rw [← a.count, none] at hi
    cases hi
  · have length := (m.runs.store.slot ⟨site, m.context.depth⟩).length_childStates bs.length
    have w := rested.begins side a.here
    rw [← a.count, ← Setting.zip_map_snd length] at w
    exact raceFrom_done side a ready _ [] (Setting.zip_map_fst length) w (slot_reset m ⟨site, m.context.depth⟩)
      ready.calm raced

end Regime

end BehaviorTree
