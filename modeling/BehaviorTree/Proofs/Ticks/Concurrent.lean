/-
  BehaviorTree.Proofs.Ticks.Concurrent: ticks of nodes that run their children side by side.

  The children that the states call running are busy (`busyAmong`); each visit of a child
  updates its state along with what is below it. When the node stops, the running ones are
  abandoned; when it goes on, the states are what its slot keeps.
-/

import BehaviorTree.Proofs.Ticks.Several

namespace BehaviorTree

variable {ρ μ σ : Type}

open Behaviour (Tracked)

/-- The children that the states call running. -/
def busyAmong (p : Place) (states : List ChildState) (c : Place) : Prop :=
  ∃ i : Nat, c = p.inside i ∧ states[i]? = some .running

section
variable {p c : Place} {pre post : List ChildState} {x y : ChildState}

theorem busyAmong_here : busyAmong p (pre ++ x :: post) (p.inside pre.length) ↔ x = .running := by
  constructor
  · intro found
    obtain ⟨i, he, hi⟩ := found
    obtain rfl := Place.inside_injective he
    simpa using hi
  · intro same
    subst same
    exact ⟨_, rfl, by simp⟩

/-- The other children do not depend on the state of this one. -/
theorem busyAmong_elsewhere (hne : c ≠ p.inside pre.length) (h : busyAmong p (pre ++ x :: post) c) :
    busyAmong p (pre ++ y :: post) c := by
  obtain ⟨i, rfl, hi⟩ := h
  refine ⟨i, rfl, ?_⟩
  have : i ≠ pre.length := fun e => hne (e ▸ rfl)
  rcases Nat.lt_or_gt_of_ne this with lt | gt
  · rwa [List.getElem?_append_left lt] at hi ⊢
  · rw [List.getElem?_append_right (by omega)] at hi ⊢
    obtain ⟨k, hk⟩ : ∃ k, i - pre.length = k + 1 := ⟨i - pre.length - 1, by omega⟩
    rwa [hk, List.getElem?_cons_succ] at hi ⊢

end

namespace Setting

variable {S : Setting ρ μ σ} {p : Place} {site : Address} {node : Node μ σ} {bs : List (Behaviour ρ μ σ)} {d : Nat}
  {base m m₁ m' : Machine ρ μ σ} {st : Status}

/-- A node that remembers the states of all its children. -/
structure SideBySide (node : Node μ σ) : Prop where
  calls : ∀ source makeState, node ≠ .call source makeState
  runs : ∀ (slot : Slot σ) i, node.Runs slot i ↔ ∃ states, slot = .children states ∧ states[i]? = some .running
  fits : ∀ (slot : Slot σ) admits, node.Fits slot admits ↔
    slot = .idle ∨ ∃ states, slot = .children states ∧ states.length = node.children.length ∧ .running ∈ states

/-- The visit of a child updates its state. -/
theorem AtWork.visited (pre post : List ChildState) (x : ChildState)
    (w : S.AtWork p base m (busyAmong p (pre ++ x :: post))) (hc : S.sys.Child p (p.inside pre.length)) {s : Status}
    (h : S.Ended (p.inside pre.length) m s m₁) :
    S.AtWork p base m₁ (busyAmong p (pre ++ ChildState.after s :: post)) := by
  obtain ⟨busy, vacated⟩ := w.after hc h.moves h.sound
  by_cases hs : s = .running
  · subst hs
    refine busy.mono fun c _ hb => ?_
    by_cases hne : c = p.inside pre.length
    · subst hne
      exact busyAmong_here.mpr rfl
    · exact busyAmong_elsewhere hne (hb.resolve_right hne)
  · exact (vacated (h.vacant (Status.isTerminal_iff.mpr hs))).mono fun c _ hb => busyAmong_elsewhere hb.2 hb.1

/-- The visit of a child that is vacant then finishes it. -/
theorem AtWork.finished (pre post : List ChildState) (x : ChildState)
    (w : S.AtWork p base m (busyAmong p (pre ++ x :: post))) (hc : S.sys.Child p (p.inside pre.length)) {s : Status}
    (h : S.Ended (p.inside pre.length) m s m₁) (vacant : S.Vacant m₁ (p.inside pre.length)) :
    S.AtWork p base m₁ (busyAmong p (pre ++ ChildState.finished s :: post)) :=
  ((w.after hc h.moves h.sound).2 vacant).mono fun _ _ hb => busyAmong_elsewhere hb.2 hb.1

/-- The running children are abandoned. -/
theorem AtWork.aborted (hn : S.sys.nodeAt site = some node) (a : S.WorksAll site node bs)
    {tracked : List (Tracked ρ μ σ)} (here : tracked.map (·.1) = bs)
    (w : S.AtWork ⟨site, d⟩ base m (busyAmong ⟨site, d⟩ (tracked.map (·.2))))
    (idle : (S.store m).slot ⟨site, d⟩ = .idle) (ok : Behaviour.abort d true tracked m = .ok () m') :
    S.AtWork ⟨site, d⟩ base m' (fun _ => False) ∧ (S.store m').slot ⟨site, d⟩ = .idle ∧ m'.context = m.context := by
  have size : tracked.length = node.children.length := by rw [← a.count, ← here, List.length_map]
  obtain ⟨m₁, l, ok', L⟩ := (w.leaving idle true).abort (fun _ _ => True) tracked 0 trivial
    (fun j hj => by rw [Nat.zero_add]; exact .inside hn (size ▸ hj))
    (fun j b hb => by
      rw [Nat.zero_add]
      exact (a.works j b.1 (by rw [← here, List.getElem?_map, hb]; rfl)).reset)
    (fun c _ => by simp [busyAmong])
  cases ok'.symm.trans ok
  exact ⟨w.abandoned L, L.idle, L.context⟩

/-- Either the node stops with an answer, and nothing is left in a run, or all children were visited. -/
theorem visit_works (hn : S.sys.nodeAt site = some node) (a : S.WorksAll site node bs) {stop : Status → Bool}
    {r : Status ⊕ List ChildState} (rest seen : List (Tracked ρ μ σ)) (here : (seen ++ rest).map (·.1) = bs)
    (w : S.AtWork ⟨site, d⟩ base m (busyAmong ⟨site, d⟩ ((seen ++ rest).map (·.2))))
    (idle : (S.store m).slot ⟨site, d⟩ = .idle) (calm : S.Calm m)
    (ok : Behaviour.visit stop d seen rest m = .ok r m') :
    (S.store m').slot ⟨site, d⟩ = .idle ∧
      ((∃ s, r = .inl s ∧ S.AtWork ⟨site, d⟩ base m' (fun _ => False) ∧
          (m'.context.returnRequest.isSome = true → s.isTerminal = true ∨ S.asks)) ∨
        ∃ states, r = .inr states ∧ states.length = bs.length ∧ S.Calm m' ∧
          S.AtWork ⟨site, d⟩ base m' (busyAmong ⟨site, d⟩ states)) := by
  induction rest generalizing seen m with
  | nil =>
    simp only [Behaviour.visit, Run.pure_eq_ok] at ok
    obtain ⟨rfl, rfl⟩ := ok
    rw [List.append_nil] at here w
    exact ⟨idle, .inr ⟨_, rfl, by rw [← here, List.length_map, List.length_map], calm, w⟩⟩
  | cons first rest ih =>
    obtain ⟨b, state⟩ := first
    by_cases finished : ∃ s, state = .finished s
    · obtain ⟨s, rfl⟩ := finished
      rw [Behaviour.visit_finished] at ok
      exact ih (seen ++ [(b, ChildState.finished s)]) (by simpa using here) (by simpa using w) idle calm ok
    · have hb : bs[(seen.map (·.2)).length]? = some b := by simp [← here]
      have hc := a.child (d := d) hn hb
      obtain ⟨s, m₁, ticked, outcome⟩ := Behaviour.visit_cons_ok (fun s e => finished ⟨s, e⟩) ok
      have ended := (a.works _ b hb).tick _ _ _ _ (w.ready hc rfl calm) ticked
      have w₁ := AtWork.visited (seen.map (·.2)) (rest.map (·.2)) state (by simpa using w) hc ended.toEnded
      have idle₁ : (S.store m₁).slot ⟨site, d⟩ = .idle := (ended.moves.own_slot hc).trans idle
      rcases outcome with ⟨-, rfl, aborted⟩ | ⟨calm, -, ok⟩
      · obtain ⟨w₂, idle₂, context⟩ := AtWork.aborted hn a (by simpa using here) (by simpa using w₁) idle₁ aborted
        exact ⟨idle₂, .inl ⟨s, rfl, w₂, fun pending => ended.returning (context ▸ pending)⟩⟩
      · exact ih (seen ++ [(b, ChildState.after s)]) (by simpa using here) (by simpa using w₁) idle₁ (.inr calm) ok

namespace SideBySide

variable (side : SideBySide node) (hn : S.sys.nodeAt p.site = some node)
include side hn

/-- The states that a tick starts with call those children running that the slot records. -/
theorem begins (h : S.Ready p m) : S.AtWork p m (m.onRuns ((S.stage.cell p.site).reset · p.depth))
    (busyAmong p (((S.store m).slot p).childStates node.children.length)) := by
  refine (AtWork.start h).reset.mono fun c hc hr => ?_
  obtain ⟨i, -, rfl⟩ := hc.of_node hn side.calls
  obtain ⟨states, hs, hi⟩ := (side.runs _ _).mp (hr.runs hn)
  rcases (side.fits _ _).mp ((h.sound _ .refl).fits _ hn) with idle | ⟨states', hs', length, -⟩
  · cases hs.symm.trans idle
  · cases hs.symm.trans hs'
    exact ⟨i, rfl, by rw [hs, Slot.childStates, if_pos length, hi]⟩

/-- A tick that leaves children running, and says so in the slot. -/
theorem waits {states : List ChildState} (w : S.AtWork p base m (busyAmong p states))
    (length : states.length = node.children.length) (running : .running ∈ states) (calm : S.Calm m) :
    S.Ended p base .running (m.onRuns ((S.stage.cell p.site).set · p.depth (.children states))) := by
  refine (w.set _).waiting hn ?_ (fun c hc hb => ?_) calm
  · rw [slot_set, side.fits]
    exact .inr ⟨states, rfl, length, running⟩
  · obtain ⟨i, rfl, hi⟩ := hb
    refine .inside hn ?_
    rw [slot_set, side.runs]
    exact ⟨states, rfl, hi⟩

end SideBySide

theorem zip_map_fst {states : List ChildState} (length : states.length = bs.length) :
    (bs.zip states).map (·.1) = bs := List.map_fst_zip (by omega)

theorem zip_map_snd {states : List ChildState} (length : states.length = bs.length) :
    (bs.zip states).map (·.2) = states := List.map_snd_zip (by omega)

/-- A node that visits its children and goes on while some are running. -/
theorem ticks_visitAll (side : SideBySide node) (hn : S.sys.nodeAt site = some node) (a : S.WorksAll site node bs)
    {B : Behaviour ρ μ σ} {stop : Status → Bool} {otherwise : List ChildState → Status}
    (tick : B.tick = Behaviour.visitAll (S.stage.cell site) stop otherwise bs) : S.Ticks site B := by
  intro d m st m' h ok
  obtain rfl : m.context.depth = d := h.depth
  rw [tick] at ok
  obtain ⟨r, m₁, visited, outcome⟩ := Behaviour.visitAll_ok ok
  rw [S.get_eq _ ⟨site, m.context.depth⟩, a.count] at visited
  have length := ((S.store m).slot ⟨site, m.context.depth⟩).length_childStates bs.length
  have w := side.begins hn h
  obtain ⟨idle, works⟩ := visit_works (d := m.context.depth) hn a _ []
    (by rw [List.nil_append, ← a.count, zip_map_fst length])
    (by rw [List.nil_append, ← a.count, zip_map_snd length, a.count]; exact w) (slot_reset _ ⟨site, m.context.depth⟩)
    h.calm visited
  rcases works with ⟨s, rfl, w₁, returning⟩ | ⟨states, rfl, length, calm, w₁⟩
  · rcases outcome with ⟨hs, rfl⟩ | ⟨states, hs, -⟩
    · cases hs
      exact w₁.rested (fun _ _ => id) (fun _ => idle) returning
    · cases hs
  · rcases outcome with ⟨hs, -⟩ | ⟨states', hs, kept⟩
    · cases hs
    cases hs
    rcases Behaviour.keepRunning_ok kept with ⟨running, rfl, rfl⟩ | ⟨none, rfl, rfl⟩
    · exact side.waits hn w₁ (length.trans a.count) running calm
    · refine w₁.rested ?_ (fun _ => idle) fun pending => .inr (calm.resolve_right fun h => by simp [h] at pending)
      intro c _ found
      obtain ⟨i, -, hi⟩ := found
      exact none (List.mem_of_getElem? hi)

theorem raceFrom_ends (side : SideBySide node) (hn : S.sys.nodeAt site = some node) (drops : node.Drops)
    (a : S.WorksAll site node bs) (some : bs ≠ []) (rest seen : List (Tracked ρ μ σ))
    (here : (seen ++ rest).map (·.1) = bs) (all : ∀ t ∈ seen, t.2 = .running)
    (w : S.AtWork ⟨site, d⟩ base m (busyAmong ⟨site, d⟩ ((seen ++ rest).map (·.2))))
    (idle : (S.store m).slot ⟨site, d⟩ = .idle) (calm : S.Calm m)
    (ok : Behaviour.raceFrom (S.stage.cell site) d seen rest m = .ok st m') : S.Ended ⟨site, d⟩ base st m' := by
  induction rest generalizing seen m with
  | nil =>
    obtain ⟨rfl, rfl⟩ := Behaviour.raceFrom_nil_ok ok
    rw [List.append_nil] at here w
    refine side.waits hn w (by rw [List.length_map, ← a.count, ← here, List.length_map]) ?_ calm
    cases seen with
    | nil => exact absurd here.symm some
    | cons t seen =>
      rw [List.map_cons, all t (List.mem_cons_self ..)]
      exact List.mem_cons_self ..
  | cons first rest ih =>
    obtain ⟨b, state⟩ := first
    have hb : bs[(seen.map (·.2)).length]? = .some b := by simp [← here]
    have hc := a.child (d := d) hn hb
    obtain ⟨s, m₁, ticked, outcome⟩ := Behaviour.raceFrom_cons_ok ok
    have ended := (a.works _ b hb).tick _ _ _ _ (w.ready hc rfl calm) ticked
    have idle₁ : (S.store m₁).slot ⟨site, d⟩ = .idle := (ended.moves.own_slot hc).trans idle
    rcases outcome with ⟨why, rfl, aborted⟩ | ⟨calm, rfl, ok⟩
    · have vacant := why.elim (ended.dropped (System.dropped_inside hn drops _)) ended.vacant
      have w₁ := AtWork.finished (seen.map (·.2)) (rest.map (·.2)) state (by simpa using w) hc ended.toEnded vacant
      obtain ⟨w₂, idle₂, context⟩ := AtWork.aborted hn a (by simpa using here) (by simpa using w₁) idle₁ aborted
      exact w₂.rested (fun _ _ => id) (fun _ => idle₂) fun pending => ended.returning (context ▸ pending)
    · have w₁ := AtWork.visited (seen.map (·.2)) (rest.map (·.2)) state (by simpa using w) hc ended.toEnded
      refine ih (seen ++ [(b, ChildState.running)]) (by simpa using here) ?_
        (by simpa [ChildState.after, Status.isRunning] using w₁)
        idle₁ (.inr calm) ok
      intro t ht
      rcases List.mem_append.mp ht with ht | ht
      · exact all t ht
      · rw [List.mem_singleton.mp ht]

theorem ticks_race (side : SideBySide node) (hn : S.sys.nodeAt site = some node) (drops : node.Drops)
    (a : S.WorksAll site node bs) : S.Ticks site (.race (S.stage.cell site) bs) := by
  intro d m st m' h ok
  obtain rfl : m.context.depth = d := h.depth
  rcases Behaviour.race_ok ok with ⟨none, rfl, rfl⟩ | ⟨some, raced⟩
  · have empty : node.children.length = 0 := by rw [← a.count, none, List.length_nil]
    refine (AtWork.start h).rested (fun c hc _ => ?_) (fun _ => ?_) fun _ => .inl rfl
    · obtain ⟨i, hi, -⟩ := hc.of_node hn side.calls
      omega
    · rcases (side.fits _ _).mp ((h.sound _ .refl).fits _ hn) with idle | ⟨states, -, length, running⟩
      · exact idle
      · rw [empty] at length
        rw [List.length_eq_zero_iff.mp length] at running
        cases running
  · rw [S.get_eq _ ⟨site, m.context.depth⟩, a.count] at raced
    have length := ((S.store m).slot ⟨site, m.context.depth⟩).length_childStates bs.length
    have w := side.begins hn h
    exact raceFrom_ends (d := m.context.depth) side hn drops a some _ []
      (by rw [List.nil_append, ← a.count, zip_map_fst length]) (by simp)
      (by rw [List.nil_append, ← a.count, zip_map_snd length, a.count]; exact w)
      (slot_reset _ ⟨site, m.context.depth⟩)
      h.calm raced

end Setting

end BehaviorTree
