/-
  BehaviorTree.Proofs.Ticks.Several: ticks of nodes with several children.

  A node that runs its children in turn has one busy child at most, the one in its slot. A
  node that runs them side by side has those busy that its states call running
  (`busyAmong`), visit after visit.
-/

import BehaviorTree.Proofs.AtWork

namespace BehaviorTree

variable {ρ μ σ : Type}

open Behaviour (Tracked)

/-- What stands at a place of a list, and the rest after it. -/
theorem cons_eq_drop {α : Type} {xs rest : List α} {x : α} {i : Nat} (here : x :: rest = xs.drop i) :
    xs[i]? = some x ∧ rest = xs.drop (i + 1) := by
  constructor
  · rw [← List.head?_drop, ← here, List.head?_cons]
  · rw [← List.drop_drop, ← here, List.drop_one, List.tail_cons]

namespace Setting

variable {S : Setting ρ μ σ} {p c : Place} {site : Address} {node : Node μ σ} {bs : List (Behaviour ρ μ σ)} {d : Nat}
  {base m m₁ m' : Machine ρ μ σ} {st : Status} {busy : Place → Prop}

/-- The behaviours of a node's children. -/
structure WorksAll (S : Setting ρ μ σ) (site : Address) (node : Node μ σ) (bs : List (Behaviour ρ μ σ)) : Prop where
  count : bs.length = node.children.length
  works : ∀ i b, bs[i]? = some b → S.Works (i :: site) b

theorem WorksAll.child (a : S.WorksAll site node bs) (hn : S.sys.nodeAt site = some node) {i : Nat}
    {b : Behaviour ρ μ σ} (hb : bs[i]? = some b) : S.sys.Child ⟨site, d⟩ (Place.inside ⟨site, d⟩ i) := by
  obtain ⟨hi, -⟩ := List.getElem?_eq_some_iff.mp hb
  exact .inside hn (a.count ▸ hi)

/-- A node that remembers the child it is at. -/
structure OneAtATime (node : Node μ σ) : Prop where
  calls : ∀ source makeState, node ≠ .call source makeState
  runs : ∀ (slot : Slot σ) i, node.Runs slot i ↔ slot = .child i
  fits : ∀ (slot : Slot σ) admits, node.Fits slot admits ↔
    slot = .idle ∨ ∃ i, slot = .child i ∧ i < node.children.length

namespace OneAtATime

variable (one : OneAtATime node) (hn : S.sys.nodeAt p.site = some node)
include one hn

/-- What is recorded is the child in the slot. -/
theorem recorded (hc : S.sys.Child p c) (hr : S.sys.Records (S.store m) p c) :
    ∃ i, (S.store m).slot p = .child i ∧ c = p.inside i := by
  obtain ⟨i, -, rfl⟩ := hc.of_node hn one.calls
  exact ⟨i, (one.runs _ _).mp (hr.runs hn), rfl⟩

theorem bound (h : S.Ready p m) {i : Nat} (hi : (S.store m).slot p = .child i) : i < node.children.length := by
  rcases (one.fits _ _).mp ((h.sound _ .refl).fits _ hn) with idle | ⟨j, hj, bound⟩
  · cases hi.symm.trans idle
  · cases hi.symm.trans hj
    exact bound

/-- A tick that leaves one child running, and says so in the slot. -/
theorem waits {i : Nat} (w : S.AtWork p base m busy) (bound : i < node.children.length)
    (only : ∀ c, S.sys.Child p c → busy c → c = p.inside i) (calm : S.Calm m) :
    S.Ended p base .running (m.onRuns ((S.stage.cell p.site).set · p.depth (.child i))) := by
  refine (w.set _).waiting hn ?_ (fun c hc hb => ?_) calm
  · rw [slot_set, one.fits]
    exact .inr ⟨i, rfl, bound⟩
  · obtain rfl := only c hc hb
    refine .inside hn ?_
    rw [slot_set, one.runs]

end OneAtATime

/-! ## Children in order -/

theorem inOrderFrom_ends (one : OneAtATime node) (hn : S.sys.nodeAt site = some node) (drops : node.Drops)
    (a : S.WorksAll site node bs) {pass : Verdict} (rest : List (Behaviour ρ μ σ)) (i : Nat) (here : rest = bs.drop i)
    (w : S.AtWork ⟨site, d⟩ base m fun c => c = Place.inside ⟨site, d⟩ i) (calm : S.Calm m)
    (ok : Behaviour.inOrderFrom (S.stage.cell site) pass d i rest m = .ok st m') :
    S.Ended ⟨site, d⟩ base st m' := by
  induction rest generalizing i m with
  | nil =>
    obtain ⟨rfl, rfl⟩ := Behaviour.inOrderFrom_nil_ok ok
    refine w.reset.rested (fun c hc k => ?_) (fun _ => slot_reset _ _) fun _ => .inl (by simp)
    obtain ⟨j, hj, rfl⟩ := hc.of_node hn one.calls
    obtain rfl := Place.inside_injective k
    have := List.drop_eq_nil_iff.mp here.symm
    rw [a.count] at this
    omega
  | cons b rest ih =>
    obtain ⟨hb, next⟩ := cons_eq_drop here
    have hc := a.child (d := d) hn hb
    obtain ⟨s, m₁, ticked, outcome⟩ := Behaviour.inOrderFrom_cons_ok ok
    have ended := (a.works i b hb).tick _ _ _ _ (w.ready hc rfl calm) ticked
    obtain ⟨busy, vacated⟩ := w.after hc ended.moves ended.sound
    rcases outcome with ⟨why, rfl, rfl⟩ | ⟨calm, rfl, rfl, rfl⟩ | ⟨calm, rfl, ok⟩
    · have vacant := why.elim (ended.dropped (System.dropped_inside hn drops i)) ended.vacant
      exact (vacated vacant).reset.rested (fun _ _ k => k.2 k.1) (fun _ => slot_reset _ _) ended.returning
    · obtain ⟨hi, -⟩ := List.getElem?_eq_some_iff.mp hb
      exact one.waits hn busy (a.count ▸ hi) (fun _ _ k => k.elim id id) (.inr calm)
    · exact ih (i + 1) next ((vacated (ended.vacant (by simp))).mono fun _ _ k => absurd k.1 k.2) (.inr calm) ok

theorem ticks_inOrder (one : OneAtATime node) (hn : S.sys.nodeAt site = some node) (drops : node.Drops)
    (a : S.WorksAll site node bs) {pass : Verdict} : S.Ticks site (.inOrder (S.stage.cell site) pass bs) := by
  intro d m st m' h ok
  obtain rfl : m.context.depth = d := h.depth
  refine inOrderFrom_ends one hn drops a _ _ rfl ((AtWork.start h).mono fun c hc hr => ?_) h.calm
    (Behaviour.inOrder_ok ok)
  obtain ⟨i, hi, rfl⟩ := one.recorded hn hc hr
  rw [S.get_eq _ ⟨site, m.context.depth⟩, hi]
  rfl

/-! ## Children looked at again -/

/-- Forgetting the child in the slot abandons it if it is a later one. -/
theorem preempted (hn : S.sys.nodeAt site = some node) (a : S.WorksAll site node bs)
    (i : Nat) (w : S.AtWork ⟨site, d⟩ base m busy)
    (later : ∀ c, S.sys.Child ⟨site, d⟩ c → busy c → c ≠ Place.inside ⟨site, d⟩ i →
      ∃ k, (S.store m).slot ⟨site, d⟩ = .child k ∧ i < k ∧ c = Place.inside ⟨site, d⟩ k)
    (recorded : ∀ k, (S.store m).slot ⟨site, d⟩ = .child k → i < k → busy (Place.inside ⟨site, d⟩ k))
    (ok : (S.stage.cell site).preempt bs d i m = .ok () m') :
    S.AtWork ⟨site, d⟩ base m' (fun c => busy c ∧ c = Place.inside ⟨site, d⟩ i) ∧
      (S.store m').slot ⟨site, d⟩ = .idle ∧ m'.context = m.context := by
  rcases Behaviour.preempt_ok ok with ⟨none, rfl⟩ | ⟨k, b, hk, hik, hb, reset⟩
  · refine ⟨w.reset.mono fun c hc hb => ⟨hb, ?_⟩, slot_reset _ ⟨site, d⟩, rfl⟩
    refine Decidable.byContradiction fun hne => ?_
    obtain ⟨k, hk, hik, -⟩ := later c hc hb hne
    have := none k hk
    omega
  · have hc := a.child (d := d) hn hb
    obtain ⟨m₁, l, reset', L⟩ := (w.reset.leaving (slot_reset _ ⟨site, d⟩) true).reset hc (recorded k hk hik)
      (a.works k b hb).reset trivial
    cases reset'.symm.trans reset
    refine ⟨(w.reset.abandoned L).mono fun c hc hb => ⟨hb.1, ?_⟩, L.idle, L.context⟩
    refine Decidable.byContradiction fun hne => ?_
    obtain ⟨k', hk', -, rfl⟩ := later c hc hb.1 hne
    cases Eq.trans (Eq.symm hk) hk'
    exact hb.2 rfl

theorem reactiveFrom_ends (one : OneAtATime node) (hn : S.sys.nodeAt site = some node) (drops : node.Drops)
    (a : S.WorksAll site node bs) {pass : Verdict} {slot : Slot σ}
    (bound : ∀ k, slot = .child k → k < node.children.length) (rest : List (Behaviour ρ μ σ)) (i : Nat)
    (here : rest = bs.drop i)
    (w : S.AtWork ⟨site, d⟩ base m fun c => ∃ k, slot = .child k ∧ i ≤ k ∧ c = Place.inside ⟨site, d⟩ k)
    (same : (S.store m).slot ⟨site, d⟩ = slot) (calm : S.Calm m)
    (ok : Behaviour.reactiveFrom (S.stage.cell site) pass bs d i rest m = .ok st m') :
    S.Ended ⟨site, d⟩ base st m' := by
  induction rest generalizing i m with
  | nil =>
    obtain ⟨rfl, rfl⟩ := Behaviour.reactiveFrom_nil_ok ok
    refine w.reset.rested ?_ (fun _ => slot_reset _ _) fun _ => .inl (by simp)
    intro c hc found
    obtain ⟨k, hk, hik, rfl⟩ := found
    have := List.drop_eq_nil_iff.mp here.symm
    rw [a.count] at this
    have := bound k hk
    omega
  | cons b rest ih =>
    obtain ⟨hb, next⟩ := cons_eq_drop here
    have hc := a.child (d := d) hn hb
    obtain ⟨s, m₁, ticked, outcome⟩ := Behaviour.reactiveFrom_cons_ok ok
    have ended := (a.works i b hb).tick _ _ _ _ (w.ready hc rfl calm) ticked
    obtain ⟨busy, vacated⟩ := w.after hc ended.moves ended.sound
    have same₁ : (S.store m₁).slot ⟨site, d⟩ = slot := (ended.moves.own_slot hc).trans same
    have beyond : ∀ {k}, i ≤ k → Place.inside ⟨site, d⟩ k ≠ Place.inside ⟨site, d⟩ i → i < k := by
      intro k hik hne
      rcases Nat.lt_or_eq_of_le hik with h | rfl
      · exact h
      · exact absurd rfl hne
    rcases outcome with ⟨why, rfl, preempt⟩ | ⟨calm, rfl, rfl, m₂, preempt, rfl⟩ | ⟨calm, rfl, ok⟩
    · have vacant := why.elim (ended.dropped (System.dropped_inside hn drops i)) ended.vacant
      obtain ⟨w₂, idle, context⟩ := preempted hn a i (vacated vacant)
        (fun c _ ⟨⟨k, hk, hik, e⟩, hne⟩ _ => ⟨k, same₁.trans hk, beyond hik (e ▸ hne), e⟩)
        (fun k hk hik =>
          ⟨⟨k, same₁.symm.trans hk, by omega, rfl⟩, fun e => by have := Place.inside_injective e; omega⟩) preempt
      exact w₂.rested (fun _ _ k => k.1.2 k.2) (fun _ => idle) fun pending => ended.returning (context ▸ pending)
    · obtain ⟨w₂, -, context⟩ := preempted hn a i busy
        (fun c _ why hne => by
          obtain ⟨k, hk, hik, rfl⟩ := why.resolve_right hne
          exact ⟨k, same₁.trans hk, beyond hik hne, rfl⟩)
        (fun k hk hik => .inl ⟨k, same₁.symm.trans hk, by omega, rfl⟩) preempt
      obtain ⟨hi, -⟩ := List.getElem?_eq_some_iff.mp hb
      exact one.waits hn w₂ (a.count ▸ hi) (fun _ _ k => k.2) (.inr (by rw [context, calm]))
    · refine ih (i + 1) next ((vacated (ended.vacant (by simp))).mono fun c _ found => ?_) same₁ (.inr calm) ok
      obtain ⟨⟨k, hk, hik, rfl⟩, hne⟩ := found
      exact ⟨k, hk, beyond hik hne, rfl⟩

theorem ticks_reactive (one : OneAtATime node) (hn : S.sys.nodeAt site = some node) (drops : node.Drops)
    (a : S.WorksAll site node bs) {pass : Verdict} : S.Ticks site (.reactive (S.stage.cell site) pass bs) := by
  intro d m st m' h ok
  obtain rfl : m.context.depth = d := h.depth
  refine reactiveFrom_ends one hn drops a (fun k hk => one.bound hn h hk) bs 0 rfl
    ((AtWork.start h).mono fun c hc hr => ?_) rfl h.calm (Behaviour.reactive_ok ok)
  obtain ⟨i, hi, rfl⟩ := one.recorded hn hc hr
  exact ⟨i, hi, Nat.zero_le i, rfl⟩

/-! ## One child among several -/

theorem ticks_selectOne {chooser : Chooser ρ μ σ} (one : OneAtATime node) (hn : S.sys.nodeAt site = some node)
    (a : S.WorksAll site node bs) (pick : ∀ count o m m', chooser.pick count m = .ok o m' → S.Still m m')
    (complete : ∀ i m m', chooser.complete i m = .ok () m' → S.Still m m') :
    S.Ticks site (.selectOne (S.stage.cell site) chooser bs) := by
  intro d m st m' h ok
  obtain rfl : m.context.depth = d := h.depth
  obtain ⟨o, m₀, chosen, outcome⟩ := Behaviour.selectOne_ok ok
  obtain ⟨still, fresh⟩ : S.Still m m₀ ∧ ∀ i, (S.store m).slot ⟨site, m.context.depth⟩ = .child i → o = some i := by
    rcases Behaviour.choose_ok chosen with ⟨i, hi, rfl, rfl⟩ | ⟨hf, picked⟩
    · refine ⟨.of_stays (.refl _), fun j hj => ?_⟩
      rw [S.get_eq _ ⟨site, m₀.context.depth⟩, hj] at hi
      exact hi.symm
    · refine ⟨pick _ _ _ _ picked, fun j hj => ?_⟩
      rw [S.get_eq _ ⟨site, m.context.depth⟩, hj] at hf
      cases hf
  have w := (AtWork.start h).still still
  rcases outcome with ⟨rfl, rfl, rfl⟩ | ⟨i, rfl, ticked⟩
  · refine w.rested (fun c hc hr => ?_) (fun _ => (still.slots _).trans ?_) fun _ => .inl rfl
    · obtain ⟨i, hi, -⟩ := one.recorded hn hc hr
      cases fresh i hi
    · rcases (one.fits _ _).mp ((h.sound _ .refl).fits _ hn) with idle | ⟨i, hi, -⟩
      · exact idle
      · cases fresh i hi
  · obtain ⟨b, m₁, hb, ticked, outcome⟩ := Behaviour.tickChosen_ok ticked
    have hc := a.child (d := m.context.depth) hn hb
    have ended := (a.works i b hb).tick _ _ _ _ (w.ready hc rfl (still.calm h.calm)) ticked
    obtain ⟨busy, vacated⟩ := w.after hc ended.moves ended.sound
    have only : ∀ c, S.sys.Child ⟨site, m.context.depth⟩ c → S.sys.Records (S.store m) ⟨site, m.context.depth⟩ c →
        c = Place.inside ⟨site, m.context.depth⟩ i := by
      intro c hc hr
      obtain ⟨j, hj, rfl⟩ := one.recorded hn hc hr
      cases fresh j hj
      rfl
    rcases outcome with ⟨rfl, rfl⟩ | ⟨terminal, completed⟩
    · obtain ⟨hi, -⟩ := List.getElem?_eq_some_iff.mp hb
      exact one.waits hn busy (a.count ▸ hi) (fun c hc k => k.elim (only c hc) id) ended.calm
    · have still := complete _ _ _ completed
      refine ((vacated (ended.vacant terminal)).reset.still still).rested
        (fun c hc k => k.2 (only c hc k.1)) (fun _ => ?_) fun _ => .inl terminal
      exact (still.slots _).trans (slot_reset _ ⟨site, m.context.depth⟩)

end Setting

end BehaviorTree
