/-
  BehaviorTree.Proofs.Returns.Several: the ticks of nodes with several children, and of
  calls, seen in a recorded history.

  Each of them goes from child to child while no request is pending. When one is, the
  children that are running are abandoned, which is quiet, and no other child is ticked.
-/

import BehaviorTree.Proofs.Returns.Goes

namespace BehaviorTree

variable {μ σ : Type}

namespace System

open Machine (Free)

variable {sys : System μ σ} {path : List Place} {site : Address} {d : Nat} {st : Status}
  {m m₀ m₁ m' : Machine (Recorded μ σ) μ σ} {b B : Behaviour (Recorded μ σ) μ σ}
  {bs : List (Behaviour (Recorded μ σ) μ σ)}

/-! ## Several children -/

theorem goes_inOrderFrom {pass : Verdict} {i : Nat} (specs : ∀ b ∈ bs, sys.Heeds path d b)
    (hd : m.context.depth = d) (calm : m.context.returnRequest = none)
    (h : Behaviour.inOrderFrom (Stage.recording.cell site) pass d i bs m = .ok st m') : sys.Goes path m m' := by
  induction bs generalizing m i with
  | nil =>
    obtain ⟨-, rfl⟩ := Behaviour.inOrderFrom_nil_ok h
    exact .of_free calm (.reset ..)
  | cons b rest ih =>
    obtain ⟨s, m₁, ticked, outcome⟩ := Behaviour.inOrderFrom_cons_ok h
    have goes := specs b (List.mem_cons_self ..) _ _ _ hd calm ticked
    rcases outcome with ⟨-, -, rfl⟩ | ⟨-, -, -, rfl⟩ | ⟨calm, -, later⟩
    · exact goes.reset ..
    · exact goes.set ..
    · exact goes.andThen calm
        (ih (fun b hb => specs b (List.mem_cons_of_mem _ hb)) (goes.depth.trans hd) calm later)

theorem heeds_inOrder {pass : Verdict} (specs : ∀ b ∈ bs, sys.Heeds path d b) :
    sys.Heeds path d (.inOrder (Stage.recording.cell site) pass bs) := by
  intro m st m' hd calm h
  have h := Behaviour.inOrder_ok h
  rw [hd] at h
  exact goes_inOrderFrom (fun b hb => specs b (List.mem_of_mem_drop hb)) hd calm h

theorem quiet_preempt {i : Nat} {u : Unit} (specs : ∀ b ∈ bs, sys.Hushed path d b)
    (h : (Stage.recording.cell site).preempt bs d i m = .ok u m') : sys.Quiet path m m' := by
  rcases Behaviour.preempt_ok h with ⟨-, rfl⟩ | ⟨k, b, -, -, hb, abandoned⟩
  · exact .reset ..
  · exact (Quiet.reset m site d).trans (specs b (List.mem_of_getElem? hb) _ _ _ abandoned)

theorem goes_reactiveFrom {pass : Verdict} {i : Nat} {all : List (Behaviour (Recorded μ σ) μ σ)}
    (hushes : ∀ b ∈ all, sys.Hushed path d b) (specs : ∀ b ∈ bs, sys.Heeds path d b) (hd : m.context.depth = d)
    (calm : m.context.returnRequest = none)
    (h : Behaviour.reactiveFrom (Stage.recording.cell site) pass all d i bs m = .ok st m') : sys.Goes path m m' := by
  induction bs generalizing m i with
  | nil =>
    obtain ⟨-, rfl⟩ := Behaviour.reactiveFrom_nil_ok h
    exact .of_free calm (.reset ..)
  | cons b rest ih =>
    obtain ⟨s, m₁, ticked, outcome⟩ := Behaviour.reactiveFrom_cons_ok h
    have goes := specs b (List.mem_cons_self ..) _ _ _ hd calm ticked
    rcases outcome with ⟨-, -, preempted⟩ | ⟨-, -, -, m₂, preempted, rfl⟩ | ⟨calm, -, later⟩
    · exact goes.quiet (quiet_preempt hushes preempted)
    · exact (goes.quiet (quiet_preempt hushes preempted)).set ..
    · exact goes.andThen calm
        (ih (fun b hb => specs b (List.mem_cons_of_mem _ hb)) (goes.depth.trans hd) calm later)

theorem heeds_reactive {pass : Verdict} (hushes : ∀ b ∈ bs, sys.Hushed path d b)
    (specs : ∀ b ∈ bs, sys.Heeds path d b) :
    sys.Heeds path d (.reactive (Stage.recording.cell site) pass bs) := by
  intro m st m' hd calm h
  have h := Behaviour.reactive_ok h
  rw [hd] at h
  exact goes_reactiveFrom hushes specs hd calm h

/-- What is remembered of a child does not matter for its reset. -/
theorem hushed_other {seen rest : List (Behaviour.Tracked (Recorded μ σ) μ σ)} {state : ChildState}
    (h : ∀ t ∈ seen ++ (b, state) :: rest, sys.Hushed path d t.1) (other : ChildState) :
    ∀ t ∈ seen ++ (b, other) :: rest, sys.Hushed path d t.1 := by
  simp only [List.mem_append, List.mem_cons] at h ⊢
  intro t ht
  rcases ht with ht | rfl | ht
  · exact h t (.inl ht)
  · exact h (b, state) (.inr (.inl rfl))
  · exact h t (.inr (.inr ht))

theorem goes_visit {stop : Status → Bool} {r : Status ⊕ List ChildState}
    {seen rest : List (Behaviour.Tracked (Recorded μ σ) μ σ)}
    (hushes : ∀ t ∈ seen ++ rest, sys.Hushed path d t.1) (specs : ∀ t ∈ rest, sys.Heeds path d t.1)
    (hd : m.context.depth = d) (calm : m.context.returnRequest = none)
    (h : Behaviour.visit stop d seen rest m = .ok r m') : sys.Goes path m m' := by
  induction rest generalizing m seen with
  | nil =>
    simp only [Behaviour.visit, Run.pure_eq_ok] at h
    obtain ⟨-, rfl⟩ := h
    exact .of_free calm (.of_stays (.refl _))
  | cons first rest ih =>
    obtain ⟨b, state⟩ := first
    have later := fun t ht => specs t (List.mem_cons_of_mem _ ht)
    by_cases finished : ∃ s, state = .finished s
    · obtain ⟨s, rfl⟩ := finished
      rw [Behaviour.visit_finished] at h
      exact ih (by simpa using hushes) later hd calm h
    · obtain ⟨s, m₁, ticked, outcome⟩ := Behaviour.visit_cons_ok (fun s e => finished ⟨s, e⟩) h
      have goes := specs _ (List.mem_cons_self ..) _ _ _ hd calm ticked
      rcases outcome with ⟨-, -, aborted⟩ | ⟨calm, -, on⟩
      · exact goes.quiet (quiet_abort (hushed_other hushes _) aborted)
      · exact goes.andThen calm (ih (by simpa using hushed_other hushes _) later (goes.depth.trans hd) calm on)

/-- A node that visits its children. -/
theorem heeds_visitAll {stop : Status → Bool} {otherwise : List ChildState → Status}
    (tick : B.tick = Behaviour.visitAll (Stage.recording.cell site) stop otherwise bs)
    (hushes : ∀ b ∈ bs, sys.Hushed path d b) (specs : ∀ b ∈ bs, sys.Heeds path d b) : sys.Heeds path d B := by
  intro m st m' hd calm h
  rw [tick] at h
  obtain ⟨r, m₁, visited, outcome⟩ := Behaviour.visitAll_ok h
  rw [hd] at visited
  have goes := Goes.after_free calm (.reset m site d)
    (goes_visit (fun t ht => hushes _ (List.of_mem_zip ht).1) (fun t ht => specs _ (List.of_mem_zip ht).1) hd calm
      visited)
  rcases outcome with ⟨-, rfl⟩ | ⟨states, -, kept⟩
  · exact goes
  · rcases Behaviour.keepRunning_ok kept with ⟨-, -, rfl⟩ | ⟨-, -, rfl⟩
    · exact goes.set ..
    · exact goes

theorem goes_raceFrom {seen rest : List (Behaviour.Tracked (Recorded μ σ) μ σ)}
    (hushes : ∀ t ∈ seen ++ rest, sys.Hushed path d t.1) (specs : ∀ t ∈ rest, sys.Heeds path d t.1)
    (hd : m.context.depth = d) (calm : m.context.returnRequest = none)
    (h : Behaviour.raceFrom (Stage.recording.cell site) d seen rest m = .ok st m') : sys.Goes path m m' := by
  induction rest generalizing m seen with
  | nil =>
    obtain ⟨-, rfl⟩ := Behaviour.raceFrom_nil_ok h
    exact .of_free calm (.set ..)
  | cons first rest ih =>
    obtain ⟨b, state⟩ := first
    obtain ⟨s, m₁, ticked, outcome⟩ := Behaviour.raceFrom_cons_ok h
    have goes := specs _ (List.mem_cons_self ..) _ _ _ hd calm ticked
    rcases outcome with ⟨-, -, aborted⟩ | ⟨calm, -, on⟩
    · exact goes.quiet (quiet_abort (hushed_other hushes _) aborted)
    · exact goes.andThen calm (ih (by simpa using hushed_other hushes _)
        (fun t ht => specs t (List.mem_cons_of_mem _ ht))
        (goes.depth.trans hd) calm on)

theorem heeds_race (hushes : ∀ b ∈ bs, sys.Hushed path d b) (specs : ∀ b ∈ bs, sys.Heeds path d b) :
    sys.Heeds path d (.race (Stage.recording.cell site) bs) := by
  intro m st m' hd calm h
  rcases Behaviour.race_ok h with ⟨-, -, rfl⟩ | ⟨-, raced⟩
  · exact .of_free calm (.of_stays (.refl _))
  · rw [hd] at raced
    exact Goes.after_free calm (.reset m site d)
      (goes_raceFrom (fun t ht => hushes _ (List.of_mem_zip ht).1) (fun t ht => specs _ (List.of_mem_zip ht).1) hd calm
        raced)

/-- A choice may use callbacks; when a child is done, a custom chooser hears of it. -/
theorem heeds_selectOne {policy : Policy μ} {children : List (Node μ σ)}
    (hn : sys.nodeAt site = some (.selectOne policy children)) (specs : ∀ b ∈ bs, sys.Heeds path d b) :
    sys.Heeds path d (.selectOne (Stage.recording.cell site) (Stage.recording.chooser site policy) bs) := by
  have picks : ∀ {count o n n'}, (Stage.recording.chooser site policy : Chooser (Recorded μ σ) μ σ).pick count n =
      .ok o n' → n.Free n' := by
    intro count o n n' h
    obtain ⟨p, rfl⟩ | ⟨x, rfl⟩ := Stage.pick_ok h
    · exact ⟨rfl, rfl, id⟩
    · exact .withMemory ..
  have completes : ∀ {i n n'}, (Stage.recording.chooser site policy : Chooser (Recorded μ σ) μ σ).complete i n =
      .ok () n' → sys.Quiet path n n' := by
    intro i n n' h
    cases policy with
    | picker initial =>
      simp only [Stage.chooser, EStateM.Result.ok.injEq] at h
      exact h.2 ▸ .of_unwinds rfl rfl .refl rfl
    | custom pick complete =>
      simp only [Stage.chooser, Run.remember_eq_ok] at h
      exact h ▸ .of_unwinds rfl rfl (System.Unwinds.refl.done i hn) rfl
  intro m st m' hd calm h
  obtain ⟨o, m₀, chosen, outcome⟩ := Behaviour.selectOne_ok h
  have free : m.Free m₀ := by
    rcases Behaviour.choose_ok chosen with ⟨i, -, -, rfl⟩ | ⟨-, picked⟩
    · exact .of_stays (.refl _)
    · exact picks picked
  rcases outcome with ⟨-, -, rfl⟩ | ⟨i, -, ticks⟩
  · exact .of_free calm free
  · obtain ⟨b, m₁, hb, ticked, ended⟩ := Behaviour.tickChosen_ok ticks
    have goes := Goes.after_free calm free
      (specs b (List.mem_of_getElem? hb) _ _ _ (free.depth.trans hd) (free.calm calm) ticked)
    rcases ended with ⟨-, rfl⟩ | ⟨-, completed⟩
    · exact goes.set ..
    · exact (goes.reset ..).quiet (completes completed)

/-! ## Calls -/

theorem heeds_call {resolve : Run (Recorded μ σ) μ σ (Option TreeId)} {makeState : Option (StateMaker μ σ)}
    {callee : TreeId → Callee (Recorded μ σ) μ σ} (resolves : ∀ m o m', resolve m = .ok o m' → m.Free m')
    (specs : ∀ tree, sys.Heeds path (d + 1) (callee tree).root) :
    sys.Heeds path d (.call (Stage.recording.cell site) resolve makeState callee) := by
  intro m st m' hd calm h
  obtain ⟨o, m₀, target, outcome⟩ := Behaviour.call_ok h
  have free : m.Free m₀ := by
    rcases Behaviour.callTarget_ok target with ⟨_, _, -, -, rfl⟩ | ⟨-, ⟨n, resolved, -, alike⟩ |
      ⟨_, _, n, x, resolved, -, rfl⟩⟩
    · exact .of_stays (.refl _)
    · exact (resolves _ _ _ resolved).trans (.of_alike alike)
    · exact ((resolves _ _ _ resolved).trans (.withMemory n x)).trans (.set ..)
  rcases outcome with ⟨-, -, rfl⟩ | ⟨tree, own, fresh, -, ⟨refused, m₁, -, alike, -, rfl⟩ | ⟨c, entered, ran⟩⟩
  · exact .of_free calm free
  · exact .of_free calm ((free.trans (.of_alike alike)).trans (.reset ..))
  · obtain ⟨n₀, n₁, n₂, n₃, h₀, ticked, h₂, h₃, outcome⟩ := Behaviour.runCallee_ok ran
    obtain ⟨stack, rfl⟩ := Behaviour.enter_ok entered
    have inside : n₀.context.depth = d + 1 := by
      rw [h₀.depth, ← hd, ← free.depth]
    have goes := specs tree n₀ st n₁ inside (h₀.request.trans (free.calm calm)) ticked
    have last : sys.Goes path m n₃ := {
      depth := by
        rw [h₃.depth, hd]
        simp [Behaviour.left, Context.leave, h₂.depth, goes.depth, inside]
      follows := by
        obtain ⟨xs, pending, hx, first, request, allowed⟩ := goes.follows
        refine ⟨xs, pending, ?_, first, ?_, ?_⟩
        · rw [h₃.runs, Behaviour.left, h₂.runs, hx, h₀.runs, free.history]
        · rw [h₃.request, ← request, ← h₂.request]
          rfl
        · rw [h₃.memory, Behaviour.left, h₂.memory]
          exact allowed }
    rcases outcome with ⟨-, rfl⟩ | ⟨-, rfl⟩
    · exact last
    · exact last.reset ..

theorem resolve_free {source : Source μ} {o : Option TreeId} (h : sys.resolve .recording source m = .ok o m') :
    m.Free m' := by
  rcases source with (tree | tree) | provide
  · simp only [resolve, Run.pure_eq_ok] at h
    exact h.2 ▸ .of_stays (.refl _)
  · simp only [resolve, EStateM.Result.ok.injEq] at h
    exact h.2 ▸ .of_stays (.refl _)
  · simp only [resolve, Run.consult_eq_ok] at h
    exact h.2 ▸ .withMemory ..

end System

end BehaviorTree
