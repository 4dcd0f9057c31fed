/-
  BehaviorTree.Proofs.Brackets: what a scope is told, at each call depth.

  The diaries of all runs keep to the automaton of brackets, at each call depth of each scope,
  whatever trees are shared or call themselves (`scopes_bracketed`). The argument is local: work
  below a scope neither uses its slot nor writes about it, so that its bracket is where its own
  last step left it. But for the diary, the runs are those without one (`Mirror`).
-/

import BehaviorTree.Proofs.Mirror.Trees
import BehaviorTree.Proofs.SlotFrame
import BehaviorTree.Proofs.Standing

namespace BehaviorTree

variable {μ σ α β : Type} {p : Place}

/-! ## The place at work -/

namespace Diary

/-- Writes down something about the place at work, if anything. -/
structure AtHome (f : Diary μ → Diary μ) : Prop where
  here : ∀ n, (f n).here = n.here
  about : ∀ n q, n.here ≠ q → (f n).about q = n.about q

theorem atHome_id : AtHome (id : Diary μ → Diary μ) := ⟨fun _ => rfl, fun _ _ _ => rfl⟩

theorem atHome_write (x : Entry) : AtHome (write (μ := μ) x) where
  here _ := rfl
  about n q other := by rw [about_write, if_neg other, List.append_nil]

end Diary

section
variable {sys : System (Diary μ) σ} {ticking : Prop} {first : Diary μ → Diary μ}
  {a : Run (Store σ) (Diary μ) σ α} {last : α → Diary μ → Diary μ}

/-- What happens around nodes that are no scopes says nothing about scopes. -/
theorem Conduct.Heeds.atWork (bare : ¬ sys.ScopeAt p) (opens : Diary.AtHome first) (ends : ∀ x, Diary.AtHome (last x))
    (work : (bracketing sys).Heeds ticking p a) : (bracketing sys).Heeds ticking p (Stage.atWork p first a last) := by
  intro m ready
  have came := work (m.withMemory (first { m.memory with here := p })) ready
  rw [Stage.atWork_apply]
  have other : ∀ q, sys.ScopeAt q → p ≠ q := fun q scope same => bare (same ▸ scope)
  have begins : ∀ {ended} {h : Store σ × Diary μ}, Tells sys ended p (m.runs, first { m.memory with here := p }) h →
      ∀ q, sys.ScopeAt q → ¬ p.Covers q → h.1.slot q = m.runs.slot q ∧ h.2.about q = m.memory.about q := by
    intro ended h told q scope far
    obtain ⟨slot, about⟩ := told.beyond q scope far
    exact ⟨slot, about.trans (opens.about _ q (other q scope))⟩
  have square : ∀ q, sys.ScopeAt q → Squares q (m.runs, m.memory) →
      Squares q (m.runs, first { m.memory with here := p }) :=
    fun q scope s => s.congr rfl (opens.about _ q (other q scope))
  generalize a _ = r at came
  cases came with
  | @ok x m' told passed =>
    have here : m'.memory.here = p := (told.here rfl).trans (opens.here _)
    have about : ∀ q, sys.ScopeAt q →
        Diary.about { last x m'.memory with here := m.memory.here } q = m'.memory.about q :=
      fun q scope => (ends x).about _ q (here ▸ other q scope)
    refine .ok ⟨fun _ => rfl, fun q scope far => ?_, fun q scope s => ?_⟩ passed
    · obtain ⟨slot, said⟩ := begins told q scope far
      exact ⟨slot, (about q scope).trans said⟩
    · exact (told.squares q scope (square q scope s) : Squares q _).congr rfl (about q scope)
  | error told =>
    exact .error ⟨nofun, begins told, fun q scope s => told.squares q scope (square q scope s)⟩

/-- The work of a scope ends with its bracket where the slot says. -/
theorem Brings.heeds {u : α → Bool}
    (work : ∀ (m₀ : Machine (Store σ) (Diary μ) σ) started, (ticking → m₀.context.depth = p.depth) →
      Brings sys p m₀ (.of started) (do Run.remember first; let x ← a; Run.remember (last x); return x)
        fun x => .of (u x)) :
    (bracketing sys).Heeds ticking p (Stage.atWork p first a last) := by
  intro m ready
  rw [Stage.atWork_apply]
  obtain ⟨started, amid⟩ : ∃ started, Amid sys p m.ground (if started then .opened else .closed) started
      (m.withMemory { m.memory with here := p }).ground := Amid.start p m.ground
  have turned := work m started ready (m.withMemory { m.memory with here := p }) ⟨amid, rfl⟩
  replace turned : Turns sys p m (fun x => .of (u x))
      (EStateM.bind a _ (m.withMemory (first { m.memory with here := p }))) := turned
  unfold EStateM.bind at turned
  generalize a (m.withMemory (first { m.memory with here := p })) = r at turned
  cases r with
  | ok x m' => cases turned with
    | ok stands => exact .ok (stands.1.finish rfl rfl rfl) stands.2
  | error => cases turned with
    | error told => exact .error told

end

/-! ## Every node -/

section
variable {sys : System μ σ} {host : Host (Store σ) (Diary μ) σ} {b : Behaviour (Store σ) (Diary μ) σ}

/-- Callbacks that tick and reset no trees leave the diary alone. -/
theorem bracketing_callback {sys : System (Diary μ) σ} {body : Callback μ σ α} (only : body.Only fun _ => False) :
    (bracketing sys).Heeds True p (body.beside.run host) := by
  induction body with
  | done x => exact .pure x
  | look next ih => exact fun m => ih m.context m.memory.own (only _ _) m
  | remember f next ih => exact .bind (.remember fun _ => ⟨rfl, rfl⟩) fun _ => ih only
  | edit _ _ next ih | setGlobal _ _ _ next ih => exact .bind (.onContext fun _ => rfl) fun _ => ih only
  | requestReturn s next ih => exact Conduct.Heeds.requestReturn.bind fun _ => ih only
  | takeReturn next ih => exact Conduct.Heeds.takeReturn.bind fun _ => ih _ (only _)
  | takeOverflow next ih =>
    refine .bind (fun m _ => .ok ?_ rfl) fun _ => ih _ (only _)
    exact (bracketing sys).refl p m.ground
  | trace tag x y next ih => exact Conduct.Heeds.trace.bind fun _ => ih only
  | tickTree => exact only.1.elim
  | resetTree => exact only.1.elim

theorem bracketing_suits (aloof : sys.Aloof) {node : Node (Diary μ) σ} (here : sys.beside.nodeAt p.site = some node) :
    (bracketing sys.beside).Suits p node := by
  obtain ⟨plain, there, rfl⟩ := System.beside_nodeAt here
  have only := aloof _ _ there
  cases plain with
  | action => exact fun host => bracketing_callback only
  | custom => exact ⟨fun host => bracketing_callback only, fun _ _ _ => ⟨rfl, rfl⟩⟩
  | condition | waitUntil | guard => exact fun _ _ => ⟨rfl, rfl⟩
  | selectOne policy => cases policy with
    | picker => trivial
    | custom => exact ⟨fun _ _ => ⟨rfl, rfl⟩, fun _ _ => ⟨rfl, rfl⟩⟩
  | call source makeState =>
    refine ⟨fun _ same _ => ?_, fun _ same _ _ => ?_⟩
    · cases source with
      | fixed => cases same
      | provided => cases same; exact ⟨rfl, rfl⟩
    · cases makeState with
      | none => cases same
      | some => cases same; exact ⟨rfl, rfl⟩
  | _ => trivial

theorem bracketing_owns {sys : System (Diary μ) σ} {node : Node (Diary μ) σ} (here : sys.nodeAt p.site = some node)
    (bare : node.Bare) : (bracketing sys).Owns p where
  set r _ slot _ := .of_same rfl fun _ scope => ⟨(slot_set_scope here bare r slot scope).1, rfl⟩
  reset r _ := .of_same rfl fun _ scope => ⟨(slot_set_scope here bare r .idle scope).2, rfl⟩

theorem bracketing_watched {sys : System (Diary μ) σ} (bare : ¬ sys.ScopeAt p) (fares : (bracketing sys).Fares p b) :
    (bracketing sys).Fares p (Stage.diary.watch p.site b) where
  tick := .depth (.atWork bare Diary.atHome_id (fun _ => Diary.atHome_write _) fares.tick)
  reset fire := .atWork bare (Diary.atHome_write _) (fun _ => Diary.atHome_id) (fares.reset fire)

theorem bracketing_scope {hooks : Hooks μ σ} (scope : sys.beside.ScopeAt p) (only : hooks.onEnter.Only fun _ => False)
    (fares : (bracketing sys.beside).Fares (p.inside 0) b) :
    (bracketing sys.beside).Fares p (Stage.diary.watch p.site
      (.scope ((Stage.diary (μ := μ)).cell p.site) host hooks.beside b)) where
  tick := by
    have enters : (bracketing sys.beside).Heeds True (p.inside 0) (hooks.onEnter.beside.run host) :=
      bracketing_callback only
    refine .depth (Brings.heeds (u := Status.isRunning) fun m₀ started ready => ?_)
    refine Brings.bind (t := fun _ => .of started) (fun m stands => .ok stands) fun _ => ?_
    refine (Brings.scope_tick scope (ready trivial) enters fares).bind fun st => ?_
    refine Brings.bind (t := fun _ => .of st.isRunning) ?_ fun _ => .pure (t := fun st => .of st.isRunning) st
    cases st
    all_goals exact .write (x := .answered _) rfl (fun _ => rfl) fun _ => rfl
  reset fire := by
    refine Brings.heeds (u := fun _ => false) fun m₀ started ready => ?_
    refine Brings.bind (t := fun _ => .leaving started fire) ?_ fun _ => ?_
    · cases started <;> exact .write (x := .abandoned fire) rfl (fun _ => rfl) fun _ => rfl
    · exact (Brings.scope_reset scope fares).bind fun x => Brings.bind (fun m stands => .ok stands) fun _ => .pure x

theorem bracketing_upheld (aloof : sys.Aloof) : (bracketing sys.beside).Upheld where
  suits here := bracketing_suits aloof here
  owns here bare := bracketing_owns here bare
  watched here bare fares := bracketing_watched (not_scopeAt here bare) fares
  scope {p hooks child b} host here fares := by
    obtain ⟨plain, there, same⟩ := System.beside_nodeAt here
    cases plain with
    | scope own below =>
      cases same
      exact bracketing_scope ⟨_, _, here⟩ (aloof _ _ there) fares
    | _ => cases same

/-! ## Ticks and resets of whole trees -/

/-- The brackets are where the slots say, if the work ended; else they were kept up to where a fault broke it
off. -/
inductive Ends (sys : System (Diary μ) σ) : EStateM.Result Fault (Machine (Store σ) (Diary μ) σ) α → Prop
  | ok {x : α} {m : Machine (Store σ) (Diary μ) σ} : (∀ q, sys.ScopeAt q → Squares q m.ground) → Ends sys (.ok x m)
  | error {e : Fault} {m : Machine (Store σ) (Diary μ) σ} :
      (∀ q, sys.ScopeAt q → (Bracket.after (m.memory.about q)).isSome) → Ends sys (.error e m)

namespace Ends

variable {sys : System (Diary μ) σ} {m : Machine (Store σ) (Diary μ) σ} {a : Run (Store σ) (Diary μ) σ α}
  {f : α → Run (Store σ) (Diary μ) σ β}

theorem bind (first : Ends sys (a m)) (rest : ∀ x m', (∀ q, sys.ScopeAt q → Squares q m'.ground) → Ends sys (f x m')) :
    Ends sys ((a >>= f) m) := by
  show Ends sys (EStateM.bind a f m)
  unfold EStateM.bind
  generalize a m = r at first
  cases first with
  | ok squares => exact rest _ _ squares
  | error told => exact .error told

theorem of_comes {r : EStateM.Result Fault (Machine (Store σ) (Diary μ) σ) α}
    (squares : ∀ q, sys.ScopeAt q → Squares q m.ground) (came : (bracketing sys).Comes p m r) : Ends sys r := by
  cases came with
  | ok told => exact .ok fun q scope => told.squares q scope (squares q scope)
  | error told => exact .error fun q scope => told.squares q scope (squares q scope)

/-- Where the work ended, or was broken off, the diary is as it may be. -/
theorem last (ends : Ends sys (a m)) : ∀ q, sys.ScopeAt q → (Bracket.after ((a.last m).memory.about q)).isSome := by
  unfold Run.last
  generalize a m = r at ends
  cases ends with
  | ok squares => exact fun q scope => (squares q scope).accepted
  | error told => exact told

end Ends

theorem ends_tick {m : Machine (Store σ) (Diary μ) σ} (aloof : sys.Aloof)
    (squares : ∀ q, sys.beside.ScopeAt q → Squares q m.ground) (tree : TreeId) (delta : Float32) (state : Option σ) :
    Ends sys.beside (sys.beside.tick .diary tree delta state m) := by
  have fresh : ∀ (n : Machine (Store σ) (Diary μ) σ) (tick : UInt64),
      (∀ q, sys.beside.ScopeAt q → Squares q n.ground) →
      Ends sys.beside (sys.beside.tickFresh .diary (sys.beside.host .diary) tree tick delta state n) := by
    intro n tick squares
    have ticked := (bracketing_upheld aloof).tickRoot (sys.beside.host .diary)
    have ticked : Ends sys.beside (sys.beside.tickHere .diary (sys.beside.host .diary) tree
        { n with context := sys.beside.freshContext tree tick delta state n.context.layers }) :=
      .of_comes (m := { n with context := sys.beside.freshContext tree tick delta state n.context.layers }) squares
        (ticked _ tree 0 _ fun _ => rfl)
    exact ticked.bind fun _ _ squares => .ok squares
  refine Ends.bind (f := fun _ => sys.beside.tickAfter .diary (m.runs.progress tree) _ tree delta state)
    (a := Stage.modifyStore .diary _) (.ok squares) fun _ n squares => ?_
  unfold System.tickAfter
  split
  · exact fresh n _ squares
  split
  · exact .ok squares
  refine Ends.bind (.ok squares) fun _ n' squares => ?_
  exact (fresh n' _ squares).bind fun _ _ squares => .ok squares

theorem ends_reset {m : Machine (Store σ) (Diary μ) σ} (aloof : sys.Aloof)
    (squares : ∀ q, sys.beside.ScopeAt q → Squares q m.ground) (tree : TreeId) (fire : Bool) :
    Ends sys.beside (sys.beside.reset .diary tree fire m) :=
  .of_comes squares ((bracketing_upheld aloof).resetAt tree 0 fire m False.elim)

/-- The machines between ticks and resets of trees, with nothing written down at first. Between them anything
may change but slots and diary. -/
inductive System.Noted (sys : System (Diary μ) σ) : Machine (Store σ) (Diary μ) σ → Prop
  | start {m : Machine (Store σ) (Diary μ) σ} : (∀ q, m.runs.slot q = .idle) → m.memory.entries = [] → Noted sys m
  | between {m : Machine (Store σ) (Diary μ) σ} {f : Store σ → Store σ} (context : Context σ) (own : μ)
      (journal : Array Diagnostic) (heard : Array TraceEvent) : Noted sys m → (∀ s q, (f s).slot q = s.slot q) →
      Noted sys { context, memory := { m.memory with own }, runs := f m.runs, journal, heard }
  | tick {m m' : Machine (Store σ) (Diary μ) σ} {tree : TreeId} {delta : Float32} {state : Option σ} {st : Status} :
      Noted sys m → sys.tick .diary tree delta state m = .ok st m' → Noted sys m'
  | reset {m m' : Machine (Store σ) (Diary μ) σ} {tree : TreeId} {fire : Bool} : Noted sys m →
      sys.reset .diary tree fire m = .ok () m' → Noted sys m'

theorem noted_squares {m : Machine (Store σ) (Diary μ) σ} (aloof : sys.Aloof) (noted : sys.beside.Noted m) :
    ∀ q, sys.beside.ScopeAt q → Squares q m.ground := by
  induction noted with
  | start idle none =>
    intro q _
    have rests : (_ : Machine (Store σ) (Diary μ) σ).runs.slot q ≠ .started :=
      fun runs => by cases runs.symm.trans (idle q)
    refine .inr ⟨rests, ?_⟩
    simp [Machine.ground, Diary.about, none, Bracket.after]
  | between context own journal heard _ slots ih => exact fun q scope => (ih q scope).congr (slots _ q) rfl
  | @tick m _ tree delta state _ _ ok ih =>
    have ends := ends_tick aloof ih tree delta state
    rw [ok] at ends
    cases ends with
    | ok squares => exact squares
  | @reset m _ tree fire _ ok ih =>
    have ends := ends_reset aloof ih tree fire
    rw [ok] at ends
    cases ends with
    | ok squares => exact squares

end

/-- Whatever trees are ticked and reset, what was written down about a scope at one call depth is as `Bracket`
tells, at each moment. Between ticks its bracket is open if and only if a run is in progress; it was so after each
answer of the scope if and only if it answered `running`; and each end was told with the answer that followed, or with
`running` when the scope was being abandoned. But for the diary, each tick and each reset is one of the system without
a diary. -/
theorem scopes_bracketed (sys : System μ σ) (aloof : sys.Aloof) (m : Machine (Store σ) (Diary μ) σ)
    (noted : sys.beside.Noted m) (q : Place) (hooks : Hooks μ σ) (child : Node μ σ)
    (scope : sys.nodeAt q.site = some (.scope hooks child)) :
    Squares q m.ground ∧
    (∀ xs ys status, m.memory.about q = xs ++ .answered status :: ys →
      Bracket.after (xs ++ [.answered status]) = some (if status.isRunning then .opened else .closed)) ∧
    (∀ xs ys status, m.memory.about q = xs ++ .exited status :: ys →
      (∃ zs, ys = .answered status :: zs) ∨ status = .running ∧ ∃ zs, xs = zs ++ [.abandoned true]) ∧
    (∀ tree delta state,
      (Bracket.after (((sys.beside.tick .diary tree delta state).last m).memory.about q)).isSome ∧
      sys.tick .plain tree delta state (m.part Diary.own) =
        Run.part Diary.own (sys.beside.tick .diary tree delta state m)) ∧
    ∀ tree fire,
      (Bracket.after (((sys.beside.reset .diary tree fire).last m).memory.about q)).isSome ∧
      sys.reset .plain tree fire (m.part Diary.own) =
        Run.part Diary.own (sys.beside.reset .diary tree fire m) := by
  have at_q : sys.beside.ScopeAt q := ⟨hooks.beside, child.beside, by rw [System.nodeAt_beside, scope]; rfl⟩
  have squares := noted_squares aloof noted
  refine ⟨squares q at_q, fun xs ys status said => ?_, fun xs ys status said => ?_,
    fun tree delta state =>
      ⟨(ends_tick aloof squares tree delta state).last q at_q, sys.tick_beside tree delta state m⟩,
    fun tree fire => ⟨(ends_reset aloof squares tree fire).last q at_q, sys.reset_beside tree fire m⟩⟩
  · exact Bracket.after_answered (said ▸ (squares q at_q).accepted)
  · exact Bracket.after_exited (said ▸ (squares q at_q).imp And.right And.right)

/-! ## A tree that calls itself -/

/-- Nothing was written down yet. -/
def diaryStart : Machine (Store Unit) (Diary (List Status)) Unit :=
  { context := {}, memory := { own := [], here := ⟨[], 0⟩ }, runs := {} }

/-- Three ticks and a silent reset, and what was written down of the scope at the first two depths. -/
def diaryRun : Run (Store Unit) (Diary (List Status)) Unit (List Entry × List Entry) := do
  let _ ← nested.beside.tick .diary 0 0 none
  let _ ← nested.beside.tick .diary 0 0 none
  let _ ← nested.beside.tick .diary 0 0 none
  nested.beside.reset .diary 0 false
  let after ← get
  return (after.memory.about ⟨[0], 0⟩, after.memory.about ⟨[0], 1⟩)

/-- The first outer run ends with an answer; the inner run, of the same scope, is abandoned in the same tick. The
second runs end without a word. -/
theorem nested_bracketed : ∃ m, nested.beside.Noted m ∧
    m.memory.about ⟨[0], 0⟩ = [.entered, .answered .running, .exited .success, .answered .success,
      .entered, .answered .running, .abandoned false] ∧
    m.memory.about ⟨[0], 1⟩ = [.entered, .answered .running, .abandoned true, .exited .running,
      .entered, .answered .running, .abandoned false] ∧
    Squares ⟨[0], 0⟩ m.ground ∧ Squares ⟨[0], 1⟩ m.ground := by
  obtain ⟨_, ran⟩ := Run.ok_of_answer (a := diaryRun) (m := diaryStart)
    (x := ([.entered, .answered .running, .exited .success, .answered .success,
        .entered, .answered .running, .abandoned false],
      [.entered, .answered .running, .abandoned true, .exited .running,
        .entered, .answered .running, .abandoned false])) (by decide +kernel)
  simp only [diaryRun, Run.bind_eq_ok, Run.get_eq_ok, Run.pure_eq_ok, Prod.mk.injEq] at ran
  obtain ⟨_, m₁, once, _, m₂, twice, _, m₃, thrice, _, m, reset, _, _, ⟨rfl, rfl⟩, ⟨outer, inner⟩, rfl⟩ := ran
  have noted : nested.beside.Noted m :=
    .reset (.tick (.tick (.tick (.start Store.slot_empty rfl) once) twice) thrice) reset
  exact ⟨m, noted, outer, inner,
    (scopes_bracketed nested nested_aloof m noted ⟨[0], 0⟩ _ _ rfl).1,
    (scopes_bracketed nested nested_aloof m noted ⟨[0], 1⟩ _ _ rfl).1⟩

end BehaviorTree
