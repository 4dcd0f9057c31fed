/-
  BehaviorTree.Proofs.Standing: where the work of one scope stands.

  A scope's slot says whether a run of it is in progress, and the diary whether its bracket is
  open. Work elsewhere leaves both alone (`Tells`); the scope's own work goes from one standing
  to the next (`Brings`), so that at its end the bracket is where the slot says.
-/

import BehaviorTree.Proofs.Bracket
import BehaviorTree.Proofs.Conduct.Trees

namespace BehaviorTree

variable {μ σ α β : Type}

/-! ## Brackets and slots -/

namespace Place

/-- Work at the first place may be work at the second one: it is deeper, or in the subtree. -/
def Covers (p q : Place) : Prop := p.depth < q.depth ∨ q.depth = p.depth ∧ p.site <:+ q.site

variable {p q : Place}

theorem covers_self (p : Place) : p.Covers p := .inr ⟨rfl, List.suffix_rfl⟩

theorem Covers.of_inside {i : Nat} (h : (p.inside i).Covers q) : p.Covers q :=
  h.imp_right fun ⟨depth, suffix⟩ => ⟨depth, (List.suffix_cons i p.site).trans suffix⟩

theorem Covers.of_callee {tree : TreeId} (h : (p.callee tree).Covers q) : p.Covers q :=
  .inl (by rcases h with h | ⟨h, -⟩ <;> simp only [callee_depth] at h <;> omega)

theorem not_covers_above (p : Place) (i : Nat) : ¬ (p.inside i).Covers p := by
  rintro (h | ⟨-, h⟩)
  · exact absurd h (Nat.lt_irrefl _)
  · have := h.length_le
    simp only [inside_site, List.length_cons] at this
    omega

end Place

/-- A scope is there. -/
def System.ScopeAt (sys : System μ σ) (q : Place) : Prop := ∃ hooks child, sys.nodeAt q.site = some (.scope hooks child)

/-- The diary has the bracket of the scope open if the slot says that a run is in progress, and closed if not. -/
def Squares (q : Place) (g : Store σ × Diary μ) : Prop :=
  (g.1.slot q = .started ∧ Bracket.after (g.2.about q) = some .opened) ∨
    g.1.slot q ≠ .started ∧ Bracket.after (g.2.about q) = some .closed

/-- What work at a place does to diary and slots: nothing about scopes elsewhere, and where the diary was right
it is right again, or goes on as it may up to where a fault broke the work off. -/
structure Tells (sys : System (Diary μ) σ) (ended : Bool) (p : Place) (g h : Store σ × Diary μ) : Prop where
  here : ended = true → h.2.here = g.2.here
  beyond : ∀ q, sys.ScopeAt q → ¬ p.Covers q → h.1.slot q = g.1.slot q ∧ h.2.about q = g.2.about q
  squares : ∀ q, sys.ScopeAt q → Squares q g →
    if ended = true then Squares q h else (Bracket.after (h.2.about q)).isSome

variable {sys : System (Diary μ) σ} {p q : Place} {g h i : Store σ × Diary μ} {ended : Bool}

theorem Squares.accepted (s : Squares q g) : (Bracket.after (g.2.about q)).isSome := by
  rcases s with ⟨-, after⟩ | ⟨-, after⟩ <;> rw [after] <;> rfl

theorem Squares.congr (s : Squares q g) (slot : h.1.slot q = g.1.slot q) (about : h.2.about q = g.2.about q) :
    Squares q h := by
  unfold Squares
  rwa [slot, about]

namespace Tells

/-- Nothing about scopes. -/
theorem of_same (here : h.2.here = g.2.here)
    (same : ∀ q, sys.ScopeAt q → h.1.slot q = g.1.slot q ∧ h.2.about q = g.2.about q) : Tells sys true p g h where
  here _ := here
  beyond q scope _ := same q scope
  squares q scope s := s.congr (same q scope).1 (same q scope).2

theorem trans (k : Tells sys true p g h) (l : Tells sys ended p h i) : Tells sys ended p g i where
  here ends := (l.here ends).trans (k.here rfl)
  beyond q scope far := by
    obtain ⟨slot, about⟩ := l.beyond q scope far
    obtain ⟨slot', about'⟩ := k.beyond q scope far
    exact ⟨slot.trans slot', about.trans about'⟩
  squares q scope s := l.squares q scope (k.squares q scope s)

theorem broken (k : Tells sys true p g h) : Tells sys false p g h where
  here no := by cases no
  beyond := k.beyond
  squares q scope s := (k.squares q scope s : Squares q h).accepted

theorem up {c : Place} (k : Tells sys ended c g h) (covers : ∀ q, c.Covers q → p.Covers q) : Tells sys ended p g h :=
  { k with beyond := fun q scope far => k.beyond q scope fun near => far (covers q near) }

end Tells

theorem not_scopeAt {node : Node (Diary μ) σ} (here : sys.nodeAt p.site = some node) (bare : node.Bare) :
    ¬ sys.ScopeAt p := by
  rintro ⟨hooks, child, there⟩
  cases here.symm.trans there
  exact bare

/-- A scope's slot is not used by another node. -/
theorem slot_set_scope {node : Node (Diary μ) σ} (here : sys.nodeAt p.site = some node) (bare : node.Bare)
    (s : Store σ) (slot : Slot σ) (scope : sys.ScopeAt q) :
    ((Store.cell p.site).set s p.depth slot).slot q = s.slot q ∧
      ((Store.cell p.site).reset s p.depth).slot q = s.slot q := by
  have other : p ≠ q := fun same => not_scopeAt here bare (same ▸ scope)
  rw [Store.slot_set, Store.slot_reset, if_neg other, if_neg other]
  exact ⟨rfl, rfl⟩

/-- Scopes are told in turns. -/
def bracketing (sys : System (Diary μ) σ) : Conduct sys Stage.diary where
  does := Tells sys
  passing := .depths
  spares n n' := n'.here = n.here ∧ n'.entries = n.entries
  refl p g := .of_same rfl fun _ _ => ⟨rfl, rfl⟩
  trans k l := k.trans l
  broken k := k.broken
  spared p r k := .of_same k.1 fun q _ => ⟨rfl, by rw [Diary.about, Diary.about, k.2]⟩
  aside p r x slots := .of_same rfl fun q _ => ⟨slots r q, rfl⟩
  inside _ _ k := k.up fun _ => Place.Covers.of_inside
  callee _ _ k := k.up fun _ => Place.Covers.of_callee
  givenUp {ended p source makeState tree state r x h} here _ k := by
    have same := fun q scope => (slot_set_scope (q := q) here trivial r .idle scope).2
    have given : Tells sys true p (r, x) ((Store.cell p.site).reset r p.depth, x) :=
      .of_same rfl fun q scope => ⟨same q scope, rfl⟩
    exact given.trans (k.up fun _ => Place.Covers.of_callee)
  lookedUp r x state here _ :=
    .of_same rfl fun q scope => ⟨(slot_set_scope here trivial r _ scope).1, rfl⟩

/-! ## The work of one scope -/

/-- In the middle of a scope's own work, which began with `g`: the place is at work, its bracket is known if the
diary was right, and its slot is too. Below it the diary is right where it was. -/
structure Amid (sys : System (Diary μ) σ) (p : Place) (g : Store σ × Diary μ) (b : Bracket) (started : Bool)
    (h : Store σ × Diary μ) : Prop where
  here : h.2.here = p
  bracket : Squares p g → Bracket.after (h.2.about p) = some b
  slot : h.1.slot p = .started ↔ started = true
  beyond : ∀ q, sys.ScopeAt q → ¬ p.Covers q → h.1.slot q = g.1.slot q ∧ h.2.about q = g.2.about q
  below : ∀ q, sys.ScopeAt q → q ≠ p → Squares q g → Squares q h

namespace Amid

variable {b c : Bracket} {started : Bool}

/-- Work at the child leaves the scope's own bracket and slot alone. -/
theorem child (m : Amid sys p g b started h) (scope : sys.ScopeAt p) {j : Nat}
    (k : Tells sys true (p.inside j) h i) : Amid sys p g b started i where
  here := (k.here rfl).trans m.here
  bracket s := by rw [(k.beyond p scope (p.not_covers_above j)).2, m.bracket s]
  slot := by rw [(k.beyond p scope (p.not_covers_above j)).1, m.slot]
  beyond q scopeQ far := by
    obtain ⟨slot, about⟩ := k.beyond q scopeQ fun near => far near.of_inside
    obtain ⟨slot', about'⟩ := m.beyond q scopeQ far
    exact ⟨slot.trans slot', about.trans about'⟩
  below q scopeQ other s := k.squares q scopeQ (m.below q scopeQ other s)

/-- A fault may break off the work of the child. -/
theorem fault (m : Amid sys p g b started h) (scope : sys.ScopeAt p) {j : Nat}
    (k : Tells sys false (p.inside j) h i) : Tells sys false p g i where
  here no := by cases no
  beyond q scopeQ far := by
    obtain ⟨slot, about⟩ := k.beyond q scopeQ fun near => far near.of_inside
    obtain ⟨slot', about'⟩ := m.beyond q scopeQ far
    exact ⟨slot.trans slot', about.trans about'⟩
  squares q scopeQ s := by
    show (Bracket.after (i.2.about q)).isSome
    by_cases same : q = p
    · subst same
      rw [(k.beyond q scope (q.not_covers_above j)).2, m.bracket s]
      rfl
    · exact k.squares q scopeQ (m.below q scopeQ same s)

/-- The own slot is written. -/
theorem set (m : Amid sys p g b started h) {r : Store σ} {now : Bool} (own : r.slot p = .started ↔ now = true)
    (elsewhere : ∀ q, q ≠ p → r.slot q = h.1.slot q) : Amid sys p g b now (r, h.2) where
  here := m.here
  bracket := m.bracket
  slot := own
  beyond q scope far := by
    have other : q ≠ p := fun same => far (same ▸ p.covers_self)
    exact ⟨(elsewhere q other).trans (m.beyond q scope far).1, (m.beyond q scope far).2⟩
  below q scope other s := (m.below q scope other s).congr (elsewhere q other) rfl

/-- Something is written down about the scope. -/
theorem write (m : Amid sys p g b started h) {x : Entry} (may : b.step x = some c) {n : Diary μ} (here : n.here = p)
    (entries : n.entries = (h.2.write x).entries) : Amid sys p g c started (h.1, n) := by
  have about : ∀ q, n.about q = h.2.about q ++ if p = q then [x] else [] := by
    intro q
    have same : n.about q = (h.2.write x).about q := by rw [Diary.about, Diary.about, entries]
    rw [same, Diary.about_write, m.here]
  have elsewhere : ∀ q, q ≠ p → n.about q = h.2.about q := fun q other => by
    rw [about, if_neg fun same => other same.symm, List.append_nil]
  refine ⟨here, fun s => ?_, m.slot, fun q scope far => ?_, fun q scope other s => ?_⟩
  · rw [about, if_pos rfl, Bracket.after_snoc (m.bracket s), may]
  · have other : q ≠ p := fun same => far (same ▸ p.covers_self)
    exact ⟨(m.beyond q scope far).1, (elsewhere q other).trans (m.beyond q scope far).2⟩
  · exact (m.below q scope other s).congr rfl (elsewhere q other)

/-- The work begins. -/
theorem start (p : Place) (g : Store σ × Diary μ) :
    ∃ started, Amid sys p g (if started then .opened else .closed) started (g.1, { g.2 with here := p }) := by
  by_cases runs : g.1.slot p = .started
  · refine ⟨true, rfl, fun s => ?_, by simp [runs], fun q _ _ => ⟨rfl, rfl⟩, fun q _ _ s => s⟩
    rcases s with ⟨-, after⟩ | ⟨no, -⟩
    · exact after
    · exact absurd runs no
  · refine ⟨false, rfl, fun s => ?_, by simp [runs], fun q _ _ => ⟨rfl, rfl⟩, fun q _ _ s => s⟩
    rcases s with ⟨yes, -⟩ | ⟨-, after⟩
    · exact absurd yes runs
    · exact after

/-- The work has ended with the bracket where the slot says it is. -/
theorem finish (m : Amid sys p g b started h) (square : b = if started then .opened else .closed) {n : Diary μ}
    (here : n.here = g.2.here) (entries : n.entries = h.2.entries) : Tells sys true p g (h.1, n) := by
  have about : ∀ q, n.about q = h.2.about q := fun q => by rw [Diary.about, Diary.about, entries]
  refine ⟨fun _ => here, fun q scope far => ⟨(m.beyond q scope far).1, (about q).trans (m.beyond q scope far).2⟩,
    fun q scope s => ?_⟩
  show Squares q (h.1, n)
  by_cases same : q = p
  · subst same
    have after := m.bracket s
    rw [← about q, square] at after
    cases started with
    | true => exact .inl ⟨m.slot.mpr rfl, after⟩
    | false => exact .inr ⟨fun runs => Bool.false_ne_true (m.slot.mp runs), after⟩
  · exact (m.below q scope same s).congr rfl (about q)

end Amid

/-! ## Ticks and resets of a scope -/

/-- Where the work of a scope stands: its bracket, and whether its slot says that a run is in progress. -/
structure Standing where
  bracket : Bracket
  started : Bool

section
variable {m₀ m m' : Machine (Store σ) (Diary μ) σ} {b c : Standing} {t : α → Standing}

/-- Work that a scope began at one machine has come to another. -/
def Stands (sys : System (Diary μ) σ) (p : Place) (m₀ : Machine (Store σ) (Diary μ) σ) (b : Standing)
    (m : Machine (Store σ) (Diary μ) σ) : Prop :=
  Amid sys p m₀.ground b.bracket b.started m.ground ∧ m.context.depth = m₀.context.depth

/-- What part of a scope's work comes to. -/
inductive Turns (sys : System (Diary μ) σ) (p : Place) (m₀ : Machine (Store σ) (Diary μ) σ) (t : α → Standing) :
    EStateM.Result Fault (Machine (Store σ) (Diary μ) σ) α → Prop
  | ok {x : α} {m' : Machine (Store σ) (Diary μ) σ} : Stands sys p m₀ (t x) m' → Turns sys p m₀ t (.ok x m')
  | error {e : Fault} {m' : Machine (Store σ) (Diary μ) σ} : Tells sys false p m₀.ground m'.ground →
      Turns sys p m₀ t (.error e m')

/-- From one standing the work goes to another, which its answer tells. -/
def Brings (sys : System (Diary μ) σ) (p : Place) (m₀ : Machine (Store σ) (Diary μ) σ) (b : Standing)
    (a : Run (Store σ) (Diary μ) σ α) (t : α → Standing) : Prop :=
  ∀ m, Stands sys p m₀ b m → Turns sys p m₀ t (a m)

namespace Brings

theorem pure (x : α) : Brings sys p m₀ (t x) (pure x) t := fun _ m => .ok m

theorem stay (x : α) : Brings sys p m₀ b (Pure.pure x) fun _ => b := fun _ m => .ok m

theorem bind {a : Run (Store σ) (Diary μ) σ α} {f : α → Run (Store σ) (Diary μ) σ β} {u : β → Standing}
    (first : Brings sys p m₀ b a t) (rest : ∀ x, Brings sys p m₀ (t x) (f x) u) : Brings sys p m₀ b (a >>= f) u := by
  intro m stands
  have turned := first m stands
  show Turns sys p m₀ u (EStateM.bind a f m)
  unfold EStateM.bind
  generalize a m = r at turned
  cases turned with
  | ok stands => exact rest _ _ stands
  | error told => exact .error told

/-- Work below the scope. -/
theorem child {ticking : Prop} {j : Nat} {a : Run (Store σ) (Diary μ) σ α} (scope : sys.ScopeAt p)
    (ready : ticking → m₀.context.depth = p.depth) (heeds : (bracketing sys).Heeds ticking (p.inside j) a) :
    Brings sys p m₀ b a fun _ => b := by
  intro m ⟨amid, depth⟩
  have came := heeds m fun t => depth.trans (ready t)
  generalize a m = r at came
  cases came with
  | ok told passed => exact .ok ⟨amid.child scope told, (passed : _ = _).trans depth⟩
  | error told => exact .error (amid.fault scope told)

theorem keep :
    Brings sys p m₀ b (((Stage.diary (μ := μ)).cell p.site).keep p.depth .started) fun _ => ⟨b.bracket, true⟩ := by
  intro m ⟨amid, depth⟩
  refine .ok ⟨amid.set ?_ fun q other => ?_, depth⟩
  · show ((Store.cell p.site).set m.runs p.depth .started).slot p = .started ↔ _
    simp [Store.slot_set]
  · exact (Store.slot_set _ p q _).trans (if_neg fun same => other same.symm)

theorem forget :
    Brings sys p m₀ b (((Stage.diary (μ := μ)).cell p.site).forget p.depth) fun _ => ⟨b.bracket, false⟩ := by
  intro m ⟨amid, depth⟩
  refine .ok ⟨amid.set ?_ fun q other => ?_, depth⟩
  · show ((Store.cell p.site).reset m.runs p.depth).slot p = .started ↔ _
    simp [Store.slot_reset]
  · exact (Store.slot_reset _ p q).trans (if_neg fun same => other same.symm)

/-- Something is written down that may be. -/
theorem write {x : Entry} {ahead : Bracket} {f : Diary μ → Diary μ} (may : b.bracket.step x = some ahead)
    (here : ∀ n, (f n).here = n.here) (entries : ∀ n, (f n).entries = (n.write x).entries) :
    Brings sys p m₀ b (Run.remember f) fun _ => ⟨ahead, b.started⟩ := by
  intro m ⟨amid, depth⟩
  exact .ok ⟨amid.write may ((here _).trans amid.here) (entries _), depth⟩

theorem traced (scope : sys.ScopeAt p) {tag : String} {x y : UInt64} :
    Brings sys p m₀ b (Run.trace tag x y) fun _ => b :=
  have heeds : (bracketing sys).Heeds False (p.inside 0) (Run.trace tag x y) := .trace
  .child scope False.elim heeds

end Brings

end

/-! ## The hooks -/

section
variable {m₀ : Machine (Store σ) (Diary μ) σ} {hooks : Hooks μ σ} {host : Host (Store σ) (Diary μ) σ}
  {child : Behaviour (Store σ) (Diary μ) σ}

namespace Standing

/-- Where a scope stands that is not at work. -/
def of (started : Bool) : Standing := ⟨if started then .opened else .closed, started⟩

/-- Where a scope stands that is about to answer. -/
def before (st : Status) : Standing :=
  match st.verdict? with
  | some v => ⟨.closing v, false⟩
  | none => .of true

/-- Where a scope stands that is about to be abandoned. -/
def leaving (started fire : Bool) : Standing :=
  ⟨if started then if fire then .cut else .closed else .closed, started⟩

end Standing

namespace Brings

theorem openScope (scope : sys.ScopeAt p) (ready : m₀.context.depth = p.depth)
    (enters : (bracketing sys).Heeds True (p.inside 0) (hooks.onEnter.beside.run host)) {started : Bool} :
    Brings sys p m₀ (.of started)
      (Behaviour.openScope ((Stage.diary (μ := μ)).cell p.site) host hooks.beside p.depth) fun _ => .of true := by
  intro m stands
  have slot : ((Stage.diary (μ := μ)).cell p.site).get m.runs p.depth = .started ↔ started = true := stands.1.slot
  unfold Behaviour.openScope
  rw [Run.bind_ok (a := ((Stage.diary (μ := μ)).cell p.site).read p.depth) (m := m) rfl]
  cases started with
  | true =>
    rw [slot.mpr rfl]
    exact .ok stands
  | false =>
    have opens : Brings sys p m₀ (.of false) (do
        ((Stage.diary (μ := μ)).cell p.site).keep p.depth .started
        Run.trace Tag.scopeEnter (UInt64.ofNat p.depth) 0
        hooks.beside.onEnter.run host) fun _ => .of true :=
      Brings.keep.bind fun _ => (Brings.traced scope).bind fun _ =>
        Brings.bind (t := fun _ => .of true) (.write (x := .entered) rfl (fun _ => rfl) fun _ => rfl) fun _ =>
          .child scope (fun _ => ready) enters
    have rests : ((Stage.diary (μ := μ)).cell p.site).get m.runs p.depth ≠ .started := fun runs => by
      cases slot.mp runs
    generalize ((Stage.diary (μ := μ)).cell p.site).get m.runs p.depth = slot at rests
    cases slot
    case started => exact absurd rfl rests
    all_goals exact opens m stands

theorem closeScope (scope : sys.ScopeAt p) (st : Status) :
    Brings sys p m₀ (.of true)
      (Behaviour.closeScope ((Stage.diary (μ := μ)).cell p.site) hooks.beside p.depth st) fun _ => .before st := by
  have closes : ∀ v : Verdict, Brings sys p m₀ (.of true) (do
      ((Stage.diary (μ := μ)).cell p.site).forget p.depth
      Run.trace Tag.scopeExit (UInt64.ofNat p.depth) v.status.code
      Run.remember (hooks.beside.onExit v.status)) fun _ => ⟨.closing v, false⟩ := fun v =>
    Brings.forget.bind fun _ => (Brings.traced scope).bind fun _ =>
      .write (x := .exited v.status) (by cases v <;> rfl) (fun _ => rfl) fun _ => rfl
  cases st with
  | running => exact .stay ()
  | success => exact closes .success
  | failure => exact closes .failure

theorem scope_tick (scope : sys.ScopeAt p) (ready : m₀.context.depth = p.depth)
    (enters : (bracketing sys).Heeds True (p.inside 0) (hooks.onEnter.beside.run host))
    (fares : (bracketing sys).Fares (p.inside 0) child) {started : Bool} :
    Brings sys p m₀ (.of started)
      (Behaviour.scope ((Stage.diary (μ := μ)).cell p.site) host hooks.beside child).tick .before := by
  intro m stands
  have depth : m.context.depth = p.depth := stands.2.trans ready
  have opened : (Behaviour.scope ((Stage.diary (μ := μ)).cell p.site) host hooks.beside child).tick m = _ :=
    Run.bind_ok (Run.depth_eq_ok.mpr ⟨depth, rfl⟩)
  rw [opened]
  refine (Brings.openScope scope ready enters).bind (fun _ => ?_) m stands
  refine (Brings.child scope (fun _ => ready) fares.tick).bind fun ticked => ?_
  refine (Brings.child scope (fun _ => ready) fares.settleReturn).bind fun st => ?_
  exact (Brings.closeScope scope st).bind fun _ => .pure st

theorem scope_reset (scope : sys.ScopeAt p) (fares : (bracketing sys).Fares (p.inside 0) child) {started fire : Bool} :
    Brings sys p m₀ (.leaving started fire)
      ((Behaviour.scope ((Stage.diary (μ := μ)).cell p.site) host hooks.beside child).reset p.depth fire)
      fun _ => .of false := by
  intro m stands
  have slot : ((Stage.diary (μ := μ)).cell p.site).get m.runs p.depth = .started ↔ started = true := stands.1.slot
  unfold Behaviour.scope
  dsimp only
  rw [Run.bind_ok (a := ((Stage.diary (μ := μ)).cell p.site).read p.depth) (m := m) rfl]
  cases started with
  | true =>
    rw [slot.mpr rfl]
    refine Brings.forget.bind (fun _ => ?_) m stands
    refine (Brings.child scope False.elim (fares.reset fire)).bind fun _ => ?_
    cases fire with
    | true => exact .write (x := .exited .running) rfl (fun _ => rfl) fun _ => rfl
    | false => exact .stay ()
  | false =>
    have rests : ((Stage.diary (μ := μ)).cell p.site).get m.runs p.depth ≠ .started := fun runs => by
      cases slot.mp runs
    generalize ((Stage.diary (μ := μ)).cell p.site).get m.runs p.depth = slot at rests
    cases slot
    case started => exact absurd rfl rests
    all_goals exact .ok stands

end Brings

end

end BehaviorTree
