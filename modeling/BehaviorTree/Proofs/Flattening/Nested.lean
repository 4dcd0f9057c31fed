/-
  BehaviorTree.Proofs.Flattening.Nested: a node nested in one of its own kind, next to the flat node.

  The outer node remembers one place among its children, of which the inner node is one, and the
  inner node remembers another. The flat node remembers one place in the list of all of them
  (`Spread`). Two runs match when they differ in these records only, and go wrong together
  (`Matches`). The children are the same in both: they are ticked at some depth and end there,
  and their resets are given no context that they could change (`Behaviour.Secluded`).
-/

import BehaviorTree.Behaviour.Reactive
import BehaviorTree.Proofs.Run
import BehaviorTree.Proofs.Trial

namespace BehaviorTree

variable {κ κ' ρ μ σ α β : Type}

/-! ## The records of the nodes -/

/-- The slots of a node, and of the node of the same kind that is nested in it. -/
structure Nested (σ : Type) where
  outer : DepthSlots (Slot σ) := {}
  inner : DepthSlots (Slot σ) := {}

namespace Nested

def setOuter (w : Nested σ) (slots : DepthSlots (Slot σ)) : Nested σ := { w with outer := slots }

def setInner (w : Nested σ) (slots : DepthSlots (Slot σ)) : Nested σ := { w with inner := slots }

def outerCell : Cell (Trial (Nested σ) ρ) σ := Trial.cell outer setOuter

def innerCell : Cell (Trial (Nested σ) ρ) σ := Trial.cell inner setInner

end Nested

/-- What the three nodes remember of one child, if there are `n` children before the inner node, `k` in it and `l`
after it. -/
inductive Spread (n k l : Nat) : (flat outer inner : Slot σ) → Prop
  | idle : Spread n k l .idle .idle .idle
  | before {i : Nat} : i < n → Spread n k l (.child i) (.child i) .idle
  | inside {j : Nat} : j < k → Spread n k l (.child (n + j)) (.child n) (.child j)
  | after {i : Nat} : i < l → Spread n k l (.child (n + k + i)) (.child (n + 1 + i)) .idle

namespace Nested

variable {n k l d : Nat} {flat : DepthSlots (Slot σ)} {w : Nested σ}

/-- At this depth the nodes remember the same. -/
def Fits (n k l : Nat) (flat : DepthSlots (Slot σ)) (w : Nested σ) (d : Nat) : Prop :=
  Spread n k l (flat.get d) (w.outer.get d) (w.inner.get d)

/-- So it is at all depths. -/
def Fitting (n k l : Nat) (flat : DepthSlots (Slot σ)) (w : Nested σ) : Prop := ∀ e, Fits n k l flat w e

/-- So it is at all other depths. -/
def Elsewhere (n k l d : Nat) (flat : DepthSlots (Slot σ)) (w : Nested σ) : Prop :=
  ∀ e, e ≠ d → Fits n k l flat w e

theorem fitting_fresh : Fitting n k l ({} : DepthSlots (Slot σ)) {} := fun e => by
  simp only [Fits, DepthSlots.get_empty]
  exact .idle

/-- The records at the other depths are the same ones. -/
theorem Elsewhere.congr {flat' : DepthSlots (Slot σ)} {w' : Nested σ} (h : Elsewhere n k l d flat w)
    (same : ∀ e, e ≠ d → flat'.get e = flat.get e ∧ w'.outer.get e = w.outer.get e ∧ w'.inner.get e = w.inner.get e) :
    Elsewhere n k l d flat' w' := fun e other => by
  obtain ⟨one, two, three⟩ := same e other
  rw [Fits, one, two, three]
  exact h e other

theorem Elsewhere.everywhere (h : Elsewhere n k l d flat w) (here : Fits n k l flat w d) : Fitting n k l flat w := by
  intro e
  by_cases same : e = d
  · exact same ▸ here
  · exact h e same

end Nested

/-! ## Runs that match -/

/-- A run goes on in the same way after first parts that come to the same. -/
theorem Run.bind_congr {a b : Run ρ μ σ α} {f : α → Run ρ μ σ β} {m : Machine ρ μ σ} (same : a m = b m) :
    (a >>= f) m = (b >>= f) m := by
  show EStateM.bind a f m = EStateM.bind b f m
  unfold EStateM.bind
  rw [same]

/-- The machine, with something else remembered by the node on trial. -/
def Machine.owning (m : Machine (Trial κ ρ) μ σ) (own : κ') : Machine (Trial κ' ρ) μ σ :=
  m.withRuns { below := m.runs.below, own, errands := m.runs.errands }

/-- Two runs come to the same, apart from what the nodes on trial remember. -/
inductive Matched (post : α → Context σ → κ → κ' → Prop) :
    EStateM.Result Fault (Machine (Trial κ ρ) μ σ) α → EStateM.Result Fault (Machine (Trial κ' ρ) μ σ) α → Prop
  | ok {x : α} {m : Machine (Trial κ ρ) μ σ} {w : κ'} : post x m.context m.runs.own w →
      Matched post (.ok x m) (.ok x (m.owning w))
  | error {e : Fault} {m : Machine (Trial κ ρ) μ σ} {w : κ'} : Matched post (.error e m) (.error e (m.owning w))

theorem Matched.mono {post post' : α → Context σ → κ → κ' → Prop} {x : EStateM.Result Fault (Machine (Trial κ ρ) μ σ) α}
    {y : EStateM.Result Fault (Machine (Trial κ' ρ) μ σ) α} (h : Matched post x y)
    (after : ∀ x c own own', post x c own own' → post' x c own own') : Matched post' x y := by
  cases h with
  | ok h => exact .ok (after _ _ _ _ h)
  | error => exact .error

/-- Wherever the context and the records are so, the runs come to the same, and the records are then so. -/
def Matches (pre : Context σ → κ → κ' → Prop) (a : Run (Trial κ ρ) μ σ α) (b : Run (Trial κ' ρ) μ σ α)
    (post : α → Context σ → κ → κ' → Prop) : Prop :=
  ∀ m own, pre m.context m.runs.own own → Matched post (a m) (b (m.owning own))

namespace Matches

variable {pre pre' : Context σ → κ → κ' → Prop} {post post' : α → Context σ → κ → κ' → Prop}
  {after : β → Context σ → κ → κ' → Prop} {a a' : Run (Trial κ ρ) μ σ α} {b b' : Run (Trial κ' ρ) μ σ α}

theorem pure {x : α} (h : ∀ c own own', pre c own own' → post x c own own') :
    Matches (ρ := ρ) (μ := μ) pre (pure x) (pure x) post := fun _ _ own => .ok (h _ _ _ own)

theorem bind {f : α → Run (Trial κ ρ) μ σ β} {g : α → Run (Trial κ' ρ) μ σ β} (first : Matches pre a b post)
    (rest : ∀ x, Matches (post x) (f x) (g x) after) : Matches pre (a >>= f) (b >>= g) after := by
  intro m own h
  have came := first m own h
  show Matched after (EStateM.bind a f m) (EStateM.bind b g (m.owning own))
  unfold EStateM.bind
  generalize a m = x at came
  generalize b (m.owning own) = y at came
  cases came with
  | ok h => exact rest _ _ _ h
  | error => exact .error

theorem ite {c : Prop} [Decidable c] (yes : c → Matches pre a b post) (no : ¬ c → Matches pre a' b' post) :
    Matches pre (if c then a else a') (if c then b else b') post := by
  split
  · exact yes ‹_›
  · exact no ‹_›

theorem weaken (h : Matches pre a b post) (before : ∀ c own own', pre' c own own' → pre c own own')
    (after : ∀ x c own own', post x c own own' → post' x c own own') : Matches pre' a b post' :=
  fun m own start => (h m own (before _ _ _ start)).mono after

/-- Both runs ask for the depth, which is the same. -/
theorem depth {d : Nat} {f : Nat → Run (Trial κ ρ) μ σ α} {g : Nat → Run (Trial κ' ρ) μ σ α}
    (at_ : ∀ c own own', pre c own own' → c.depth = d) (h : Matches pre (f d) (g d) post) :
    Matches pre (Run.depth >>= f) (Run.depth >>= g) post := by
  intro m own start
  show Matched post (f m.context.depth m) (g m.context.depth (m.owning own))
  rw [at_ _ _ _ start]
  exact h m own start

theorem returning : Matches (ρ := ρ) (μ := μ) pre Run.returning Run.returning
    fun r c own own' => pre c own own' ∧ c.returnRequest.isSome = r := fun _ _ h => .ok ⟨h, rfl⟩

/-- Of the second run only the first part does something, which the first run has no counterpart of. -/
theorem right_first {mid : Context σ → κ → κ' → Prop} {c : β → Run (Trial κ' ρ) μ σ α} {b : Run (Trial κ' ρ) μ σ β}
    {x : β} (first : Matches pre (Pure.pure x) b fun y c own own' => y = x ∧ mid c own own')
    (rest : Matches mid a (c x) post) : Matches pre a (b >>= c) post := by
  rw [← pure_bind x fun _ => a]
  refine first.bind fun y m own h => ?_
  rw [h.1]
  exact rest m own h.2

/-- The second run does the same as another one. -/
theorem congr_right (same : ∀ (m : Machine (Trial κ ρ) μ σ) own', pre m.context m.runs.own own' →
    b (m.owning own') = b' (m.owning own')) (h : Matches pre a b' post) : Matches pre a b post := by
  intro m own start
  rw [same m own start]
  exact h m own start

/-! ## Work of the children -/

theorem asks {errand : Errand} : Matches (ρ := ρ) (μ := μ) pre (Run.asks errand) (Run.asks errand) fun _ => pre :=
  fun m own h => .ok (m := { m with runs := { m.runs with errands := m.runs.errands ++ [errand] } }) (w := own) h

theorem below {work : Run ρ μ σ α} (keeps : ∀ m x m' own own', work m = .ok x m' → pre m.context own own' →
    pre m'.context own own') : Matches pre work.below work.below fun _ => pre := by
  intro m own h
  have kept := fun x m' ran => keeps (m.withRuns m.runs.below) x m' m.runs.own own ran h
  unfold Run.below
  show Matched _ (Run.mapRuns _ (work (m.withRuns m.runs.below))) (Run.mapRuns _ (work (m.withRuns m.runs.below)))
  generalize work (m.withRuns m.runs.below) = result at kept
  cases result with
  | ok x m' => exact .ok (m := m'.withRuns { m.runs with below := m'.runs }) (kept x m' rfl)
  | error e m' => exact .error (m := m'.withRuns { m.runs with below := m'.runs })

end Matches

/-- Ticks end at the call depth at which they started. Resets leave the context alone, of which they are told
nothing. -/
structure Behaviour.Secluded (child : Behaviour ρ μ σ) : Prop where
  tick : ∀ m status m', child.tick m = .ok status m' → m'.context.depth = m.context.depth
  reset : ∀ depth fire m m', child.reset depth fire m = .ok () m' → m'.context = m.context

namespace Matches

variable {d : Nat} {R : κ → κ' → Prop} {pre : Context σ → κ → κ' → Prop} {child : Behaviour ρ μ σ}

theorem seat_tick (secluded : child.Secluded) (number : Nat) :
    Matches (fun c x y => c.depth = d ∧ R x y) (child.seat number).tick (child.seat number).tick
      fun _ c x y => c.depth = d ∧ R x y :=
  depth (fun _ _ _ h => h.1) (asks.bind fun _ => below fun m status m' _ _ ran h =>
    ⟨(secluded.tick m status m' ran).trans h.1, h.2⟩)

theorem seat_reset (secluded : child.Secluded) (number e : Nat) (fire : Bool) :
    Matches pre ((child.seat number).reset e fire) ((child.seat number).reset e fire) fun _ => pre :=
  asks.bind fun _ => below fun m _ m' _ _ ran h => by rwa [secluded.reset e fire m m' ran]

end Matches

end BehaviorTree
