/-
  BehaviorTree.Proofs.AtWork: the middle of a tick.

  A node that is at work has only some children that may be in a run, the `busy` ones; the
  others are vacant. Ticking a child makes it busy, or not busy if it ended; abandoning the
  busy ones leaves none. A tick ends well (`Ended`) when the slot of the node records every
  child that is busy then.

  Some nodes forget a child that is running when a request to return early comes up with it
  (`Node.Drops`). What they forget is to be given up by then (`Exited`).
-/

import BehaviorTree.Proofs.Resets

namespace BehaviorTree

variable {ρ μ σ : Type}

namespace Setting

variable (S : Setting ρ μ σ)

/-- A tick may start at a place. -/
structure Ready (p : Place) (m : Machine ρ μ σ) : Prop where
  depth : m.context.depth = p.depth
  guarded : S.Guarded m
  bounded : (S.store m).Bounded
  tidy : S.Tidy m.runs
  calm : S.Calm m
  sound : S.Sound m p

/-- A tick at a place went well: what it left is sound, and nothing if it ended a run. With a request to
return early pending it did end one, unless callbacks may ask. -/
structure Ended (p : Place) (m : Machine ρ μ σ) (st : Status) (m' : Machine ρ μ σ) : Prop where
  moves : S.Moves p m m'
  sound : S.Sound m' p
  vacant : st.isTerminal = true → S.Vacant m' p
  returning : m'.context.returnRequest.isSome = true → st.isTerminal = true ∨ S.asks

/-- A tick that is over for the parent too: nothing that counts is left where the parent will forget it. -/
structure Exited (p : Place) (m : Machine ρ μ σ) (st : Status) (m' : Machine ρ μ σ) : Prop
    extends Ended S p m st m' where
  dropped : S.sys.Dropped p → m'.context.returnRequest.isSome = true → S.Vacant m' p

/-- The ticks of the node at an address go well. -/
def Ticks (site : Address) (b : Behaviour ρ μ σ) : Prop :=
  ∀ d m st m', S.Ready ⟨site, d⟩ m → b.tick m = .ok st m' → S.Ended ⟨site, d⟩ m st m'

/-- The ticks of the node at an address go well for its parent. -/
def Exits (site : Address) (b : Behaviour ρ μ σ) : Prop :=
  ∀ d m st m', S.Ready ⟨site, d⟩ m → b.tick m = .ok st m' → S.Exited ⟨site, d⟩ m st m'

/-- The ticks and the resets of the node at an address go well. -/
structure Works (site : Address) (b : Behaviour ρ μ σ) : Prop where
  tick : S.Exits site b
  reset : S.Resets (fun _ _ => True) site b

/-- The middle of a tick at `p` that began at `base`: only children in `busy` may be in a run. -/
structure AtWork (p : Place) (base m : Machine ρ μ σ) (busy : Place → Prop) : Prop where
  moves : S.Moves p base m
  depth : m.context.depth = p.depth
  guarded : S.Guarded m
  bounded : (S.store m).Bounded
  tidy : S.Tidy m.runs
  sound : ∀ c, S.sys.Child p c → S.Sound m c
  vacant : ∀ c, S.sys.Child p c → ¬ busy c → S.Vacant m c

variable {S} {p c : Place} {d : Nat} {base m m₁ m' : Machine ρ μ σ} {busy busy' : Place → Prop} {st : Status}
  {slot : Slot σ} {node child : Node μ σ} {b : Behaviour ρ μ σ}

theorem Ended.calm (h : S.Ended p m .running m') : S.Calm m' := by
  cases hr : m'.context.returnRequest with
  | none => exact .inr hr
  | some r => exact .inl ((h.returning (by simp [hr])).resolve_left nofun)

/-- Where callbacks do not ask a node that is dropped has ended. -/
theorem Ended.exited (h : S.Ended p m st m') (quiet : ¬ S.asks) : S.Exited p m st m' :=
  { h with dropped := fun _ pending => h.vacant ((h.returning pending).resolve_right quiet) }

/-- The root of a tree is not dropped. -/
theorem Ended.exited_root {tree : TreeId} (h : S.Ended ⟨[tree], d⟩ m st m') : S.Exited ⟨[tree], d⟩ m st m' :=
  { h with dropped := fun dropped => absurd dropped S.sys.root_not_dropped }

theorem Ready.still (h : S.Ready p m) (k : S.Still m m') : S.Ready p m' where
  depth := k.depth.trans h.depth
  guarded := (k.moves p).guarded h.guarded
  bounded := (k.moves p).bounded h.bounded
  tidy := k.tidy h.tidy
  calm := k.calm h.calm
  sound := h.sound.congr k.fewer fun q _ => k.slots q

namespace AtWork

theorem start (h : S.Ready p m) : S.AtWork p m m (S.sys.Records (S.store m) p) where
  moves := .refl p m
  depth := h.depth
  guarded := h.guarded
  bounded := h.bounded
  tidy := h.tidy
  sound _ hc := h.sound.below hc.below
  vacant c hc hn := (h.sound p .refl).rest c hc hn

theorem mono (w : S.AtWork p base m busy) (h : ∀ c, S.sys.Child p c → busy c → busy' c) :
    S.AtWork p base m busy' :=
  { w with vacant := fun c hc hn => w.vacant c hc fun k => hn (h c hc k) }

/-- Work that leaves what is below the children alone. -/
theorem own (w : S.AtWork p base m busy) (h : S.Moves p m m₁)
    (same : ∀ q, q ≠ p → (S.store m₁).slot q = (S.store m).slot q) : S.AtWork p base m₁ busy where
  moves := w.moves.trans h
  depth := h.depth.trans w.depth
  guarded := h.guarded w.guarded
  bounded := h.bounded w.bounded
  tidy := h.tidy w.tidy
  sound c hc := (w.sound c hc).congr h.fewer fun q hq => same q fun e => hc.not_below (e ▸ hq)
  vacant c hc hn := (w.vacant c hc hn).congr h.fewer fun q hq => same q fun e => hc.not_below (e ▸ hq)

theorem still (w : S.AtWork p base m busy) (h : S.Still m m₁) : S.AtWork p base m₁ busy :=
  w.own (h.moves p) fun q _ => h.slots q

theorem set (w : S.AtWork p base m busy) (slot : Slot σ) :
    S.AtWork p base (m.onRuns ((S.stage.cell p.site).set · p.depth slot)) busy := by
  refine w.own (S.moves_set m p slot) fun q hq => ?_
  rw [store_set, Store.slot_set, if_neg (Ne.symm hq)]

theorem reset (w : S.AtWork p base m busy) :
    S.AtWork p base (m.onRuns ((S.stage.cell p.site).reset · p.depth)) busy := by
  refine w.own (S.moves_reset m p) fun q hq => ?_
  rw [store_reset, Store.slot_reset, if_neg (Ne.symm hq)]

/-- After work at a child it is busy, and not if it is vacant. -/
theorem after (w : S.AtWork p base m busy) (hc : S.sys.Child p c) (moves : S.Moves c m m₁) (sound : S.Sound m₁ c) :
    S.AtWork p base m₁ (fun x => busy x ∨ x = c) ∧
      (S.Vacant m₁ c → S.AtWork p base m₁ (fun x => busy x ∧ x ≠ c)) := by
  have other : ∀ {x}, S.sys.Child p x → x ≠ c → ∀ q, S.sys.Below x q →
      (S.store m₁).slot q = (S.store m).slot q := fun hx hne => moves.sibling hc hx hne
  have sounds : ∀ x, S.sys.Child p x → S.Sound m₁ x := by
    intro x hx
    by_cases hne : x = c
    · exact hne ▸ sound
    · exact (w.sound x hx).congr moves.fewer (other hx hne)
  have all : S.AtWork p base m₁ fun x => busy x ∨ x = c := {
    moves := w.moves.trans (moves.up hc.below)
    depth := moves.depth.trans w.depth
    guarded := moves.guarded w.guarded
    bounded := moves.bounded w.bounded
    tidy := moves.tidy w.tidy
    sound := sounds
    vacant := fun x hx hn => (w.vacant x hx fun k => hn (.inl k)).congr moves.fewer (other hx fun e => hn (.inr e)) }
  refine ⟨all, fun vacant => { all with vacant := fun x hx hn => ?_ }⟩
  by_cases hne : x = c
  · exact hne ▸ vacant
  · exact (w.vacant x hx fun k => hn ⟨k, hne⟩).congr moves.fewer (other hx hne)

/-- A child may be ticked while no request to return early is pending. -/
theorem ready (w : S.AtWork p base m busy) (hc : S.sys.Child p c) (same : c.depth = p.depth) (calm : S.Calm m) :
    S.Ready c m :=
  ⟨w.depth.trans same.symm, w.guarded, w.bounded, w.tidy, calm, w.sound c hc⟩

/-- With the node's own slot emptied, the busy children may be abandoned. -/
theorem leaving (w : S.AtWork p base m busy) (idle : (S.store m).slot p = .idle) (fire : Bool) :
    S.Leaving p fire m m busy [] := .start w.bounded w.tidy idle w.sound w.vacant

/-- What is still to be reset is what may be in a run. -/
theorem abandoned (w : S.AtWork p base m busy) {fire : Bool} {todo : Place → Prop} {l : List Place}
    (L : S.Leaving p fire m m' todo l) : S.AtWork p base m' todo where
  moves := w.moves.trans L.moves
  depth := L.moves.depth.trans w.depth
  guarded := L.moves.guarded w.guarded
  bounded := L.bounded
  tidy := L.tidy
  sound := L.sound
  vacant := L.vacant

/-- Nothing is busy and nothing is remembered: the tick went well. -/
theorem rested (w : S.AtWork p base m busy) (none : ∀ c, S.sys.Child p c → ¬ busy c)
    (own : S.sys.Counted p → (S.store m).slot p = .idle)
    (returning : m.context.returnRequest.isSome = true → st.isTerminal = true ∨ S.asks) : S.Ended p base st m where
  moves := w.moves
  sound := sound_of_vacant own w.sound fun c hc => w.vacant c hc (none c hc)
  vacant _ := vacant_of_children own fun c hc => w.vacant c hc (none c hc)
  returning := returning

/-- All that is busy is recorded: a tick that leaves the node running went well. -/
theorem waiting (w : S.AtWork p base m busy) (hn : S.sys.nodeAt p.site = some node)
    (fits : node.Fits ((S.store m).slot p) (S.limits.Admits p.depth))
    (recorded : ∀ c, S.sys.Child p c → busy c → S.sys.Records (S.store m) p c) (calm : S.Calm m) :
    S.Ended p base .running m where
  moves := w.moves
  sound := System.sound_of_children
    { fits := fun _ h => Option.some.inj (hn.symm.trans h) ▸ fits
      bare := fun h => by cases hn.symm.trans h
      rest := fun c hc hr => w.vacant c hc fun k => hr (recorded c hc k) } w.sound
  vacant h := by cases h
  returning pending := .inr (calm.resolve_right fun none => by simp [none] at pending)

end AtWork

/-! ## The slot that was just written -/

@[simp] theorem slot_set (m : Machine ρ μ σ) (p : Place) (slot : Slot σ) :
    (S.store (m.onRuns ((S.stage.cell p.site).set · p.depth slot))).slot p = slot := by
  rw [store_set, Store.slot_set, if_pos rfl]

@[simp] theorem slot_reset (m : Machine ρ μ σ) (p : Place) :
    (S.store (m.onRuns ((S.stage.cell p.site).reset · p.depth))).slot p = .idle := by
  rw [store_reset, Store.slot_reset, if_pos rfl]

end Setting

end BehaviorTree
