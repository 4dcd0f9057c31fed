/-
  BehaviorTree.Proofs.Abandon: a reset empties everything below.

  A reset follows what the nodes record as running. From a sound place that is enough: it
  succeeds, leaves the place vacant, and calls the exit hook of each unfinished scope there
  that counts exactly once, inner ones first (`Abandoned`). `Leaving` is the state in the middle, with
  some recorded children still to be reset; each node's reset takes it from all of them to
  none.
-/

import BehaviorTree.Proofs.Setting

namespace BehaviorTree

variable {ρ μ σ : Type}

namespace Setting

variable (S : Setting ρ μ σ)

/-- What a reset at a place comes to. -/
structure Abandoned (p : Place) (fire : Bool) (m m' : Machine ρ μ σ) : Prop where
  moves : S.Moves p m m'
  context : m'.context = m.context
  height : (S.store m').height = (S.store m).height
  sound : S.Sound m' p
  vacant : S.Vacant m' p
  told : ∃ l, S.sys.Lists (S.Counts m'.runs) (S.store m) p l ∧
    m'.memory = if fire then S.sys.abandonAll l m.memory else m.memory

/-- Resets of the node at an address succeed and leave nothing, at the depths and heights of the store
that `deep` allows. -/
def Resets (deep : (height depth : Nat) → Prop) (site : Address) (b : Behaviour ρ μ σ) : Prop :=
  ∀ m depth fire, (S.store m).Bounded → S.Tidy m.runs → S.Sound m ⟨site, depth⟩ →
    deep (S.store m).height depth →
    ∃ m', b.reset depth fire m = .ok () m' ∧ S.Abandoned ⟨site, depth⟩ fire m m'

/-- The middle of a reset: the slot at `p` is emptied already, the children in `todo` are still to be
reset, and the scopes in `l` have been told. `base` is where the children were all as they had been. -/
structure Leaving (p : Place) (fire : Bool) (base m : Machine ρ μ σ) (todo : Place → Prop) (l : List Place) :
    Prop where
  moves : S.Moves p base m
  context : m.context = base.context
  height : (S.store m).height = (S.store base).height
  bounded : (S.store m).Bounded
  tidy : S.Tidy m.runs
  idle : (S.store m).slot p = .idle
  sound : ∀ c, S.sys.Child p c → S.Sound m c
  vacant : ∀ c, S.sys.Child p c → ¬ todo c → S.Vacant m c
  untouched : ∀ c, S.sys.Child p c → todo c → ∀ q, S.sys.Below c q → (S.store m).slot q = (S.store base).slot q
  only : ∀ q ∈ l, ∃ c, S.sys.Child p c ∧ ¬ todo c ∧ S.sys.Below c q ∧ S.sys.Unfinished (S.store base) q
  all : ∀ c q, S.sys.Child p c → ¬ todo c → S.sys.Below c q → S.sys.Unfinished (S.store base) q →
    S.Counts m.runs q → q ∈ l
  nodup : l.Nodup
  inner_first : l.Pairwise fun q r => ¬ S.sys.Below q r
  memory : m.memory = if fire then S.sys.abandonAll l base.memory else base.memory

variable {S} {p c : Place} {fire : Bool} {base m m₁ m' : Machine ρ μ σ} {todo : Place → Prop} {l : List Place}
  {deep : (height depth : Nat) → Prop}

namespace Leaving

/-- At first every child that may be in a run is still to be reset. -/
theorem start (bounded : (S.store m).Bounded) (tidy : S.Tidy m.runs) (idle : (S.store m).slot p = .idle)
    (sound : ∀ c, S.sys.Child p c → S.Sound m c)
    (vacant : ∀ c, S.sys.Child p c → ¬ todo c → S.Vacant m c) : S.Leaving p fire m m todo [] where
  moves := .refl p m
  context := rfl
  height := rfl
  bounded := bounded
  tidy := tidy
  idle := idle
  sound := sound
  vacant := vacant
  untouched _ _ _ _ _ := rfl
  only q hq := by cases hq
  all c q hc ht hq unfinished counts := absurd counts (System.Vacant.uncounted (vacant c hc ht) hq unfinished)
  nodup := .nil
  inner_first := .nil
  memory := by simp

/-- One more child is reset. -/
theorem step (L : S.Leaving p fire base m todo l) (hc : S.sys.Child p c) (ht : todo c)
    (h : S.Abandoned c fire m m₁) : ∃ l', S.Leaving p fire base m₁ (fun x => todo x ∧ x ≠ c) l' := by
  obtain ⟨l', lists, memory⟩ := h.told
  have before : ∀ q, S.sys.Below c q → (S.sys.Unfinished (S.store m) q ↔ S.sys.Unfinished (S.store base) q) :=
    fun q hq => ⟨fun u => u.congr (L.untouched c hc ht q hq).symm, fun u => u.congr (L.untouched c hc ht q hq)⟩
  have only : ∀ q ∈ l', S.sys.Below c q ∧ S.sys.Unfinished (S.store base) q := by
    intro q hq
    obtain ⟨below, unfinished⟩ := lists.only q hq
    exact ⟨below, (before q below).mp unfinished⟩
  refine ⟨l ++ l', ?_⟩
  have other : ∀ {x}, S.sys.Child p x → x ≠ c → ∀ q, S.sys.Below x q →
      (S.store m₁).slot q = (S.store m).slot q := fun hx hne => h.moves.sibling hc hx hne
  constructor
  case moves => exact L.moves.trans (h.moves.up hc.below)
  case context => exact h.context.trans L.context
  case height => exact h.height.trans L.height
  case bounded => exact h.moves.bounded L.bounded
  case tidy => exact h.moves.tidy L.tidy
  case idle => exact (h.moves.own_slot hc).trans L.idle
  case sound =>
    intro x hx
    by_cases hne : x = c
    · exact hne ▸ h.sound
    · exact (L.sound x hx).congr h.moves.fewer (other hx hne)
  case vacant =>
    intro x hx hn
    by_cases hne : x = c
    · exact hne ▸ h.vacant
    · exact (L.vacant x hx fun k => hn ⟨k, hne⟩).congr h.moves.fewer (other hx hne)
  case untouched =>
    intro x hx other q hq
    obtain ⟨hk, hne⟩ := other
    exact (other hx hne q hq).trans (L.untouched x hx hk q hq)
  case only =>
    intro q hq
    rcases List.mem_append.mp hq with hq | hq
    · obtain ⟨x, hx, hn, below⟩ := L.only q hq
      exact ⟨x, hx, fun k => hn k.1, below⟩
    · exact ⟨c, hc, fun k => k.2 rfl, only q hq⟩
  case all =>
    intro x q hx hn hq hu counts
    by_cases hne : x = c
    · subst hne
      exact List.mem_append_right _ (lists.all q hq ((before q hq).mpr hu) counts)
    · exact List.mem_append_left _ (L.all x q hx (fun k => hn ⟨k, hne⟩) hq hu (h.moves.fewer q counts))
  case nodup =>
    refine List.nodup_append.mpr ⟨L.nodup, lists.nodup, fun q hq r hr he => ?_⟩
    obtain ⟨x, hx, hn, hxq, -⟩ := L.only q hq
    have hcq := (only r hr).1
    subst he
    exact System.siblings_apart S.exclusive hx hc (fun e => hn (e ▸ ht)) hxq hcq
  case inner_first =>
    refine List.pairwise_append.mpr ⟨L.inner_first, lists.inner_first, fun q hq r hr hqr => ?_⟩
    obtain ⟨x, hx, hn, hxq, -⟩ := L.only q hq
    exact System.siblings_apart S.exclusive hx hc (fun e => hn (e ▸ ht)) (hxq.trans hqr) (only r hr).1
  case memory =>
    rw [memory, L.memory]
    cases fire
    · rfl
    · simp [System.abandonAll_append]

/-- The child at a place is reset. -/
theorem reset (L : S.Leaving p fire base m todo l) (hc : S.sys.Child p c) (ht : todo c) {b : Behaviour ρ μ σ}
    (spec : S.Resets deep c.site b) (hd : deep (S.store base).height c.depth) :
    ∃ m₁ l', b.reset c.depth fire m = .ok () m₁ ∧ S.Leaving p fire base m₁ (fun x => todo x ∧ x ≠ c) l' := by
  obtain ⟨m₁, ok, h⟩ := spec m c.depth fire L.bounded L.tidy (L.sound c hc) (L.height ▸ hd)
  obtain ⟨l', L'⟩ := L.step hc ht h
  exact ⟨m₁, l', ok, L'⟩

theorem todo_congr (L : S.Leaving p fire base m todo l) {todo' : Place → Prop}
    (h : ∀ c, S.sys.Child p c → (todo c ↔ todo' c)) : S.Leaving p fire base m todo' l :=
  { L with
    vacant := fun c hc hn => L.vacant c hc fun k => hn ((h c hc).mp k)
    untouched := fun c hc ht => L.untouched c hc ((h c hc).mpr ht)
    only := fun q hq => by
      obtain ⟨c, hc, hn, below⟩ := L.only q hq
      exact ⟨c, hc, fun k => hn ((h c hc).mpr k), below⟩
    all := fun c q hc hn => L.all c q hc fun k => hn ((h c hc).mp k) }

theorem all_vacant (L : S.Leaving p fire base m todo l) (none : ∀ c, S.sys.Child p c → ¬ todo c) :
    S.Vacant m p := vacant_of_children (fun _ => L.idle) fun c hc => L.vacant c hc (none c hc)

theorem all_sound (L : S.Leaving p fire base m todo l) (none : ∀ c, S.sys.Child p c → ¬ todo c) :
    S.Sound m p := sound_of_vacant (fun _ => L.idle) L.sound fun c hc => L.vacant c hc (none c hc)

end Leaving

/-! ## From a sound place to an empty one -/

variable (S m) in
/-- Emptying the slot of a node leaves all below its children as it is. -/
theorem slot_reset_below (hc : S.sys.Child p c) (hq : S.sys.Below c q) :
    (S.store (m.onRuns ((S.stage.cell p.site).reset · p.depth))).slot q = (S.store m).slot q := by
  rw [store_reset, Store.slot_reset, if_neg]
  rintro rfl
  exact hc.not_below hq

/-- Emptying its slot begins the reset of a node: the recorded children are still to be reset. -/
theorem Leaving.take (fire : Bool) (bounded : (S.store m).Bounded) (tidy : S.Tidy m.runs)
    (sound : S.Sound m p) :
    S.Leaving p fire (m.onRuns ((S.stage.cell p.site).reset · p.depth))
      (m.onRuns ((S.stage.cell p.site).reset · p.depth)) (S.sys.Records (S.store m) p) [] := by
  have moves := S.moves_reset m p
  refine .start (moves.bounded bounded) (moves.tidy tidy) ?_ (fun c hc => ?_) fun c hc hn => ?_
  · rw [store_reset, Store.slot_reset, if_pos rfl]
  · exact (sound.below hc.below).congr moves.fewer fun q => S.slot_reset_below m hc
  · exact Vacant.congr ((sound p .refl).rest c hc hn) moves.fewer fun q => S.slot_reset_below m hc

/-- When no child is left to be reset, the node's run is abandoned. -/
theorem Leaving.finish
    (L : S.Leaving p fire (m.onRuns ((S.stage.cell p.site).reset · p.depth)) m' todo l)
    (none : ∀ c, S.sys.Child p c → ¬ todo c) (plain : ¬ S.sys.Unfinished (S.store m) p) :
    S.Abandoned p fire m m' where
  moves := (S.moves_reset m p).trans L.moves
  context := L.context
  height := by rw [L.height, store_reset, Store.height_reset]
  sound := L.all_sound none
  vacant := L.all_vacant none
  told := by
    refine ⟨l, ⟨fun q hq => ?_, fun q hq hu counts => ?_, L.nodup, L.inner_first⟩, L.memory⟩
    · obtain ⟨c, hc, -, below, hu⟩ := L.only q hq
      exact ⟨hc.below.trans below, hu.congr (S.slot_reset_below m hc below).symm⟩
    · rcases hq.eq_or_child with rfl | ⟨c, hc, below⟩
      · exact absurd hu plain
      · exact L.all c q hc (none c hc) below (hu.congr (S.slot_reset_below m hc below)) counts

/-- A reset that finds nothing does nothing. -/
theorem Abandoned.nothing (sound : S.Sound m p) (h : S.Vacant m p) : S.Abandoned p fire m m where
  moves := .refl p m
  context := rfl
  height := rfl
  sound := sound
  vacant := h
  told := ⟨[], System.Vacant.lists h, by simp⟩

/-! ## Nodes with children of their own -/

variable {node child : Node μ σ} {site : Address} {b B : Behaviour ρ μ σ} {bs : List (Behaviour ρ μ σ)} {i : Nat}

/-- Abandoned, when no child is recorded. -/
theorem Abandoned.taken (bounded : (S.store m).Bounded) (tidy : S.Tidy m.runs)
    (sound : S.Sound m p) (none : ∀ c, S.sys.Child p c → ¬ S.sys.Records (S.store m) p c)
    (plain : ¬ S.sys.Unfinished (S.store m) p) :
    S.Abandoned p fire m (m.onRuns ((S.stage.cell p.site).reset · p.depth)) :=
  (Leaving.take fire bounded tidy sound).finish none plain

/-- Abandoned, when the one recorded child is reset. -/
theorem Abandoned.taken_one (fire : Bool) (bounded : (S.store m).Bounded) (tidy : S.Tidy m.runs)
    (sound : S.Sound m p) (hc : S.sys.Child p c) (running : S.sys.Records (S.store m) p c)
    (only : ∀ x, S.sys.Child p x → S.sys.Records (S.store m) p x → x = c)
    (plain : ¬ S.sys.Unfinished (S.store m) p) (spec : S.Resets deep c.site b)
    (hd : deep (S.store m).height c.depth) :
    ∃ m', b.reset c.depth fire (m.onRuns ((S.stage.cell p.site).reset · p.depth)) = .ok () m' ∧
      S.Abandoned p fire m m' := by
  have height : (S.store (m.onRuns ((S.stage.cell p.site).reset · p.depth))).height = (S.store m).height := by
    rw [store_reset, Store.height_reset]
  obtain ⟨m', l, ok, L⟩ := (Leaving.take fire bounded tidy sound).reset hc running spec (height ▸ hd)
  exact ⟨m', ok, L.finish (fun x hx k => k.2 (only x hx k.1)) plain⟩

/-- A node with one child: its reset follows the record. -/
theorem resets_one (hn : S.sys.nodeAt site = some node) (one : node.children = [child])
    (plain : ∀ hooks child, node ≠ .scope hooks child) (spec : S.Resets deep (0 :: site) b)
    (running : ∀ m depth fire, node.Runs ((S.store m).slot ⟨site, depth⟩) 0 →
      B.reset depth fire m = b.reset depth fire (m.onRuns ((S.stage.cell site).reset · depth)))
    (otherwise : ∀ m depth fire, ¬ node.Runs ((S.store m).slot ⟨site, depth⟩) 0 →
      node.Fits ((S.store m).slot ⟨site, depth⟩) (S.limits.Admits depth) →
      B.reset depth fire m = .ok () (m.onRuns ((S.stage.cell site).reset · depth)) ∨
        (S.store m).slot ⟨site, depth⟩ = .idle ∧ B.reset depth fire m = .ok () m) : S.Resets deep site B := by
  intro m depth fire bounded tidy sound hd
  have hc : S.sys.Child ⟨site, depth⟩ (Place.inside ⟨site, depth⟩ 0) := .inside hn (by simp [one])
  have only : ∀ x, S.sys.Child ⟨site, depth⟩ x → x = Place.inside ⟨site, depth⟩ 0 := fun x hx => hx.only hn one
  have plain : ¬ S.sys.Unfinished (S.store m) ⟨site, depth⟩ := System.not_unfinished hn plain
  by_cases hr : node.Runs ((S.store m).slot ⟨site, depth⟩) 0
  · rw [running m depth fire hr]
    exact Abandoned.taken_one fire bounded tidy sound hc (.inside hn hr) (fun x hx _ => only x hx) plain spec hd
  · have none : ∀ x, S.sys.Child ⟨site, depth⟩ x → ¬ S.sys.Records (S.store m) ⟨site, depth⟩ x := by
      intro x hx hrec
      obtain rfl := only x hx
      exact hr (hrec.runs hn)
    rcases otherwise m depth fire hr ((sound _ .refl).fits node hn) with ok | ⟨idle, ok⟩
    · exact ⟨_, ok, .taken bounded tidy sound none plain⟩
    · exact ⟨m, ok, .nothing sound (vacant_of_children (fun _ => idle) fun x hx =>
        (sound _ .refl).rest x hx (none x hx))⟩

end Setting

end BehaviorTree
