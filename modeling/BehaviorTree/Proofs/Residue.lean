/-
  BehaviorTree.Proofs.Residue: what runs leave behind in the slots.

  A place is vacant when nothing is remembered at it or below it, conditions' answers
  apart. It is sound when at it and below it every slot holds something its node can have
  left, and every child that the node does not record as running is vacant. The second is
  the invariant of the runs: it is what makes a reset, which follows the records only,
  reach everything.
-/

import Mathlib.Logic.Basic
import BehaviorTree.Proofs.Place

namespace BehaviorTree

variable {μ σ : Type}

/-! ## Slots by place -/

namespace Store

/-- What is remembered at a place. -/
def slot (s : Store σ) (p : Place) : Slot σ := (cell p.site).get s p.depth

/-- The height is above all that is remembered. -/
def Bounded (s : Store σ) : Prop := ∀ p, s.slot p ≠ .idle → p.depth < s.height

variable (s : Store σ) (p q : Place)

theorem slotsAt_insert (site site' : Address) (slots : DepthSlots (Slot σ)) (height : Nat) :
    slotsAt { s with slots := s.slots.insert site slots, height } site' =
      if site = site' then slots else s.slotsAt site' := by
  simp only [slotsAt, Std.ExtTreeMap.getD_insert, Std.LawfulEqCmp.compare_eq_iff_eq]

theorem slotsAt_modify (site site' : Address) (f : DepthSlots (Slot σ) → DepthSlots (Slot σ)) (hf : f {} = {}) :
    slotsAt { s with slots := s.slots.modify site f } site' =
      if site = site' then f (s.slotsAt site') else s.slotsAt site' := by
  simp only [slotsAt, Std.ExtTreeMap.getD_eq_getD_getElem?, Std.ExtTreeMap.getElem?_modify,
    Std.LawfulEqCmp.compare_eq_iff_eq]
  by_cases h : site = site'
  · subst h
    cases s.slots[site]? <;> simp [hf]
  · simp [h]

theorem slot_set (x : Slot σ) : ((cell p.site).set s p.depth x).slot q = if p = q then x else s.slot q := by
  obtain ⟨psite, pdepth⟩ := p
  obtain ⟨qsite, qdepth⟩ := q
  simp only [slot, cell, slotsAt_insert, Place.mk.injEq]
  by_cases h : psite = qsite
  · subst h; simp [DepthSlots.get_set]
  · simp [h]

theorem slot_reset : ((cell p.site).reset s p.depth).slot q = if p = q then .idle else s.slot q := by
  obtain ⟨psite, pdepth⟩ := p
  obtain ⟨qsite, qdepth⟩ := q
  simp only [slot, cell, Place.mk.injEq]
  rw [slotsAt_modify _ _ _ _ (by simp [DepthSlots.reset])]
  by_cases h : psite = qsite
  · subst h; simp [DepthSlots.get_reset, Slot.default_eq]
  · simp [h]

@[simp] theorem slot_empty (p : Place) : ({} : Store σ).slot p = .idle := by
  simp [slot, cell, slotsAt, Slot.default_eq]

theorem height_set (x : Slot σ) : ((cell p.site).set s p.depth x).height = max s.height (p.depth + 1) := rfl

theorem height_reset : ((cell p.site).reset s p.depth).height = s.height := rfl

theorem progress_onProgress (tree tree' : TreeId) (f : Progress → Progress) :
    (s.onProgress tree f).progress tree' = if tree = tree' then f (s.progress tree) else s.progress tree' := by
  simp only [progress, onProgress, Std.ExtTreeMap.getD_insert, Std.LawfulEqCmp.compare_eq_iff_eq]

variable {s p q}

theorem Bounded.set (h : s.Bounded) (x : Slot σ) : ((cell p.site).set s p.depth x).Bounded := by
  intro q hq
  rw [slot_set] at hq
  rw [height_set]
  split at hq
  · subst ‹p = q›; omega
  · have := h q hq; omega

theorem Bounded.reset (h : s.Bounded) : ((cell p.site).reset s p.depth).Bounded := by
  intro q hq
  rw [slot_reset] at hq
  rw [height_reset]
  split at hq
  · exact absurd rfl hq
  · exact h q hq

end Store

/-! ## What nodes leave in their slots -/

/-- A call at this depth is within the limits. -/
def Limits.Admits (l : Limits) (depth : Nat) : Prop :=
  depth < l.maxCallDepth.toNat ∧ ∀ capacity, l.stackCapacity = some capacity → depth < capacity.toNat

namespace Node

/-- The slot says that the child number `i` is in a run. -/
def Runs (slot : Slot σ) (i : Nat) : Node μ σ → Prop
  | invert _ | force _ _ | guard _ _ | repeatUntil _ _ | scope _ _ => slot = .started
  | repeatTimes _ _ | retry _ _ => ∃ count, slot = .iterations count true
  | timeout _ _ => ∃ time, slot = .elapsed time
  | delay _ _ => slot = .released
  | localScope _ => ∃ board, slot = .overlay board
  | sequence _ | selector _ | reactiveSequence _ | reactiveSelector _ | selectOne _ _ => slot = .child i
  | parallel _ _ | join _ _ | race _ => ∃ states, slot = .children states ∧ states[i]? = some .running
  | _ => False

/-- The slot holds something that the node can have left there, so far as a later tick or reset
looks at it. `admits` says that the limits admit a call from there. -/
def Fits (slot : Slot σ) (admits : Prop) : Node μ σ → Prop
  | action _ | custom _ _ | earlyReturn _ => slot = .idle
  | invert _ | force _ _ | guard _ _ | repeatUntil _ _ | scope _ _ => slot = .idle ∨ slot = .started
  | sequence children | selector children | reactiveSequence children | reactiveSelector children
  | selectOne _ children => slot = .idle ∨ ∃ i, slot = .child i ∧ i < children.length
  | parallel _ children | join _ children | race children =>
    slot = .idle ∨ ∃ states, slot = .children states ∧ states.length = children.length ∧ .running ∈ states
  | call source _ => slot = .idle ∨ ∃ tree state, slot = .call tree state ∧ source.Names tree ∧ admits
  | _ => True

/-- The node forgets a child that is running when a request to return early comes up with it. -/
def Drops : Node μ σ → Prop
  | repeatTimes _ _ | retry _ _ | sequence _ | selector _ | reactiveSequence _ | reactiveSelector _ | race _ => True
  | _ => False

theorem fits_idle (node : Node μ σ) (admits : Prop) : node.Fits .idle admits := by
  cases node <;> simp [Fits]

end Node

namespace System

variable (sys : System μ σ) (limits : Limits) (counts : Place → Prop) (s : Store σ)

/-- The node at a place records the child at another as running. -/
inductive Records (p : Place) : Place → Prop
  | inside {node : Node μ σ} {i : Nat} : sys.nodeAt p.site = some node → node.Runs (s.slot p) i →
      Records p (p.inside i)
  | called {source : Source μ} {makeState : Option (StateMaker μ σ)} {tree : TreeId} {state : Option σ} :
      sys.nodeAt p.site = some (.call source makeState) → s.slot p = .call tree state → Records p (p.callee tree)

/-- The place belongs to a child that its parent forgets when it is running and a request to return early
comes up with it. -/
def Dropped (p : Place) : Prop := ∃ i site node, p.site = i :: site ∧ sys.nodeAt site = some node ∧ node.Drops

/-- What is remembered at a place belongs to a run: conditions keep their answers beyond it. -/
def Counted (p : Place) : Prop := ∀ holds every, sys.nodeAt p.site ≠ some (.condition holds every)

/-- Nothing that counts is remembered at the place or below it. -/
def Vacant (p : Place) : Prop := ∀ q, sys.Below p q → counts q → s.slot q = .idle

/-- What is remembered at a place fits the node there, and the children that it does not record
are vacant. -/
structure Orderly (p : Place) : Prop where
  fits : ∀ node, sys.nodeAt p.site = some node → node.Fits (s.slot p) (limits.Admits p.depth)
  bare : sys.nodeAt p.site = none → s.slot p = .idle
  rest : ∀ c, sys.Child p c → ¬ sys.Records s p c → sys.Vacant counts s c

/-- Orderly at the place and all the way below. -/
def Sound (p : Place) : Prop := ∀ q, sys.Below p q → sys.Orderly limits counts s q

variable {sys limits counts s} {counts' : Place → Prop} {s' : Store σ} {p q c : Place}

theorem root_not_dropped {tree : TreeId} {d : Nat} : ¬ sys.Dropped ⟨[tree], d⟩ := by
  intro dropped
  obtain ⟨i, site, node, same, hn, -⟩ := dropped
  cases same
  exact absurd rfl (sys.nodeAt_ne_nil hn)

theorem dropped_inside {node : Node μ σ} {site : Address} {d : Nat} (hn : sys.nodeAt site = some node)
    (drops : node.Drops) (i : Nat) : sys.Dropped ⟨i :: site, d⟩ := ⟨i, site, node, rfl, hn, drops⟩

/-- The children of a node that is no call are inside its tree. -/
theorem Child.of_node {node : Node μ σ} (hc : sys.Child p c) (hn : sys.nodeAt p.site = some node)
    (calls : ∀ source makeState, node ≠ .call source makeState) : ∃ i, i < node.children.length ∧ c = p.inside i := by
  cases hc with
  | inside h hi => exact ⟨_, Option.some.inj (h.symm.trans hn) ▸ hi, rfl⟩
  | called h _ => exact absurd (Option.some.inj (hn.symm.trans h)) (calls _ _)

theorem Child.only {node child : Node μ σ} (hc : sys.Child p c) (hn : sys.nodeAt p.site = some node)
    (one : node.children = [child]) : c = p.inside 0 := by
  obtain ⟨i, hi, rfl⟩ := hc.of_node hn (by rintro source makeState rfl; cases one)
  obtain rfl : i = 0 := by simpa [one] using hi
  rfl

theorem Records.runs {node : Node μ σ} {i : Nat} (h : sys.Records s p (p.inside i))
    (hn : sys.nodeAt p.site = some node) : node.Runs (s.slot p) i := by
  generalize hc : p.inside i = c at h
  cases h with
  | inside hm hr => exact Place.inside_injective hc ▸ Option.some.inj (hm.symm.trans hn) ▸ hr
  | called hm _ =>
    simp only [Place.inside, Place.callee, Place.mk.injEq, List.cons.injEq] at hc
    exact absurd hc.1.2 (sys.nodeAt_ne_nil hn)

theorem Sound.below (h : sys.Sound limits counts s p) (k : sys.Below p q) : sys.Sound limits counts s q :=
  fun r hr => h r (k.trans hr)

theorem vacant_of_children (own : counts p → s.slot p = .idle) (h : ∀ c, sys.Child p c → sys.Vacant counts s c) :
    sys.Vacant counts s p := by
  intro q hq counted
  rcases hq.eq_or_child with rfl | ⟨c, hc, hq⟩
  · exact own counted
  · exact h c hc q hq counted

theorem sound_of_children (own : sys.Orderly limits counts s p) (h : ∀ c, sys.Child p c → sys.Sound limits counts s c) :
    sys.Sound limits counts s p := by
  intro q hq
  rcases hq.eq_or_child with rfl | ⟨c, hc, hq⟩
  · exact own
  · exact h c hc q hq

/-- An empty slot fits, and so does whatever a condition remembers. -/
theorem orderly_of_vacant (own : sys.Counted p → s.slot p = .idle) (h : ∀ c, sys.Child p c → sys.Vacant counts s c) :
    sys.Orderly limits counts s p where
  fits node hn := by
    by_cases hc : sys.Counted p
    · rw [own hc]
      exact node.fits_idle _
    · simp only [Counted, not_forall, not_not] at hc
      obtain ⟨holds, every, hc⟩ := hc
      obtain rfl : node = .condition holds every := by simpa [hn] using hc
      trivial
  bare hn := own (by simp [Counted, hn])
  rest c hc _ := h c hc

/-- Where nothing is remembered all is sound. -/
theorem sound_of_idle (idle : ∀ q, s.slot q = .idle) (p : Place) : sys.Sound limits counts s p :=
  fun q _ => orderly_of_vacant (fun _ => idle q) fun _ _ r _ _ => idle r

/-! ## What is elsewhere does not matter -/

theorem Vacant.congr (h : sys.Vacant counts s p) (fewer : ∀ q, counts' q → counts q)
    (same : ∀ q, sys.Below p q → s'.slot q = s.slot q) : sys.Vacant counts' s' p :=
  fun q hq hc => (same q hq).trans (h q hq (fewer q hc))

theorem Records.congr (h : sys.Records s p c) (same : s'.slot p = s.slot p) : sys.Records s' p c := by
  cases h with
  | inside hn hr => exact .inside hn (same ▸ hr)
  | called hn hr => exact .called hn (same.trans hr)

theorem Orderly.congr (h : sys.Orderly limits counts s p) (fewer : ∀ q, counts' q → counts q)
    (same : ∀ q, sys.Below p q → s'.slot q = s.slot q) : sys.Orderly limits counts' s' p where
  fits node hn := by rw [same p .refl]; exact h.fits node hn
  bare hn := (same p .refl).trans (h.bare hn)
  rest c hc hr :=
    (h.rest c hc fun k => hr (k.congr (same p .refl))).congr fewer fun q hq => same q (hc.below.trans hq)

theorem Sound.congr (h : sys.Sound limits counts s p) (fewer : ∀ q, counts' q → counts q)
    (same : ∀ q, sys.Below p q → s'.slot q = s.slot q) : sys.Sound limits counts' s' p :=
  fun q hq => (h q hq).congr fewer fun r hr => same r (hq.trans hr)

/-! ## Scopes in the middle of a run -/

variable (sys counts s)

/-- A scope whose run is unfinished. -/
def Unfinished (p : Place) : Prop :=
  (∃ hooks child, sys.nodeAt p.site = some (.scope hooks child)) ∧ s.slot p = .started

/-- The places of unfinished scopes at a place and below it, all that count, each once, and each before
the scopes that enclose it. -/
structure Lists (p : Place) (l : List Place) : Prop where
  only : ∀ q ∈ l, sys.Below p q ∧ sys.Unfinished s q
  all : ∀ q, sys.Below p q → sys.Unfinished s q → counts q → q ∈ l
  nodup : l.Nodup
  inner_first : l.Pairwise fun q r => ¬ sys.Below q r

/-- What the scope at a place does with the memory when its run is abandoned. -/
def onAbandon (p : Place) : μ → μ :=
  match sys.nodeAt p.site with
  | some (.scope hooks _) => hooks.onExit .running
  | _ => id

/-- The memory after the runs of scopes are abandoned, one after the other. -/
def abandonAll (l : List Place) (memory : μ) : μ := l.foldl (fun memory p => sys.onAbandon p memory) memory

variable {sys counts s}

theorem Unfinished.counted (h : sys.Unfinished s p) : sys.Counted p := by
  intro holds every hn
  obtain ⟨⟨hooks, child, hs⟩, -⟩ := h
  cases hs.symm.trans hn

/-- Only scopes can be unfinished. -/
theorem not_unfinished {node : Node μ σ} (here : sys.nodeAt p.site = some node)
    (plain : ∀ hooks child, node ≠ .scope hooks child) : ¬ sys.Unfinished s p := by
  rintro ⟨⟨hooks, child, scope⟩, -⟩
  exact plain hooks child (Option.some.inj (here.symm.trans scope))

theorem Unfinished.congr (h : sys.Unfinished s p) (same : s'.slot p = s.slot p) : sys.Unfinished s' p :=
  ⟨h.1, same.trans h.2⟩

theorem Vacant.uncounted (h : sys.Vacant counts s p) (k : sys.Below p q) (unfinished : sys.Unfinished s q) :
    ¬ counts q := by
  intro counted
  cases unfinished.2.symm.trans (h q k counted)

theorem Vacant.finished (h : sys.Vacant sys.Counted s p) (k : sys.Below p q) : ¬ sys.Unfinished s q :=
  fun unfinished => h.uncounted k unfinished unfinished.counted

theorem Vacant.lists (h : sys.Vacant counts s p) : sys.Lists counts s p [] where
  only q hq := by cases hq
  all _ hq unfinished counted := absurd counted (h.uncounted hq unfinished)
  nodup := .nil
  inner_first := .nil

/-- Where all that runs remember counts the list is complete. -/
theorem Lists.mem {l : List Place} (h : sys.Lists sys.Counted s p l) (q : Place) :
    q ∈ l ↔ sys.Below p q ∧ sys.Unfinished s q :=
  ⟨h.only q, fun found => h.all q found.1 found.2 found.2.counted⟩

@[simp] theorem abandonAll_nil (memory : μ) : sys.abandonAll [] memory = memory := rfl

theorem abandonAll_append (l l' : List Place) (memory : μ) :
    sys.abandonAll (l ++ l') memory = sys.abandonAll l' (sys.abandonAll l memory) := by
  simp [abandonAll]

end System

end BehaviorTree
