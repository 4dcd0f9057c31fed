/-
  BehaviorTree.Proofs.Leeway.Room: machines with more room for calls.

  Limits that cover others admit every call that these admit (`Context.Roomier.enter`). Two
  machines may differ in the limits of the tick in progress, and in the trees that are marked as
  busy: a tree is marked where its stack is in use, and one that has no stack in the first system
  is marked in the second run only (`Roomier`). The steps of the nodes keep to this.
-/

import BehaviorTree.Proofs.Accord.Trees
import BehaviorTree.Proofs.Guard

namespace BehaviorTree

variable {μ σ α : Type}

/-! ## Limits -/

/-- The limits leave at least as much room as others. -/
structure Limits.Covers (l l' : Limits) : Prop where
  depth : l'.maxCallDepth ≤ l.maxCallDepth
  stack : ∀ n, l.stackCapacity = some n → ∃ n', l'.stackCapacity = some n' ∧ n' ≤ n

namespace System

variable (wide sys : System μ σ)

/-- The tree has no call stack in the first system only. -/
def Relieved (tree : TreeId) : Prop :=
  (wide.limitsOf tree).stackCapacity = none ∧ (sys.limitsOf tree).stackCapacity ≠ none

/-- The record is not of a refused call, nor of a refused tick of a tree that the first system relieves of its
stack. -/
structure Admits (d : Diagnostic) : Prop where
  call : ∀ o, d ≠ .refused o
  tick : ∀ tree, wide.Relieved sys tree → d ≠ .reentrantTick (sys.nameOf tree)

/-- All records from this one on are like that. -/
def AdmitsFrom (first : Nat) (journal : Array Diagnostic) : Prop := ∀ d ∈ journal.toList.drop first, wide.Admits sys d

variable {wide sys}

theorem AdmitsFrom.of_push {first : Nat} {journal : Array Diagnostic} {d : Diagnostic}
    (h : wide.AdmitsFrom sys first (journal.push d)) : wide.AdmitsFrom sys first journal := fun e he => by
  refine h e ?_
  rw [Array.toList_push, List.drop_append]
  exact List.mem_append_left _ he

theorem AdmitsFrom.last {first : Nat} {journal : Array Diagnostic} {d : Diagnostic}
    (h : wide.AdmitsFrom sys first (journal.push d)) (since : first ≤ journal.size) : wide.Admits sys d := by
  refine h d ?_
  rw [Array.toList_push, List.drop_append_of_le_length (by simpa using since)]
  exact List.mem_append_right _ (List.mem_singleton_self d)

end System

/-! ## Contexts -/

/-- What is left of the context without what the recursion guard looks at. -/
def Context.unguarded (c : Context σ) : Context σ := { c with maxDepth := 0, stack := none }

/-- The first context is the second one, with room for more calls. -/
inductive Context.Roomier : Context σ → Context σ → Prop
  | mk (c : Context σ) {maxDepth : Nat} {stack : Option CallStack} : c.maxDepth ≤ maxDepth →
    (∀ s, stack = some s → ∃ s', c.stack = some s' ∧ s'.capacity ≤ s.capacity ∧ s'.frames = s.frames) →
    Roomier { c with maxDepth, stack } c

namespace Context.Roomier

variable {c c' d d' : Context σ} {tree : String}

theorem refl (c : Context σ) : c.Roomier c := .mk c (Nat.le_refl _) fun s h => ⟨s, h, Nat.le_refl _, rfl⟩

theorem unguarded (h : c.Roomier c') : c.unguarded = c'.unguarded := by
  cases h
  rfl

/-- What does not depend on the room is the same. -/
theorem same {τ : Type} (h : c.Roomier c') (read : Context σ → τ) (blind : ∀ c, read c.unguarded = read c) :
    read c = read c' := by
  rw [← blind c, h.unguarded, blind]

theorem map {f : Context σ → Context σ} (h : c.Roomier c')
    (passes : ∀ (c : Context σ) maxDepth stack, f { c with maxDepth, stack } = { f c with maxDepth, stack }) :
    (f c).Roomier (f c') := by
  obtain ⟨_, deeper, piles⟩ := h
  have own := passes c' c'.maxDepth c'.stack
  have depth := congrArg Context.maxDepth own
  have stack := congrArg Context.stack own
  rw [passes]
  exact .mk (f c') (le_of_eq_of_le depth deeper) fun s hs => stack ▸ piles s hs

theorem leave (h : c.Roomier c') : c.leave.Roomier c'.leave := by
  obtain ⟨_, deeper, piles⟩ := h
  refine .mk c'.leave deeper fun s hs => ?_
  obtain ⟨t, ht, rfl⟩ := Option.map_eq_some_iff.mp hs
  obtain ⟨t', ht', capacity, frames⟩ := piles t ht
  refine ⟨t'.pop.2, ?_, capacity, congrArg List.dropLast frames⟩
  show c'.stack.map _ = _
  rw [ht']
  rfl

/-- A call that is admitted is also admitted where there is more room. -/
theorem enter (h : c.Roomier c') (entered : c'.enter tree = .ok d') : ∃ d, c.enter tree = .ok d ∧ d.Roomier d' := by
  obtain ⟨_, deeper, piles⟩ := h
  rename_i maxDepth stack
  have bound := Context.enter_bounded entered
  have deep : ¬ maxDepth < c'.depth + 1 := by omega
  have pushed := Context.enter_stack entered
  obtain ⟨stack', rfl⟩ := Behaviour.enter_ok entered
  cases stack with
  | none =>
    exact ⟨_, if_neg deep, .mk { c' with depth := c'.depth + 1, stack := stack' } deeper fun _ none => by cases none⟩
  | some s =>
    obtain ⟨s', hs', capacity, frames⟩ := piles s rfl
    have room : s'.isFull = false := by
      unfold Context.enter CallStack.push at entered
      rw [if_neg (Nat.not_lt.mpr bound), hs'] at entered
      cases full : s'.isFull with
      | false => rfl
      | true => simp [full] at entered
    have room' : s.isFull = false := by
      simp only [CallStack.isFull, decide_eq_false_iff_not] at room ⊢
      rw [← frames]
      omega
    let stack : CallStack := { s with frames := s.frames ++ [⟨tree, c'.depth + 1⟩] }
    refine ⟨{ c' with depth := c'.depth + 1, maxDepth, stack := some stack }, ?_,
      .mk { c' with depth := c'.depth + 1, stack := stack' } deeper fun t ht => ?_⟩
    · unfold Context.enter CallStack.push
      dsimp only
      rw [if_neg deep, room']
      rfl
    · cases ht
      refine ⟨{ s' with frames := s'.frames ++ [⟨tree, c'.depth + 1⟩] }, ?_, capacity, congrArg (· ++ _) frames⟩
      exact pushed.trans (by rw [hs']; rfl)

end Context.Roomier

/-- A tick that starts with more room. -/
theorem Context.Roomier.fresh {wide sys : System μ σ} {tree : TreeId}
    (covers : (wide.limitsOf tree).Covers (sys.limitsOf tree)) (tick : UInt64) (delta : Float32) (state : Option σ)
    (layers : Layers) : (wide.freshContext tree tick delta state layers).Roomier
      (sys.freshContext tree tick delta state layers) := by
  refine .mk (sys.freshContext tree tick delta state layers) (UInt64.le_iff_toNat_le.mp covers.depth) fun s hs => ?_
  obtain ⟨n, hn, rfl⟩ := Option.map_eq_some_iff.mp hs
  obtain ⟨n', hn', fewer⟩ := covers.stack n hn
  refine ⟨{ capacity := n'.toNat }, ?_, UInt64.le_iff_toNat_le.mp fewer, rfl⟩
  show (sys.limitsOf tree).stackCapacity.map _ = _
  rw [hn']
  rfl

/-! ## Machines -/

theorem Store.progress_eq (s : Store σ) (tree : TreeId) : s.progress tree = s.trees[tree]?.getD {} :=
  Std.ExtTreeMap.getD_eq_getD_getElem?

theorem Store.trees_onProgress (s : Store σ) (tree : TreeId) (f : Progress → Progress) :
    (s.onProgress tree f).trees[tree]? = some (f (s.progress tree)) := Std.ExtTreeMap.getElem?_insert_self

theorem Store.trees_onProgress_ne (s : Store σ) {tree other : TreeId} (f : Progress → Progress) (apart : tree ≠ other) :
    (s.onProgress tree f).trees[other]? = s.trees[other]? := by
  simp [onProgress, Std.ExtTreeMap.getElem?_insert, apart]

/-- How far a tick is, which trees only the second run has marked as busy, and whether both ticks have the
same limits, as outside of the trees. -/
structure Leeway where
  marked : TreeId → Prop
  descent : Descent
  outside : Prop

/-- The tree is marked as well. -/
def Leeway.mark (i : Leeway) (tree : TreeId) : Leeway := { i with marked := fun other => i.marked other ∨ other = tree }

theorem Leeway.mark_other (i : Leeway) {tree other : TreeId} (apart : tree ≠ other) :
    (i.mark tree).marked other ↔ i.marked other := or_iff_left apart.symm

/-- What is known of the ticks of a tree is the same, except that the tree may be marked as busy. -/
inductive Noted (marked : Prop) : Option Progress → Option Progress → Prop
  | same (p : Option Progress) : ¬ marked → Noted marked p p
  | marked (p : Progress) : marked → Noted marked (some { p with busy := false }) (some { p with busy := true })

namespace Noted

variable {marked : Prop} {p p' : Option Progress}

theorem ticks (h : Noted marked p p') : (p.getD {}).ticks = (p'.getD {}).ticks := by cases h <;> rfl

theorem eq (h : Noted marked p p') (unmarked : ¬ marked) : p = p' := by
  cases h with
  | same => rfl
  | marked _ here => exact absurd here unmarked

theorem busy (h : Noted marked p p') (here : marked) : (p'.getD {}).busy = true := by
  cases h with
  | same _ unmarked => exact absurd here unmarked
  | marked => rfl

theorem map {f : Progress → Progress} (h : Noted marked p p')
    (aside : ∀ p busy, f { p with busy } = { f p with busy }) :
    Noted marked (some (f (p.getD {}))) (some (f (p'.getD {}))) := by
  cases h with
  | same _ unmarked => exact .same _ unmarked
  | marked p here =>
    have kept := Noted.marked (f p) here
    rwa [← aside, ← aside] at kept

/-- The mark is taken off. -/
theorem unmark {again : Prop} (h : Noted marked p p') (here : marked) (unmarked : ¬ again) :
    Noted again p (some { p'.getD {} with busy := false }) := by
  cases h with
  | same _ none => exact absurd here none
  | marked p => exact .same (some { p with busy := false }) unmarked

end Noted

/-- The second machine leaves no more room for calls, and is the same otherwise. -/
structure Roomier (wide sys : System μ σ) (first : Nat) (i : Leeway) (m m' : Machine (Store σ) μ σ) : Prop where
  context : m.context.Roomier m'.context
  outside : i.outside → m.context = m'.context
  descent : i.descent.Holds m'.context
  memory : m.memory = m'.memory
  journal : m.journal = m'.journal
  heard : m.heard = m'.heard
  since : first ≤ m'.journal.size
  store : m.runs.apart = m'.runs.apart
  noted : ∀ tree, Noted (i.marked tree) m.runs.trees[tree]? m'.runs.trees[tree]?
  relieved : ∀ tree, i.marked tree → wide.Relieved sys tree

namespace Roomier

variable {wide sys : System μ σ} {first : Nat} {i : Leeway} {m m' : Machine (Store σ) μ σ}

theorem onContext {f : Context σ → Context σ} (h : Roomier wide sys first i m m')
    (passes : ∀ (c : Context σ) maxDepth stack, f { c with maxDepth, stack } = { f c with maxDepth, stack })
    (depth : ∀ c, (f c).depth = c.depth) : Roomier wide sys first i (m.onContext f) (m'.onContext f) :=
  { h with
    context := h.context.map passes
    outside := fun out => congrArg f (h.outside out)
    descent := by
      have own := congrArg Context.maxDepth (passes m'.context m'.context.maxDepth m'.context.stack)
      exact ⟨(depth _).trans h.descent.depth, le_of_eq_of_le own h.descent.maxDepth, h.descent.inside⟩ }

theorem report (h : Roomier wide sys first i m m') (d : Diagnostic) :
    Roomier wide sys first i (m.report d) (m'.report d) :=
  { h with
    journal := congrArg (·.push d) h.journal
    since := Nat.le_trans h.since (by simp [Machine.report]) }

theorem onRuns {f : Store σ → Store σ} (h : Roomier wide sys first i m m')
    (aside : ∀ s trees, f { s with trees } = { f s with trees }) :
    Roomier wide sys first i (m.onRuns f) (m'.onRuns f) := by
  have apart : ∀ s, (f s).apart = f s.apart := fun s => (aside s ∅).symm
  have trees : ∀ s, (f s).trees = s.trees := fun s => by
    have own := congrArg Store.trees (aside s s.trees)
    exact own
  refine { h with store := ?_, noted := fun tree => ?_ }
  · show (f m.runs).apart = (f m'.runs).apart
    rw [apart, apart, h.store]
  · show Noted _ (f m.runs).trees[tree]? (f m'.runs).trees[tree]?
    rw [trees, trees]
    exact h.noted tree

theorem trace (h : Roomier wide sys first i m m') (tag : String) (x y : UInt64) : Ended (Roomier wide sys first i)
    (fun n n' => ∃ k, Roomier wide sys first k n n') (Run.trace tag x y m) (Run.trace tag x y m') := by
  have emitted : m.context.layers.root.emit ⟨m.context.tick, tag, x, y⟩ =
      m'.context.layers.root.emit ⟨m'.context.tick, tag, x, y⟩ :=
    h.context.same (fun c => c.layers.root.emit ⟨c.tick, tag, x, y⟩) fun _ => rfl
  have base := h.onContext (f := fun c => { c with layers := { c.layers with
    root := (m'.context.layers.root.emit ⟨m'.context.tick, tag, x, y⟩).1 } }) (fun _ _ _ => rfl) fun _ => rfl
  unfold Run.trace
  rw [emitted]
  dsimp only
  cases (m'.context.layers.root.emit ⟨m'.context.tick, tag, x, y⟩).2 with
  | error fault => exact .error fault ⟨i, base⟩
  | ok delivery =>
    rcases delivery with _ | (e | e)
    · exact .ok () base
    · exact .ok () { base with heard := congrArg (·.push e) h.heard }
    · exact .ok () (base.report (.event e))

theorem called {tree : String} {c' : Context σ} (h : Roomier wide sys first i m m')
    (entered : m'.context.enter tree = .ok c') : ∃ c, m.context.enter tree = .ok c ∧ Roomier wide sys first
      { i with descent := i.descent.call } { m with context := c } { m' with context := c' } := by
  obtain ⟨c, entered', roomier⟩ := h.context.enter entered
  refine ⟨c, entered', { h with context := roomier, outside := fun out => ?_, descent := h.descent.enter entered }⟩
  rw [h.outside out, entered] at entered'
  cases entered'
  rfl

/-- What is known of the ticks of one tree is changed. -/
theorem noting {f f' : Store σ → Store σ} {j : Leeway} (h : Roomier wide sys first i m m') {tree : TreeId}
    (apart : ∀ s, (f s).apart = s.apart ∧ (f' s).apart = s.apart)
    (others : ∀ s other, tree ≠ other → (f s).trees[other]? = s.trees[other]? ∧ (f' s).trees[other]? = s.trees[other]?)
    (marked : ∀ other, tree ≠ other → (j.marked other ↔ i.marked other)) (descent : j.descent = i.descent)
    (outside : j.outside → i.outside) (here : Noted (j.marked tree) (f m.runs).trees[tree]? (f' m'.runs).trees[tree]?)
    (relieved : j.marked tree → wide.Relieved sys tree) : Roomier wide sys first j (m.onRuns f) (m'.onRuns f') := by
  refine { h with
    outside := fun out => h.outside (outside out), descent := descent ▸ h.descent, store := ?_,
    noted := fun other => ?_, relieved := fun other => ?_ }
  · exact (apart m.runs).1.trans (h.store.trans (apart m'.runs).2.symm)
  · by_cases own : tree = other
    · exact own ▸ here
    · have noted := h.noted other
      rw [← (others m.runs other own).1, ← (others m'.runs other own).2] at noted
      exact propext (marked other own) ▸ noted
  · by_cases own : tree = other
    · exact own ▸ relieved
    · exact fun hm => h.relieved other ((marked other own).mp hm)

/-- It is changed alike. -/
theorem onProgress {f : Progress → Progress} (h : Roomier wide sys first i m m') (tree : TreeId)
    (here : Noted (i.marked tree) (some (f (m.runs.progress tree))) (some (f (m'.runs.progress tree)))) :
    Roomier wide sys first i (m.onRuns (·.onProgress tree f)) (m'.onRuns (·.onProgress tree f)) :=
  h.noting (fun _ => ⟨rfl, rfl⟩) (fun s _ other => ⟨s.trees_onProgress_ne f other, s.trees_onProgress_ne f other⟩)
    (fun _ _ => Iff.rfl) rfl id (by rwa [Store.trees_onProgress, Store.trees_onProgress]) (h.relieved tree)

theorem ticks (h : Roomier wide sys first i m m') (tree : TreeId) :
    (m.runs.progress tree).ticks = (m'.runs.progress tree).ticks := by
  rw [Store.progress_eq, Store.progress_eq]
  exact (h.noted tree).ticks

theorem progress (h : Roomier wide sys first i m m') {tree : TreeId} (unmarked : ¬ i.marked tree) :
    m.runs.progress tree = m'.runs.progress tree := by
  rw [Store.progress_eq, Store.progress_eq, (h.noted tree).eq unmarked]

theorem unmarked (h : Roomier wide sys first i m m') {tree : TreeId} (idle : (m'.runs.progress tree).busy = false) :
    ¬ i.marked tree := fun here => by
  rw [Store.progress_eq, (h.noted tree).busy here] at idle
  cases idle

/-- A tick of a tree that is relieved of its stack starts, and the second run marks the tree. -/
theorem mark (h : Roomier wide sys first i m m') {tree : TreeId} (relieved : wide.Relieved sys tree)
    (idle : (m'.runs.progress tree).busy = false) (ticks : UInt64) :
    Roomier wide sys first (i.mark tree) (m.onRuns (·.onProgress tree ({ · with ticks })))
      (m'.onRuns fun s => (s.onProgress tree ({ · with ticks })).onProgress tree ({ · with busy := true })) := by
  refine h.noting (fun _ => ⟨rfl, rfl⟩) (fun s other apart => ⟨s.trees_onProgress_ne _ apart, ?_⟩)
    (fun _ => i.mark_other) rfl id ?_ fun _ => relieved
  · rw [Store.trees_onProgress_ne _ _ apart, Store.trees_onProgress_ne _ _ apart]
  · rw [Store.trees_onProgress, Store.trees_onProgress, Store.progress_eq (Store.onProgress ..),
      Store.trees_onProgress, Option.getD_some, h.progress (h.unmarked idle), idle]
    exact .marked { m'.runs.progress tree with ticks } (.inr rfl)

/-- The tick ends, and the mark is taken off. -/
theorem unmark {tree : TreeId} (h : Roomier wide sys first (i.mark tree) m m') (unmarked : ¬ i.marked tree) :
    Roomier wide sys first i m (m'.onRuns (·.onProgress tree ({ · with busy := false }))) := by
  refine h.noting (f := id) (fun _ => ⟨rfl, rfl⟩) (fun s _ apart => ⟨rfl, s.trees_onProgress_ne _ apart⟩)
    (fun _ apart => (i.mark_other apart).symm) rfl id ?_ fun here => absurd here unmarked
  rw [Store.trees_onProgress, Store.progress_eq, id]
  exact (h.noted tree).unmark (.inr rfl) unmarked

end Roomier

end BehaviorTree
