/-
  BehaviorTree.Proofs.Lockstep.Sharing: the slots of a shared tree and those of its copies.

  Nodes remember their runs by call depth, whatever call is being made. As long as no copy is
  entered or abandoned at a depth at which another one is at work (`Unshared`), the slots of
  the shared tree at that depth are those of the copy that is (`Holds`, `Shared`). That ties
  the two runs together (`Tie.sharing`).
-/

import BehaviorTree.Proofs.Lockstep.Trees
import BehaviorTree.Proofs.Residue
import BehaviorTree.Proofs.Unwinding

namespace BehaviorTree

variable {μ σ : Type} {π : TreeId → TreeId}

/-! ## Copies that are not at work at once -/

/-- At the depth no other copy of the tree remembers anything or has a tick in progress. -/
def Alone (π : TreeId → TreeId) (path : List Place) (s : Store σ) (u : TreeId) (d : Nat) : Prop :=
  ∀ v, v ≠ u → π v = π u → (∀ w, s.slot ⟨w ++ [v], d⟩ = .idle) ∧ ∀ p ∈ path, p.depth = d → p.site.getLast? ≠ some v

/-- Whatever is entered or abandoned belongs to the only copy of its tree that is at work at the depth. -/
def Moment.Unshared (π : TreeId → TreeId) (path : List Place) : Moment μ σ → Prop
  | entered site scene => ∀ u, site.getLast? = some u → Alone π path scene.store u scene.context.depth
  | abandoned site depth _ scene => ∀ u, site.getLast? = some u → Alone π path scene.store u depth
  | left _ _ _ => True

/-- At every moment of the history only one copy of each tree is at work at a depth. -/
def Unshared (π : TreeId → TreeId) (xs : List (Moment μ σ)) : Prop :=
  ∀ before x after, xs = before ++ x :: after → x.Unshared π (pathAfter before)

theorem Unshared.of_append {xs : List (Moment μ σ)} {x : Moment μ σ} (h : Unshared π (xs ++ [x])) : Unshared π xs := by
  intro before y after same
  subst same
  exact h before y (after ++ [x]) (by simp)

theorem Unshared.last {xs : List (Moment μ σ)} {x : Moment μ σ} (h : Unshared π (xs ++ [x])) :
    x.Unshared π (pathAfter xs) := h xs x [] rfl

/-! ## Whose slots the shared ones are -/

/-- The slots of the shared tree at the depth are those of this copy; the other copies remember nothing. -/
structure Holds (π : TreeId → TreeId) (u : TreeId) (d : Nat) (s s' : Store σ) : Prop where
  own : ∀ w, s.slot ⟨w ++ [π u], d⟩ = (s'.slot ⟨w ++ [u], d⟩).mapTrees π
  alone : ∀ v, v ≠ u → π v = π u → ∀ w, s'.slot ⟨w ++ [v], d⟩ = .idle

/-- No tick of another copy is in progress at the depth. -/
def Clear (π : TreeId → TreeId) (path : List Place) (u : TreeId) (d : Nat) : Prop :=
  ∀ p ∈ path, p.depth = d → ∀ v, p.site.getLast? = some v → π v = π u → v = u

variable {path : List Place} {u v : TreeId} {d e : Nat} {s s₁ s' s₁' : Store σ}

theorem Alone.clear (h : Alone π path s u d) : Clear π path u d := by
  intro p hp hd v hv same
  refine Classical.byContradiction fun other => ?_
  exact (h v other same).2 p hp hd hv

/-- The only copy that is at work takes the slots over from any other one. -/
theorem Holds.take (h : Holds π v d s s') (same : π v = π u) (alone : Alone π path s' u d) : Holds π u d s s' := by
  by_cases other : v = u
  · exact other ▸ h
  · have idle : ∀ w, s'.slot ⟨w ++ [v], d⟩ = .idle := (alone v other same).1
    refine ⟨fun w => ?_, fun x hx hxu => (alone x hx hxu).1⟩
    rw [← same, h.own, idle, h.alone u (Ne.symm other) same.symm]

theorem Holds.congr (h : Holds π u d s s') (slots : ∀ p, s₁.slot p = s.slot p) (slots' : ∀ p, s₁'.slot p = s'.slot p) :
    Holds π u d s₁ s₁' where
  own w := by rw [slots, slots', h.own]
  alone v hv same w := by rw [slots', h.alone v hv same]

section
variable {w : List Nat} {x : Slot σ} (left : ∀ q, s₁.slot q = if ⟨w ++ [π u], d⟩ = q then x.mapTrees π else s.slot q)
  (right : ∀ q, s₁'.slot q = if ⟨w ++ [u], d⟩ = q then x else s'.slot q)
include left right

/-- A slot of the copy that is at work may change. -/
theorem Holds.change (h : Holds π u d s s') : Holds π u d s₁ s₁' where
  own w' := by
    rw [left, right, h.own]
    by_cases here : w = w' <;> simp [here]
  alone v hv same w' := by
    rw [right, h.alone v hv same, if_neg]
    simpa using fun _ => hv.symm

/-- What other trees remember is not touched by it, nor what is remembered at other depths. -/
theorem Holds.apart (h : Holds π v e s s') (apart : e = d → π v ≠ π u) : Holds π v e s₁ s₁' where
  own w' := by
    rw [left, right, h.own, if_neg, if_neg]
    · simp only [Place.mk.injEq, List.append_singleton_inj, not_and]
      intro sites depths
      obtain ⟨-, rfl⟩ := sites
      subst depths
      exact apart rfl rfl
    · simp only [Place.mk.injEq, List.append_singleton_inj, not_and]
      intro sites depths
      obtain ⟨-, same⟩ := sites
      subst depths
      exact apart rfl same.symm
  alone y hy same w' := by
    rw [right, h.alone y hy same, if_neg]
    simp only [Place.mk.injEq, List.append_singleton_inj, not_and]
    intro sites depths
    obtain ⟨-, rfl⟩ := sites
    subst depths
    exact apart rfl same.symm

end

/-! ## The shared run and the run of the copies -/

/-- The tree is called through a weak handle. -/
def System.NamesWeakly (sys : System μ σ) (tree : TreeId) : Prop :=
  ∃ site makeState, sys.nodeAt site = some (.call (.fixed (.weak tree)) makeState)

/-- At each depth the slots of each tree are those of one of its copies, which is the one that is at work if
one is. -/
structure Shared (π : TreeId → TreeId) (sys' : System μ σ) (path : List Place)
    (s : Store σ) (r : Recorded μ σ) : Prop where
  path_eq : pathAfter r.history = path
  holder : ∀ u d, ∃ v, π v = π u ∧ Holds π v d s r.store
  inProgress : ∀ p ∈ path, ∀ u, p.site.getLast? = some u → Holds π u p.depth s r.store ∧ Clear π path u p.depth
  height : s.height = r.store.height
  held : ∀ tree, sys'.NamesWeakly tree → tree ∈ r.store.held ∧ π tree ∈ s.held
  progress : ∀ tree, π tree = tree → s.progress tree = r.store.progress tree

namespace Shared

variable {sys' : System μ σ} {r : Recorded μ σ} {p : Place} {w : List Nat} {scene : Scene μ σ}

/-- With the same slots everything is shared as before. -/
theorem congr (h : Shared π sys' path s r) (slots : ∀ p, s₁.slot p = s.slot p)
    (slots' : ∀ p, s₁'.slot p = r.store.slot p)
    (height : s₁.height = s.height) (height' : s₁'.height = r.store.height) (held : s₁.held = s.held)
    (held' : s₁'.held = r.store.held) (progress : ∀ tree, π tree = tree → s₁.progress tree = s₁'.progress tree) :
    Shared π sys' path s₁ { r with store := s₁' } where
  path_eq := h.path_eq
  holder u d := by
    obtain ⟨v, same, holds⟩ := h.holder u d
    exact ⟨v, same, holds.congr slots slots'⟩
  inProgress p hp u hu := ⟨(h.inProgress p hp u hu).1.congr slots slots', (h.inProgress p hp u hu).2⟩
  height := by rw [height, height', h.height]
  held tree weak := by rw [held, held']; exact h.held tree weak
  progress := progress

theorem holds_of_alone (h : Shared π sys' path s r) (alone : Alone π path r.store u d) : Holds π u d s r.store := by
  obtain ⟨v, same, holds⟩ := h.holder u d
  exact holds.take same alone

theorem entered (h : Shared π sys' path s r) (store : scene.store = r.store)
    (unshared : Unshared π (r.history ++ [Moment.entered (w ++ [u]) scene])) :
    Shared π sys' (⟨w ++ [u], scene.context.depth⟩ :: path) s
      { r with history := r.history ++ [Moment.entered (w ++ [u]) scene] } := by
  have alone : Alone π path r.store u scene.context.depth := by
    have last := unshared.last u (by simp)
    rwa [store, h.path_eq] at last
  refine ⟨by simp [pathAfter, ← h.path_eq, Moment.follow], h.holder, ?_, h.height, h.held, h.progress⟩
  intro p hp v hv
  rcases List.mem_cons.mp hp with rfl | hp
  · obtain rfl : u = v := by simpa using hv
    refine ⟨h.holds_of_alone alone, fun q hq hd x hx same => ?_⟩
    rcases List.mem_cons.mp hq with rfl | hq
    · simpa using hx.symm
    · exact alone.clear q hq hd x hx same
  · obtain ⟨holds, clear⟩ := h.inProgress p hp v hv
    refine ⟨holds, fun q hq hd x hx same => ?_⟩
    rcases List.mem_cons.mp hq with rfl | hq
    · obtain rfl : u = x := by simpa using hx
      exact (alone.clear p hp hd.symm v hv same.symm).symm
    · exact clear q hq hd x hx same

theorem left (h : Shared π sys' (p :: path) s r) {site : Address} {status : Status} :
    Shared π sys' path s { r with history := r.history ++ [Moment.left site status scene] } where
  path_eq := by
    have after := h.path_eq
    unfold pathAfter at after ⊢
    simp [after, Moment.follow]
  holder := h.holder
  inProgress q hq u hu := by
    obtain ⟨holds, clear⟩ := h.inProgress q (List.mem_cons_of_mem _ hq) u hu
    exact ⟨holds, fun q hq => clear q (List.mem_cons_of_mem _ hq)⟩
  height := h.height
  held := h.held
  progress := h.progress

theorem abandoned (h : Shared π sys' path s r) {fire : Bool} (store : scene.store = r.store)
    (unshared : Unshared π (r.history ++ [Moment.abandoned (w ++ [u]) d fire scene])) :
    Shared π sys' path s { r with history := r.history ++ [Moment.abandoned (w ++ [u]) d fire scene] } ∧
      Holds π u d s r.store ∧ Clear π path u d := by
  have alone : Alone π path r.store u d := by
    have last := unshared.last u (by simp)
    rwa [store, h.path_eq] at last
  refine ⟨⟨?_, h.holder, h.inProgress, h.height, h.held, h.progress⟩, h.holds_of_alone alone, alone.clear⟩
  simp [pathAfter, ← h.path_eq, Moment.follow]

/-- A slot of the copy that is at work may change. -/
theorem change {x : Slot σ} (h : Shared π sys' path s r) (holds : Holds π u d s r.store) (clear : Clear π path u d)
    (left : ∀ q, s₁.slot q = if ⟨w ++ [π u], d⟩ = q then x.mapTrees π else s.slot q)
    (right : ∀ q, s₁'.slot q = if ⟨w ++ [u], d⟩ = q then x else r.store.slot q)
    (height : s₁.height = s₁'.height) (held : s₁.held = s.held) (held' : s₁'.held = r.store.held)
    (progress : ∀ tree, s₁.progress tree = s.progress tree)
    (progress' : ∀ tree, s₁'.progress tree = r.store.progress tree) :
    Shared π sys' path s₁ { r with store := s₁' } where
  path_eq := h.path_eq
  holder v e := by
    by_cases here : e = d ∧ π v = π u
    · obtain ⟨rfl, same⟩ := here
      exact ⟨u, same.symm, holds.change left right⟩
    · obtain ⟨y, same, other⟩ := h.holder v e
      exact ⟨y, same, other.apart left right fun hd hy => here ⟨hd, same.symm.trans hy⟩⟩
  inProgress p hp v hv := by
    obtain ⟨other, unmoved⟩ := h.inProgress p hp v hv
    refine ⟨?_, unmoved⟩
    by_cases here : p.depth = d ∧ π v = π u
    · obtain ⟨rfl, same⟩ := here
      obtain rfl := clear p hp rfl v hv same
      exact holds.change left right
    · exact other.apart left right fun hd hy => here ⟨hd, hy⟩
  height := height
  held tree weak := by rw [held, held']; exact h.held tree weak
  progress tree fixed := by rw [progress, progress']; exact h.progress tree fixed

end Shared

/-- Shared trees and copies of them are tied together by the slots, if no node draws on a picker. -/
def Tie.sharing (sys : System μ σ) {sys' : System μ σ}
    (unpicked : ∀ site initial children, sys'.nodeAt site ≠ some (.selectOne (.picker initial) children)) :
    Tie π sys sys' where
  fine := Unshared π
  bond := Shared π sys'
  owns path u d s r := Shared π sys' path s r ∧ Holds π u d s r.store ∧ Clear π path u d
  fine_of_append := Unshared.of_append
  bond_of_owns h := h.1
  inside h := ⟨h, h.inProgress _ (List.mem_cons_self ..) _ (by simp)⟩
  entered h store unshared := h.entered store unshared
  left h := h.left
  abandoned h store unshared := h.abandoned store unshared
  cells path w u := {
    get := fun h => h.2.1.own w
    set := fun {d s r} x ⟨h, holds, clear⟩ => by
      have left := fun q => s.slot_set ⟨w ++ [π u], d⟩ q (x.mapTrees π)
      have right := fun q => r.store.slot_set ⟨w ++ [u], d⟩ q x
      refine ⟨h.change holds clear left right ?_ rfl rfl (fun _ => rfl) fun _ => rfl, holds.change left right, clear⟩
      exact congrArg (max · (d + 1)) h.height
    reset := fun {d s r} ⟨h, holds, clear⟩ => by
      have left : ∀ q, _ = if _ = q then Slot.mapTrees π .idle else s.slot q := s.slot_reset ⟨w ++ [π u], d⟩
      have right := r.store.slot_reset ⟨w ++ [u], d⟩
      exact ⟨h.change holds clear left right h.height rfl rfl (fun _ => rfl) fun _ => rfl,
        holds.change left right, clear⟩
    fine_set := id
    fine_reset := id }
  pickers here _ := absurd here (unpicked _ _ _)
  weak here h := by
    obtain ⟨kept', kept⟩ := h.held _ ⟨_, _, here⟩
    simp [System.alive, System.anchored, kept, kept']
  height h := h.height
  started tree h := h.congr (fun _ => rfl) (fun _ => rfl) rfl rfl rfl rfl h.progress
  stopped h := h.congr (fun _ => rfl) (fun _ => rfl) rfl rfl rfl rfl h.progress
  progress {tree path s r} fixed h := by
    refine ⟨h.progress tree fixed, fun f =>
      h.congr (fun _ => rfl) (fun _ => rfl) rfl rfl rfl rfl fun tree' fixed' => ?_⟩
    rw [Store.progress_onProgress, Store.progress_onProgress, h.progress tree fixed, h.progress tree' fixed']

end BehaviorTree
