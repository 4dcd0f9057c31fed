/-
  BehaviorTree.Proofs.Sharing: one tree for several calls, or a copy for each.

  A tree that several calls use does as well as copies of its own for each of them, as long
  as no copy is entered or abandoned at a depth at which another one is at work
  (`sharing_agrees`). Calls that are unfinished at the same time at the same depth meet in
  the slots of the shared tree, and do not go on as their copies would (`twins_differ`).
-/

import BehaviorTree.Proofs.CleanExit
import BehaviorTree.Proofs.Erasure
import BehaviorTree.Proofs.Lockstep.Sharing

namespace BehaviorTree

variable {μ σ : Type}

open Recorded (erase blank)

theorem Shared.start {π : TreeId → TreeId} {sys' : System μ σ} {s : Store σ} (fresh : ∀ p, s.slot p = .idle)
    (held : ∀ tree, sys'.NamesWeakly tree → tree ∈ s.held ∧ π tree ∈ s.held) : Shared π sys' [] s { store := s } where
  path_eq := rfl
  holder u d := ⟨u, rfl, fun w => by rw [fresh, fresh]; rfl, fun v _ _ w => fresh _⟩
  inProgress p hp := by cases hp
  height := rfl
  held := held
  progress _ _ := rfl

/-- Trees may be shared. Instead of copies that are never at work at once at the same depth, the calls may
use one tree, with the same answers, callbacks, diagnostics and events. -/
theorem sharing_agrees (sys sys' : System μ σ) (π : TreeId → TreeId) (copies : sys.Copies π sys')
    (unpicked : ∀ site initial children, sys'.nodeAt site ≠ some (.selectOne (.picker initial) children))
    (top : TreeId) (fixed : π top = top) (uses : List (Use σ)) (m : Machine (Store σ) μ σ)
    (fresh : ∀ p, m.runs.slot p = .idle)
    (held : ∀ tree, sys'.NamesWeakly tree → tree ∈ m.runs.held ∧ π tree ∈ m.runs.held)
    (unshared : Unshared π ((sys'.session .recording top uses).last (blank m)).runs.history) :
    Agree id Machine.Same (sys.session .plain top uses m) (sys'.session .plain top uses m) := by
  have related : Along ((Tie.sharing sys unpicked).bond []) m.context.depth m (blank m) :=
    ⟨⟨rfl, rfl, rfl, rfl⟩, rfl, .start fresh held⟩
  have shared := (Tie.session_lock copies fixed uses [] m.context.depth).agree m (blank m) related unshared
  refine shared.join (System.session_erases top uses (blank m)) (fun _ _ h => h.same) fun _ _ h => ?_
  exact h ▸ ⟨rfl, rfl, rfl, rfl⟩

/-! ## Looking for copies that are at work at once -/

/-- Whether something is remembered at the depth, in a node of the tree. -/
def Store.holds (s : Store σ) (u : TreeId) (d : Nat) : Bool :=
  s.slots.toList.any fun (site, slots) => site.getLast? = some u && (slots.get d).used

theorem Store.idle_of_holds {s : Store σ} {u : TreeId} {d : Nat} (h : s.holds u d = false) (w : List Nat) :
    s.slot ⟨w ++ [u], d⟩ = .idle := by
  show (s.slotsAt (w ++ [u])).get d = .idle
  unfold slotsAt
  rw [Std.ExtTreeMap.getD_eq_getD_getElem?]
  cases found : s.slots[w ++ [u]]? with
  | none => rfl
  | some slots =>
    have kept := Std.ExtTreeMap.mem_toList_iff_getElem?_eq_some.mpr found
    have idle := List.any_eq_false.mp h _ kept
    simp only [List.getLast?_concat, decide_true, Bool.true_and] at idle
    cases here : slots.get d with
    | idle => exact here
    | _ => simp [here, Slot.used] at idle

/-- Whether the copy `u` is the only one of these that is at work at the depth. -/
def aloneAmong (trees : List TreeId) (π : TreeId → TreeId) (path : List Place) (s : Store σ)
    (u : TreeId) (d : Nat) : Bool :=
  trees.all fun v => v = u || π v ≠ π u || !s.holds v d && path.all fun p => p.depth ≠ d || p.site.getLast? ≠ some v

/-- Whether what is entered or abandoned belongs to the only one of these copies that is at work. -/
def Moment.unsharedAmong (trees : List TreeId) (π : TreeId → TreeId) (path : List Place) : Moment μ σ → Bool
  | entered site scene => site.getLast?.all fun u => aloneAmong trees π path scene.store u scene.context.depth
  | abandoned site depth _ scene => site.getLast?.all fun u => aloneAmong trees π path scene.store u depth
  | left _ _ _ => true

/-- Whether that is so at every moment of the history, which goes on from a path. -/
def unsharedAmong (trees : List TreeId) (π : TreeId → TreeId) : List Place → List (Moment μ σ) → Bool
  | _, [] => true
  | path, x :: xs => x.unsharedAmong trees π path && unsharedAmong trees π (x.follow path) xs

variable {trees : List TreeId} {π : TreeId → TreeId}

theorem alone_of_among (complete : ∀ u v, v ≠ u → π v = π u → v ∈ trees)
    {path : List Place} {s : Store σ} {u : TreeId}
    {d : Nat} (h : aloneAmong trees π path s u d = true) : Alone π path s u d := by
  intro v other same
  have at_v := List.all_eq_true.mp h v (complete u v other same)
  simp only [other, same, decide_false, ne_eq, not_true_eq_false, Bool.false_or, Bool.and_eq_true, Bool.not_eq_true',
    List.all_eq_true, Bool.or_eq_true, decide_eq_true_eq] at at_v
  exact ⟨Store.idle_of_holds at_v.1, fun p hp hd => (at_v.2 p hp).resolve_left fun off => off hd⟩

theorem unshared_of_among (complete : ∀ u v, v ≠ u → π v = π u → v ∈ trees) {xs : List (Moment μ σ)}
    (h : unsharedAmong trees π [] xs = true) : Unshared π xs := by
  suffices from_ : ∀ path, unsharedAmong trees π path xs = true → ∀ before (x : Moment μ σ) after,
      xs = before ++ x :: after → x.Unshared π (before.foldl Moment.follow path) from from_ [] h
  clear h
  induction xs with
  | nil => exact fun path _ before x after hx => absurd hx (by simp)
  | cons y ys ih =>
    intro path h before x after hx
    rw [unsharedAmong, Bool.and_eq_true] at h
    cases before with
    | cons z before =>
      obtain ⟨rfl, rfl⟩ := List.cons.inj hx
      exact ih _ h.2 before x after rfl
    | nil =>
      obtain ⟨rfl, rfl⟩ := List.cons.inj hx
      have here := h.1
      cases y with
      | left => trivial
      | entered | abandoned =>
        intro u hu
        rw [Moment.unsharedAmong, hu] at here
        exact alone_of_among complete here

/-! ## Two calls of a pause -/

/-- Calls of two trees. -/
def twoCalls (first second : TreeId) : List (Node Unit Unit) :=
  [.call (.fixed (.strong first)) none, .call (.fixed (.strong second)) none]

/-- A tree that only pauses. -/
def pausing : Tree Unit Unit := { name := "pausing", root := .pause }

/-- The pause is shared between the calls. -/
def sharedPause (main : List (Node Unit Unit) → Node Unit Unit) : System Unit Unit where
  trees := #[{ name := "main", root := main (twoCalls 1 1) }, pausing]

/-- Each call has a pause of its own. -/
def separatePauses (main : List (Node Unit Unit) → Node Unit Unit) : System Unit Unit where
  trees := #[{ name := "main", root := main (twoCalls 1 2) }, pausing, pausing]

/-- The third tree is a copy of the second one. -/
def secondOfThird (tree : TreeId) : TreeId := if tree = 2 then 1 else tree

/-- Nodes that occur there. -/
def Node.IsPlain : Node Unit Unit → Prop
  | .pause | .sequence _ | .parallel _ _ | .call (.fixed (.strong _)) _ => True
  | _ => False

theorem separatePauses_plain (main : List (Node Unit Unit) → Node Unit Unit) (plain : (main (twoCalls 1 2)).IsPlain)
    (children : (main (twoCalls 1 2)).children = twoCalls 1 2) (site : Address) (node : Node Unit Unit)
    (hn : (separatePauses main).nodeAt site = some node) : node.IsPlain := by
  refine System.forall_nodes (fun tree h => ?_) site node hn
  simp only [separatePauses, List.mem_toArray, List.mem_cons, List.not_mem_nil, or_false] at h
  rcases h with rfl | rfl | rfl
  · refine .mk plain ?_
    rw [children]
    exact List.forall_mem_cons.mpr ⟨.leaf trivial rfl, List.forall_mem_singleton.mpr (.leaf trivial rfl)⟩
  · exact .leaf trivial rfl
  · exact .leaf trivial rfl

theorem pauses_copies (main : List (Node Unit Unit) → Node Unit Unit) (plain : (main (twoCalls 1 2)).IsPlain)
    (children : (main (twoCalls 1 2)).children = twoCalls 1 2)
    (renamed : (main (twoCalls 1 2)).mapTrees secondOfThird = main (twoCalls 1 1)) :
    (sharedPause main).Copies secondOfThird (separatePauses main) where
  trees tree := by
    rcases tree with _ | _ | _ | tree
    · simp [sharedPause, separatePauses, secondOfThird, Tree.mapTrees, renamed]
    · rfl
    · rfl
    · simp [sharedPause, separatePauses, secondOfThird]
  callbacks site node hn := by
    have here := separatePauses_plain main plain children site node hn
    cases node <;> trivial

/-- Nothing happened yet. -/
def pausesStart : Machine (Store Unit) Unit Unit := { context := {}, memory := (), runs := {} }

/-- So many ticks, of no length. -/
def ticks (n : Nat) : List (Use Unit) := List.replicate n (.tick 0 none)

/-- Whether three ticks end so, and the copies are never at work at once. -/
def turnsWatched : Run (Recorded Unit Unit) Unit Unit Bool := do
  let answers ← (separatePauses .sequence).session .recording 0 (ticks 3)
  let after ← get
  return answers = [.running, .running, .success] ∧ unsharedAmong [1, 2] secondOfThird [] after.runs.history = true

/-- A sequence calls the pause twice, one call after the other has ended. -/
theorem turns_agree : ∃ n n',
    (sharedPause .sequence).session .plain 0 (ticks 3) pausesStart = .ok [.running, .running, .success] n ∧
    (separatePauses .sequence).session .plain 0 (ticks 3) pausesStart = .ok [.running, .running, .success] n' ∧
    n.Same n' := by
  obtain ⟨_, ran⟩ := Run.ok_of_answer (a := turnsWatched) (m := blank pausesStart) (x := true) (by decide +kernel)
  simp only [turnsWatched, Run.bind_eq_ok, Run.get_eq_ok, Run.pure_eq_ok, decide_eq_true_eq] at ran
  obtain ⟨answers, m', recorded, _, _, ⟨rfl, rfl⟩, ⟨rfl, unshared⟩, rfl⟩ := ran
  have plain := separatePauses_plain .sequence trivial rfl
  have complete : ∀ u v, v ≠ u → secondOfThird v = secondOfThird u → v ∈ [1, 2] := by
    unfold secondOfThird
    grind
  have strong : ∀ tree, ¬ (separatePauses .sequence).NamesWeakly tree := by
    intro tree found
    obtain ⟨site, makeState, h⟩ := found
    exact plain _ _ h
  have agreed := sharing_agrees (sharedPause .sequence) (separatePauses .sequence) secondOfThird
    (pauses_copies .sequence trivial rfl rfl) (fun site initial children h => plain _ _ h) 0 rfl (ticks 3) pausesStart
    Store.slot_empty (fun tree weak => absurd weak (strong tree))
    (by rw [Run.last_ok recorded]; exact unshared_of_among complete unshared)
  obtain ⟨n', separate, -⟩ := (System.session_erases 0 (ticks 3) (blank pausesStart)).of_right recorded
  obtain ⟨n, shared, same⟩ := agreed.of_right separate
  exact ⟨n, n', shared, separate, same⟩

/-- Whether the answers of two ticks are these. -/
def twinsWatched (sys : System Unit Unit) (expected : List Status) : Run (Store Unit) Unit Unit Bool := do
  let answers ← sys.session .plain 0 (ticks 2)
  return answers = expected

/-- Called twice side by side, the pause ends the first tick for the second call already, and starts again
for the first one; copies end together. -/
theorem twins_differ :
    (sharedPause (.parallel .all)).Copies secondOfThird (separatePauses (.parallel .all)) ∧
    ∃ n n', (sharedPause (.parallel .all)).session .plain 0 (ticks 2) pausesStart = .ok [.running, .running] n ∧
      (separatePauses (.parallel .all)).session .plain 0 (ticks 2) pausesStart = .ok [.running, .success] n' := by
  refine ⟨pauses_copies (.parallel .all) trivial rfl rfl, ?_⟩
  obtain ⟨n, shared⟩ := Run.ok_of_answer (a := twinsWatched (sharedPause (.parallel .all)) [.running, .running])
    (m := pausesStart) (x := true) (by decide +kernel)
  obtain ⟨n', separate⟩ := Run.ok_of_answer (a := twinsWatched (separatePauses (.parallel .all)) [.running, .success])
    (m := pausesStart) (x := true) (by decide +kernel)
  simp only [twinsWatched, Run.bind_eq_ok, Run.pure_eq_ok, decide_eq_true_eq] at shared separate
  obtain ⟨_, n, shared, rfl, -⟩ := shared
  obtain ⟨_, n', separate, rfl, -⟩ := separate
  exact ⟨n, n', shared, separate⟩

end BehaviorTree
