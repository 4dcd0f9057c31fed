/-
  BehaviorTree.Proofs.Returns.Quiet: resets, seen in a recorded history.

  A quiet stretch enters and leaves no node: it abandons runs beyond the path and goes on
  with the same request pending (`Quiet`). Every reset of a place beyond the path is quiet
  (`hushed_node`, `hushed_root`), whether an early return is pending or not.
-/

import BehaviorTree.Proofs.Passage
import BehaviorTree.Proofs.Tame
import BehaviorTree.Proofs.Unwinding

namespace BehaviorTree

variable {μ σ : Type}

namespace System

variable (sys : System μ σ)

/-- Nothing happens but resets beyond the path. -/
structure Quiet (path : List Place) (m m' : Machine (Recorded μ σ) μ σ) : Prop where
  depth : m'.context.depth = m.context.depth
  request : m'.context.returnRequest = m.context.returnRequest
  memory : sys.Unwinds path m.memory m'.memory
  follows : ∃ xs, m'.runs.history = m.runs.history ++ xs ∧
    ∀ pending, sys.Allows path pending m.memory → sys.Follows ⟨path, pending⟩ xs ⟨path, pending⟩

/-- Abandoning the run at this depth is quiet. -/
def Hushed (path : List Place) (depth : Nat) (b : Behaviour (Recorded μ σ) μ σ) : Prop :=
  ∀ fire m m', b.reset depth fire m = .ok () m' → sys.Quiet path m m'

variable {sys} {path : List Place} {site : Address} {d : Nat} {m m₁ m' : Machine (Recorded μ σ) μ σ}
  {b : Behaviour (Recorded μ σ) μ σ} {bs : List (Behaviour (Recorded μ σ) μ σ)}

namespace Quiet

/-- Whatever leaves the history alone and goes on in the same place. -/
theorem of_unwinds (depth : m'.context.depth = m.context.depth)
    (request : m'.context.returnRequest = m.context.returnRequest) (memory : sys.Unwinds path m.memory m'.memory)
    (history : m'.runs.history = m.runs.history) : sys.Quiet path m m' :=
  ⟨depth, request, memory, [], by simp [history], fun pending _ => .nil _⟩

theorem refl (m : Machine (Recorded μ σ) μ σ) : sys.Quiet path m m := .of_unwinds rfl rfl .refl rfl

theorem of_alike (h : m.Alike m') : sys.Quiet path m m' :=
  .of_unwinds h.depth h.request (h.memory ▸ .refl) (by rw [h.runs])

theorem set (m : Machine (Recorded μ σ) μ σ) (site : Address) (d : Nat) (slot : Slot σ) :
    sys.Quiet path m (m.onRuns ((Stage.recording.cell site : Cell (Recorded μ σ) σ).set · d slot)) :=
  .of_unwinds rfl rfl .refl rfl

theorem reset (m : Machine (Recorded μ σ) μ σ) (site : Address) (d : Nat) :
    sys.Quiet path m (m.onRuns ((Stage.recording.cell site : Cell (Recorded μ σ) σ).reset · d)) :=
  .of_unwinds rfl rfl .refl rfl

theorem trans (h : sys.Quiet path m m₁) (k : sys.Quiet path m₁ m') : sys.Quiet path m m' where
  depth := k.depth.trans h.depth
  request := k.request.trans h.request
  memory := h.memory.trans k.memory
  follows := by
    obtain ⟨xs, hx, first⟩ := h.follows
    obtain ⟨ys, hy, rest⟩ := k.follows
    refine ⟨xs ++ ys, by rw [hy, hx, List.append_assoc], fun pending allowed => ?_⟩
    exact (first pending allowed).append (rest pending (allowed.trans h.memory))

end Quiet

/-! ## Each behaviour -/

/-- A reset that hands on to one child at most. -/
theorem hushed_of_one (site : Address) {B : Behaviour (Recorded μ σ) μ σ} (spec : sys.Hushed path d b)
    (shape : ∀ fire m m', B.reset d fire m = .ok () m' → m' = m ∨
      m' = m.onRuns ((Stage.recording.cell site).reset · d) ∨
      b.reset d fire (m.onRuns ((Stage.recording.cell site).reset · d)) = .ok () m') : sys.Hushed path d B := by
  intro fire m m' h
  rcases shape fire m m' h with rfl | rfl | h
  · exact .refl _
  · exact .reset m site d
  · exact (Quiet.reset m site d).trans (spec _ _ _ h)

theorem hushed_ofTick (tick : Run (Recorded μ σ) μ σ Status) : sys.Hushed path d (.ofTick tick) := by
  intro fire m m' h
  simp only [Behaviour.ofTick, Run.pure_eq_ok, true_and] at h
  exact h ▸ .refl _

theorem hushed_leaf (tick : Nat → Run (Recorded μ σ) μ σ Status) :
    sys.Hushed path d ((Stage.recording.cell site).leaf tick) := by
  intro fire m m' h
  simp only [Cell.leaf, Cell.forget_eq_ok] at h
  exact h ▸ .reset m site d

theorem hushed_started {tick : Run (Recorded μ σ) μ σ Status} (spec : sys.Hushed path d b) :
    sys.Hushed path d ⟨tick, (Stage.recording.cell site).resetStarted b⟩ := by
  refine hushed_of_one site spec fun fire m m' h => ?_
  replace h := (Cell.resetStarted_apply ..).symm.trans h
  split at h
  · exact .inr (.inr h)
  · cases h
    exact .inl rfl

theorem hushed_iteration {tick : Run (Recorded μ σ) μ σ Status} (spec : sys.Hushed path d b) :
    sys.Hushed path d ⟨tick, (Stage.recording.cell site).resetIteration b⟩ := by
  refine hushed_of_one site spec fun fire m m' h => ?_
  replace h := (Cell.resetIteration_apply ..).symm.trans h
  split at h
  · exact .inr (.inr h)
  · cases h
    exact .inr (.inl rfl)

theorem hushed_timeout {duration : Duration} (spec : sys.Hushed path d b) :
    sys.Hushed path d (.timeout (Stage.recording.cell site) duration b) := by
  refine hushed_of_one site spec fun fire m m' h => ?_
  replace h := (Behaviour.timeout_reset_apply ..).symm.trans h
  split at h
  · exact .inr (.inr h)
  · cases h
    exact .inr (.inl rfl)

theorem hushed_delay {duration : Duration} (spec : sys.Hushed path d b) :
    sys.Hushed path d (.delay (Stage.recording.cell site) duration b) := by
  refine hushed_of_one site spec fun fire m m' h => ?_
  replace h := (Behaviour.delay_reset_apply ..).symm.trans h
  split at h
  · exact .inr (.inr h)
  · cases h
    exact .inr (.inl rfl)

theorem hushed_localScope (spec : sys.Hushed path d b) :
    sys.Hushed path d (.localScope (Stage.recording.cell site) b) := by
  refine hushed_of_one site spec fun fire m m' h => ?_
  replace h := (Behaviour.localScope_reset_apply ..).symm.trans h
  split at h
  · exact .inr (.inr h)
  · cases h
    exact .inr (.inl rfl)

/-- A scope beyond the path is told that its run is abandoned. -/
theorem hushed_scope {host : Host (Recorded μ σ) μ σ} {hooks : Hooks μ σ} {child : Node μ σ}
    (hn : sys.nodeAt site = some (.scope hooks child)) (beyond : Beyond path ⟨site, d⟩) (spec : sys.Hushed path d b) :
    sys.Hushed path d (.scope (Stage.recording.cell site) host hooks b) := by
  intro fire m m' h
  replace h := (Behaviour.scope_reset_apply ..).symm.trans h
  split at h
  · rw [Run.bind_eq_ok] at h
    obtain ⟨_, m₁, abandoned, h⟩ := h
    have quiet := (Quiet.reset m site d).trans (spec _ _ _ abandoned)
    rw [Run.ite_eq_ok] at h
    rcases h with ⟨-, told⟩ | ⟨-, silent⟩
    · rw [Run.remember_eq_ok] at told
      subst told
      exact quiet.trans (.of_unwinds rfl rfl (System.Unwinds.refl.told beyond hn) rfl)
    · rw [Run.pure_eq_ok] at silent
      exact silent.2 ▸ quiet
  · cases h
    exact .refl _

theorem hushed_child {tick : Run (Recorded μ σ) μ σ Status} (specs : ∀ b ∈ bs, sys.Hushed path d b) :
    sys.Hushed path d ⟨tick, (Stage.recording.cell site).resetChild bs⟩ := by
  intro fire m m' h
  replace h := (Cell.resetChild_apply ..).symm.trans h
  split at h
  · split at h
    · rename_i i _ b hb
      exact (Quiet.reset m site d).trans (specs b (List.mem_of_getElem? hb) _ _ _ h)
    · cases h
  · cases h
    exact .reset m site d

/-- Abandoning some of the children is quiet. -/
theorem quiet_abort {fire : Bool} {tracked : List (Behaviour.Tracked (Recorded μ σ) μ σ)}
    (specs : ∀ t ∈ tracked, sys.Hushed path d t.1) (h : Behaviour.abort d fire tracked m = .ok () m') :
    sys.Quiet path m m' := by
  induction tracked generalizing m with
  | nil =>
    simp only [Behaviour.abort, Run.pure_eq_ok, true_and] at h
    exact h ▸ .refl _
  | cons first rest ih =>
    obtain ⟨b, state⟩ := first
    have later := fun n (h : Behaviour.abort d fire rest n = .ok () m') =>
      ih (fun t ht => specs t (List.mem_cons_of_mem _ ht)) h
    cases state with
    | running =>
      simp only [Behaviour.abort, Run.bind_eq_ok] at h
      obtain ⟨_, m₁, first, rest⟩ := h
      exact (specs _ (List.mem_cons_self ..) _ _ _ first).trans (later _ rest)
    | idle | finished => exact later m h

theorem hushed_tracked {tick : Run (Recorded μ σ) μ σ Status} (specs : ∀ b ∈ bs, sys.Hushed path d b) :
    sys.Hushed path d ⟨tick, Behaviour.resetTracked (Stage.recording.cell site) bs⟩ := by
  intro fire m m' h
  replace h := (Behaviour.resetTracked_apply ..).symm.trans h
  split at h
  · exact (Quiet.reset m site d).trans (quiet_abort (fun t ht => specs _ (List.of_mem_zip ht).1) h)
  · cases h
    exact .reset m site d

theorem hushed_call {resolve : Run (Recorded μ σ) μ σ (Option TreeId)} {makeState : Option (StateMaker μ σ)}
    {callee : TreeId → Callee (Recorded μ σ) μ σ} (specs : ∀ tree, sys.Hushed path (d + 1) (callee tree).root) :
    sys.Hushed path d (.call (Stage.recording.cell site) resolve makeState callee) := by
  intro fire m m' h
  replace h := (Behaviour.call_reset_apply ..).symm.trans h
  split at h
  · exact (Quiet.reset m site d).trans (specs _ _ _ _ h)
  · cases h
    exact .reset m site d

/-- The reset of a watched node is written down first. -/
theorem hushed_watch (beyond : Beyond path ⟨site, d⟩) (spec : sys.Hushed path d b) :
    sys.Hushed path d (Stage.recording.watch site b) := by
  intro fire m m' h
  rw [recording_reset] at h
  have noted : sys.Quiet path m (Recorded.add (.abandoned site d fire (Recorded.scene m)) m) :=
    ⟨rfl, rfl, .refl, _, rfl, fun _ allowed => .single (.abandoned _ beyond allowed)⟩
  exact noted.trans (spec _ _ _ h)

/-! ## Nodes and trees -/

/-- The reset of every node beyond the path is quiet. -/
theorem hushed_node (tame : sys.Tame) (links : Links (Recorded μ σ) μ σ) (cells : links.cell = Stage.recording.cell)
    (watches : links.watch = Stage.recording.watch)
    (callees : ∀ path d tree, Beyond path ⟨[tree], d⟩ → sys.Hushed path d (links.callee tree).root) (node : Node μ σ) :
    ∀ site path d, sys.nodeAt site = some node → Beyond path ⟨site, d⟩ →
      sys.Hushed path d (node.behaviour links site) := by
  intro site path d hn beyond
  induction hn using nodeAt_upward with
  | step site node hn ih =>
  have below : ∀ i (child : Node μ σ), node.children[i]? = some child →
      sys.Hushed path d (child.behaviour links (i :: site)) :=
    fun i child there => ih i child there (beyond.further (Place.above_inside ⟨site, d⟩ i))
  have among : ∀ b ∈ Node.behaviours links site 0 node.children, sys.Hushed path d b :=
    Node.forall_behaviours below
  rw [Node.behaviour.eq_def, watches]
  refine hushed_watch beyond ?_
  rw [cells]
  cases node
  case action | earlyReturn => exact hushed_ofTick _
  case custom => exact absurd (tame _ _ hn) id
  case condition | waitUntil | wait | pause => exact hushed_leaf _
  case invert child | force child | guard child | repeatUntil child => exact hushed_started (below 0 child rfl)
  case repeatTimes child | retry child => exact hushed_iteration (below 0 child rfl)
  case timeout child => exact hushed_timeout (below 0 child rfl)
  case delay child => exact hushed_delay (below 0 child rfl)
  case scope child => exact hushed_scope hn beyond (below 0 child rfl)
  case localScope child => exact hushed_localScope (below 0 child rfl)
  case sequence | selector | reactiveSequence | reactiveSelector | selectOne => exact hushed_child among
  case parallel | join | race => exact hushed_tracked among
  case call => exact hushed_call fun tree => callees _ _ _ (beyond.further (Place.above_callee ⟨site, d⟩ tree))

theorem hushed_rootOf (tame : sys.Tame) (links : Links (Recorded μ σ) μ σ) (cells : links.cell = Stage.recording.cell)
    (watches : links.watch = Stage.recording.watch)
    (callees : ∀ path d tree, Beyond path ⟨[tree], d⟩ → sys.Hushed path d (links.callee tree).root) (tree : TreeId)
    (beyond : Beyond path ⟨[tree], d⟩) : sys.Hushed path d (sys.rootOf links tree) := by
  unfold rootOf
  split
  · rename_i t ht
    exact hushed_node tame links cells watches callees t.root _ _ _ (sys.nodeAt_root ht) beyond
  · exact hushed_ofTick _

/-- The reset of a whole tree beyond the path is quiet. -/
theorem hushed_root (tame : sys.Tame) (tick : Run (Recorded μ σ) μ σ Status) (levels : Nat) :
    ∀ tree path d, Beyond path ⟨[tree], d⟩ → sys.Hushed path d ⟨tick, sys.resetRoot .recording levels tree⟩ := by
  induction levels with
  | zero =>
    intro tree path d _ fire m m' h
    simp [resetRoot] at h
  | succ levels ih =>
    intro tree path d beyond
    exact hushed_rootOf tame (sys.resetLinks .recording (sys.resetRoot .recording levels)) rfl rfl
      (fun path d tree beyond fire m m' h => ih tree path d beyond fire m m' h) tree beyond

theorem hushed_at (tame : sys.Tame) (tick : Run (Recorded μ σ) μ σ Status) (tree : TreeId)
    (beyond : Beyond path ⟨[tree], d⟩) : sys.Hushed path d ⟨tick, sys.resetAt .recording tree⟩ :=
  fun fire m m' h => hushed_root tame tick _ tree path d beyond fire m m' h

end System

end BehaviorTree
