/-
  BehaviorTree.Proofs.Returns.Goes: the ticks of nodes, seen in a recorded history.

  A tick starts without a pending request. Each behaviour looks for a request after every
  tick of a child and ticks no other child then, so its history goes on along the path
  (`Heeds`). A scope alone takes the request away, and is told its verdict (`heeds_scope`).
-/

import BehaviorTree.Proofs.Returns.Quiet

namespace BehaviorTree

variable {μ σ : Type}

namespace System

variable (sys : System μ σ)

/-- The history goes on along the path, up to a request that may be pending then. -/
structure Goes (path : List Place) (m m' : Machine (Recorded μ σ) μ σ) : Prop where
  depth : m'.context.depth = m.context.depth
  follows : ∃ xs pending, m'.runs.history = m.runs.history ++ xs ∧ sys.Follows ⟨path, none⟩ xs ⟨path, pending⟩ ∧
    m'.context.returnRequest = pending.map (·.verdict.status) ∧ sys.Allows path pending m'.memory

/-- Ticked at this depth without a pending request, it goes on along the path. -/
def Heeds (path : List Place) (depth : Nat) (b : Behaviour (Recorded μ σ) μ σ) : Prop :=
  ∀ m st m', m.context.depth = depth → m.context.returnRequest = none → b.tick m = .ok st m' → sys.Goes path m m'

end System

/-- A step of a node on its own: callbacks may run. -/
structure Machine.Free (m m' : Machine (Recorded μ σ) μ σ) : Prop where
  depth : m'.context.depth = m.context.depth
  history : m'.runs.history = m.runs.history
  calm : m.context.returnRequest = none → m'.context.returnRequest = none

namespace Machine.Free

variable {m m₁ m' : Machine (Recorded μ σ) μ σ}

theorem of_stays (h : m.Stays False m') : m.Free m' := ⟨h.depth, by rw [h.runs], h.calm⟩

theorem of_alike (h : m.Alike m') : m.Free m' := .of_stays (.of_alike h)

theorem withMemory (m : Machine (Recorded μ σ) μ σ) (x : μ) : m.Free (m.withMemory x) := ⟨rfl, rfl, id⟩

theorem set (m : Machine (Recorded μ σ) μ σ) (site : Address) (d : Nat) (slot : Slot σ) :
    m.Free (m.onRuns ((Stage.recording.cell site : Cell (Recorded μ σ) σ).set · d slot)) := ⟨rfl, rfl, id⟩

theorem reset (m : Machine (Recorded μ σ) μ σ) (site : Address) (d : Nat) :
    m.Free (m.onRuns ((Stage.recording.cell site : Cell (Recorded μ σ) σ).reset · d)) := ⟨rfl, rfl, id⟩

theorem trans (h : m.Free m₁) (k : m₁.Free m') : m.Free m' :=
  ⟨k.depth.trans h.depth, k.history.trans h.history, k.calm ∘ h.calm⟩

end Machine.Free

namespace System

open Machine (Free)

variable {sys : System μ σ} {path : List Place} {site : Address} {d : Nat} {st : Status}
  {m m₀ m₁ m' : Machine (Recorded μ σ) μ σ} {b B : Behaviour (Recorded μ σ) μ σ}
  {bs : List (Behaviour (Recorded μ σ) μ σ)}

namespace Goes

theorem of_free (calm : m.context.returnRequest = none) (h : m.Free m') : sys.Goes path m m' :=
  ⟨h.depth, [], none, by simp [h.history], .nil _, h.calm calm, Allows.none _ _⟩

/-- As long as no request is pending, the next step may follow. -/
theorem andThen (h : sys.Goes path m m₁) (calm : m₁.context.returnRequest = none) (k : sys.Goes path m₁ m') :
    sys.Goes path m m' where
  depth := k.depth.trans h.depth
  follows := by
    obtain ⟨xs, pending, hx, first, request, -⟩ := h.follows
    obtain ⟨ys, pending', hy, rest, request', allowed⟩ := k.follows
    obtain rfl : pending = none := Option.map_eq_none_iff.mp (request.symm.trans calm)
    exact ⟨xs ++ ys, pending', by rw [hy, hx, List.append_assoc], first.append rest, request', allowed⟩

theorem after_free (calm : m.context.returnRequest = none) (h : m.Free m₁) (k : sys.Goes path m₁ m') :
    sys.Goes path m m' := (of_free calm h).andThen (h.calm calm) k

/-- Whether or not a request is pending, a quiet stretch may follow. -/
theorem quiet (h : sys.Goes path m m₁) (k : sys.Quiet path m₁ m') : sys.Goes path m m' where
  depth := k.depth.trans h.depth
  follows := by
    obtain ⟨xs, pending, hx, first, request, allowed⟩ := h.follows
    obtain ⟨ys, hy, rest⟩ := k.follows
    exact ⟨xs ++ ys, pending, by rw [hy, hx, List.append_assoc], first.append (rest pending allowed),
      k.request.trans request, allowed.trans k.memory⟩

theorem set (h : sys.Goes path m m₁) (site : Address) (d : Nat) (slot : Slot σ) :
    sys.Goes path m (m₁.onRuns ((Stage.recording.cell site : Cell (Recorded μ σ) σ).set · d slot)) :=
  h.quiet (.set ..)

theorem reset (h : sys.Goes path m m₁) (site : Address) (d : Nat) :
    sys.Goes path m (m₁.onRuns ((Stage.recording.cell site : Cell (Recorded μ σ) σ).reset · d)) :=
  h.quiet (.reset ..)

end Goes

/-! ## Leaves and nodes with one child -/

/-- A node that runs callbacks and ticks nothing. -/
theorem heeds_free (free : ∀ m st m', B.tick m = .ok st m' → m.Free m') : sys.Heeds path d B :=
  fun m st m' _ calm h => .of_free calm (free m st m' h)

theorem heeds_action {host : Host (Recorded μ σ) μ σ} {body : Callback μ σ Status} (tame : body.Tame) :
    sys.Heeds path d (.action host body) :=
  heeds_free fun _ _ _ h => .of_stays (tame.stays h)

theorem heeds_condition {holds : Predicate μ σ} {every : Duration} :
    sys.Heeds path d (.condition (Stage.recording.cell site) holds every) := by
  refine heeds_free fun m st m' h => ?_
  obtain ⟨-, x, rfl | ⟨slot, rfl⟩⟩ := Behaviour.condition_ok h
  · exact .withMemory m x
  · exact (Free.withMemory m x).trans (.set ..)

theorem heeds_timed (holds : Behaviour.HoldsWhileRunning (Stage.recording.cell site) B) : sys.Heeds path d B := by
  refine heeds_free fun m st m' h => ?_
  obtain ⟨x, ⟨-, rfl⟩ | ⟨-, slot, rfl⟩⟩ := holds m st m' h
  · exact (Free.withMemory m x).trans (.reset ..)
  · exact (Free.withMemory m x).trans (.set ..)

theorem heeds_noted (spec : sys.Heeds path d b) (notes : Behaviour.NotesChild (Stage.recording.cell site) b B) :
    sys.Heeds path d B := by
  intro m st m' hd calm h
  rcases notes m st m' h with ⟨-, -, x, rfl⟩ | ⟨x, s, m₁, e, ticked, -, rfl, -⟩
  · exact .of_free calm (.withMemory m x)
  · exact (Goes.after_free calm (.withMemory m x) (spec _ _ _ hd calm ticked)).set ..

theorem heeds_iterate {goOn : Verdict} {spent : UInt32 → Bool} (spec : sys.Heeds path d b) :
    sys.Heeds path d (.iterate (Stage.recording.cell site) goOn spent b) := by
  intro m st m' hd calm h
  obtain ⟨s, m₁, ticked, ⟨-, -, rfl⟩ | ⟨-, -, n, rfl⟩⟩ := Behaviour.iterate_ok h
  · exact (spec _ _ _ hd calm ticked).reset ..
  · exact (spec _ _ _ hd calm ticked).set ..

theorem heeds_timeout {duration : Duration} (spec : sys.Heeds path d b) (hush : sys.Hushed path d b) :
    sys.Heeds path d (.timeout (Stage.recording.cell site) duration b) := by
  intro m st m' hd calm h
  obtain ⟨s, m₁, ticked, outcome⟩ := Behaviour.timeout_ok h
  have goes := spec _ _ _ hd calm ticked
  rcases outcome with ⟨-, -, rfl⟩ | ⟨-, -, abandoned⟩ | ⟨-, -, t, rfl⟩
  · exact goes.reset ..
  · exact (goes.reset ..).quiet (hush _ _ _ (hd ▸ abandoned))
  · exact goes.set ..

theorem heeds_delay {duration : Duration} (spec : sys.Heeds path d b) :
    sys.Heeds path d (.delay (Stage.recording.cell site) duration b) := by
  intro m st m' hd calm h
  have released : ∀ {r n}, Behaviour.release (Stage.recording.cell site) duration m.context.depth m = .ok r n →
      m.Free n := by
    intro r n h
    rcases Behaviour.release_ok h with ⟨-, -, rfl⟩ | ⟨-, t, rfl⟩
    · exact .of_stays (.refl _)
    · exact .set ..
  obtain ⟨release, -⟩ | ⟨m₀, m₁, release, ticked, outcome⟩ := Behaviour.delay_ok h
  · exact .of_free calm (released release)
  · have free := released release
    have goes := Goes.after_free calm free (spec _ _ _ (free.depth.trans hd) (free.calm calm) ticked)
    rcases outcome with ⟨-, rfl⟩ | ⟨-, rfl⟩
    · exact goes.reset ..
    · exact goes

theorem heeds_localScope (spec : sys.Heeds path d b) :
    sys.Heeds path d (.localScope (Stage.recording.cell site) b) := by
  intro m st m' hd calm h
  obtain ⟨m₀, m₁, m₂, before, ticked, after, outcome⟩ := Behaviour.localScope_ok h
  have free : m.Free m₀ := (Free.reset m site _).trans (.of_alike before)
  have goes := (Goes.after_free calm free (spec _ _ _ (free.depth.trans hd) (free.calm calm) ticked)).quiet
    (.of_alike after)
  rcases outcome with ⟨-, overlay, rfl⟩ | ⟨-, rfl⟩
  · exact goes.set ..
  · exact goes

end System

end BehaviorTree
