/-
  BehaviorTree.Proofs.Rounds.Timed: nodes that add up the time, round by round.

  Each tick of a node has a delta, and a run of it has those of its ticks at this depth since the
  last one that ended a run or was followed by a reset (`running`). Such a node remembers the sum of
  these deltas, or that a sum has reached its duration once. So what its next round is like follows
  from the deltas alone (`KeepsTime`), whatever goes on between its rounds, ticks and resets of the
  node at other depths included (`Timed`).

  - A wait ends at the first sum that reaches its duration.
  - A delay ticks its child from the first such sum on, also when later sums fall short again.
  - A timeout ticks its child first. An end of the child counts, also when the time is up then.
-/

import BehaviorTree.Proofs.Elapsed
import BehaviorTree.Proofs.Minutes.Starts
import BehaviorTree.Proofs.Rounds.Choice

namespace BehaviorTree

variable {ρ μ σ : Type}

/-! ## Rounds with deltas -/

/-- A round of a node, and the delta that came with it. -/
structure Beat where
  delta : Float32
  round : Round

/-- The run of the node is over. -/
def Round.ends : Round → Bool
  | tick _ answer => answer.isTerminal
  | reset _ _ => true

/-- The deltas of the run in progress after these beats. -/
def running (beats : List Beat) : List Float32 :=
  beats.foldl (fun deltas beat => if beat.round.ends then [] else deltas ++ [beat.delta]) []

theorem running_snoc (beats : List Beat) (beat : Beat) :
    running (beats ++ [beat]) = if beat.round.ends then [] else running beats ++ [beat.delta] := by
  simp [running]

/-- A node at one depth, where it remembers nothing at first. Between its rounds all may change, but for what it
remembers there. -/
def beating (cell : Cell ρ σ) (d : Nat) (node : Behaviour (Ledger ρ) μ σ) : Going Beat (Machine (Ledger ρ) μ σ) where
  starts m := cell.get m.runs.below d = .idle
  aside m n := cell.get n.runs.below d = cell.get m.runs.below d
  step m beat n := beat.delta = m.context.delta ∧ Rounded d node m beat.round n

/-! ## Laws -/

/-- What a round may be, after these deltas of the run in progress and with this one of its own. -/
abbrev Pace := (before : List Float32) → (delta : Float32) → Round → Prop

/-- Running until a sum reaches the duration. -/
def Waits (duration : Duration) : Pace
  | before, delta, .tick dealings answer => dealings = [] ∧ ¬ duration.Passed before ∧
    (¬ duration.Reached (before ++ [delta]) ∧ answer = .running ∨
      duration.Reached (before ++ [delta]) ∧ answer = .success)
  | _, _, .reset _ dealings => dealings = []

/-- The child is ticked from the first sum on that reaches the duration. A reset resets the child if it has been
ticked. -/
def Delays (duration : Duration) (d : Nat) : Pace
  | before, delta, .tick dealings answer =>
    ¬ duration.Passed (before ++ [delta]) ∧ dealings = [] ∧ answer = .running ∨
      duration.Passed (before ++ [delta]) ∧ ∃ v : Visit, v.child = 0 ∧ dealings = [.ticked v] ∧ answer = v.status
  | before, _, .reset fire dealings =>
    ¬ duration.Passed before ∧ dealings = [] ∨ duration.Passed before ∧ dealings = [.reset 0 d fire]

/-- The child is ticked until it ends, or until it is running at the first sum that reaches the duration. It is reset
then, and by a reset. -/
def TimesOut (duration : Duration) (d : Nat) : Pace
  | before, delta, .tick dealings answer => ¬ duration.Passed before ∧ ∃ v : Visit, v.child = 0 ∧
    (v.status.isTerminal = true ∧ dealings = [.ticked v] ∧ answer = v.status ∨
      v.status = .running ∧ ¬ duration.Reached (before ++ [delta]) ∧ dealings = [.ticked v] ∧ answer = .running ∨
      v.status = .running ∧ duration.Reached (before ++ [delta]) ∧ dealings = [.ticked v, .reset 0 d true] ∧
        answer = .failure)
  | before, _, .reset fire dealings =>
    before = [] ∧ dealings = [] ∨ before ≠ [] ∧ dealings = [.reset 0 d fire]

/-- Each tick and each reset is as the deltas of the run in progress have it, and a reset ends the run. -/
structure KeepsTime (cell : Cell ρ σ) (d : Nat) (pace : Pace) (node : Behaviour (Ledger ρ) μ σ) : Prop where
  tick : ∀ beats m, (beating cell d node).Reaches beats m → m.context.depth = d → m.runs.dealings = [] →
    Settles (fun answer k => pace (running beats) m.context.delta (.tick k.runs.dealings answer)) (node.tick m)
  reset : ∀ beats fire m, (beating cell d node).Reaches beats m → m.runs.dealings = [] →
    Settles (fun _ k => pace (running beats) m.context.delta (.reset fire k.runs.dealings) ∧
      cell.get k.runs.below d = .idle) (node.reset d fire m)

/-- One tick and one reset keep to the pace and to the invariant, wherever the invariant holds of what the node
remembers. -/
structure Paces (cell : Cell ρ σ) (d : Nat) (node : Behaviour (Ledger ρ) μ σ) (inv : List Float32 → Slot σ → Prop)
    (pace : Pace) : Prop where
  start : inv [] .idle
  tick : ∀ before slot m, inv before slot → m.context.depth = d → Booked cell d slot [] m →
    Settles (fun answer k => pace before m.context.delta (.tick k.runs.dealings answer) ∧
      inv (if answer.isTerminal then [] else before ++ [m.context.delta]) (cell.get k.runs.below d)) (node.tick m)
  reset : ∀ before slot fire m, inv before slot → Booked cell d slot [] m →
    Settles (fun _ k => pace before m.context.delta (.reset fire k.runs.dealings) ∧ cell.get k.runs.below d = .idle)
      (node.reset d fire m)

namespace Paces

variable {cell : Cell ρ σ} {d : Nat} {node : Behaviour (Ledger ρ) μ σ} {inv : List Float32 → Slot σ → Prop}
  {pace : Pace} (h : Paces cell d node inv pace) {beats : List Beat} {m : Machine (Ledger ρ) μ σ}
include h

/-- Whatever the beats were, the invariant holds of the deltas of the run in progress. -/
theorem kept (reached : (beating cell d node).Reaches beats m) : inv (running beats) (cell.get m.runs.below d) := by
  refine reached.invariant (fun beats m => inv (running beats) (cell.get m.runs.below d)) (fun m idle => ?_)
    (fun beats m n kept same => ?_) fun beats m beat n kept stepped => ?_
  · rw [show cell.get m.runs.below d = .idle from idle]
    exact h.start
  · rwa [show cell.get n.runs.below d = cell.get m.runs.below d from same]
  · obtain ⟨delta, round⟩ := beat
    obtain ⟨rfl, rounded⟩ := stepped
    rw [running_snoc]
    cases rounded with
    | tick depth blank ok => exact ((h.tick _ _ m kept depth ⟨rfl, blank⟩).of_ok ok).2
    | reset blank ok =>
      have idle := ((h.reset _ _ _ m kept ⟨rfl, blank⟩).of_ok ok).2
      rw [idle]
      exact h.start

theorem keepsTime : KeepsTime cell d pace node where
  tick _ m reached depth blank := (h.tick _ _ m (h.kept reached) depth ⟨rfl, blank⟩).mono fun _ _ => And.left
  reset _ fire m reached blank := h.reset _ _ fire m (h.kept reached) ⟨rfl, blank⟩

end Paces

theorem Cell.Separates.booked {cell : Cell ρ σ} {d : Nat} (h : cell.Separates d) : cell.booked.Separates d :=
  ⟨fun l => h.set l.below, fun l => h.reset l.below⟩

/-! ## What the nodes remember -/

/-- The sum of the deltas of the run in progress, if there is one. -/
def summed (deltas : List Float32) : Slot σ := if deltas = [] then .idle else .elapsed (elapsed deltas)

theorem summed_of_ne {deltas : List Float32} (some : deltas ≠ []) :
    (summed deltas : Slot σ) = .elapsed (elapsed deltas) := if_neg some

theorem summed_snoc {deltas : List Float32} {delta : Float32} :
    (summed (deltas ++ [delta]) : Slot σ) = .elapsed (elapsed deltas + delta) := by
  rw [summed_of_ne (by simp), elapsed_snoc]

theorem summed_ne_released {deltas : List Float32} : (summed deltas : Slot σ) ≠ .released := by
  unfold summed
  split <;> nofun

theorem time_summed {deltas : List Float32} : (summed deltas : Slot σ).time = elapsed deltas := by
  unfold summed
  split
  · next none =>
    rw [none]
    rfl
  · rfl

/-- A run goes on before a sum has reached the duration. -/
def Ongoing (duration : Duration) (before : List Float32) (slot : Slot σ) : Prop :=
  slot = summed before ∧ ¬ duration.Passed before

/-- A sum has reached the duration, or it is remembered. -/
def Released (duration : Duration) (before : List Float32) (slot : Slot σ) : Prop :=
  ¬ duration.Passed before ∧ slot = summed before ∨ duration.Passed before ∧ slot = .released

theorem Ongoing.next {duration : Duration} {before : List Float32} {slot : Slot σ} {delta : Float32}
    (h : Ongoing duration before slot) (short : ¬ duration.Reached (before ++ [delta])) :
    Ongoing duration (before ++ [delta]) (.elapsed (slot.time + delta) : Slot σ) := by
  obtain ⟨rfl, early⟩ := h
  refine ⟨by rw [time_summed, summed_snoc], ?_⟩
  rw [Duration.passed_snoc]
  exact not_or_intro early short

theorem Released.start {duration : Duration} : Released duration [] (.idle : Slot σ) :=
  .inl ⟨Duration.not_passed_nil, rfl⟩

theorem Ongoing.start {duration : Duration} : Ongoing duration [] (.idle : Slot σ) := ⟨rfl, Duration.not_passed_nil⟩

theorem Ongoing.reached_iff {duration : Duration} {before : List Float32} {slot : Slot σ} {delta : Float32}
    (h : Ongoing duration before slot) :
    duration.length ≤ slot.time + delta ↔ duration.Reached (before ++ [delta]) := by
  rw [h.1, time_summed, Duration.Reached, elapsed_snoc]

namespace Behaviour

/-! ## One tick and one reset -/

section
variable {cell : Cell ρ σ} {d : Nat} {child : Behaviour ρ μ σ} {duration : Duration} {m : Machine ρ μ σ}

theorem wait_apply (depth : m.context.depth = d) : (wait cell duration).tick m =
    if duration.length ≤ (cell.get m.runs d).time + m.context.delta then .ok .success (m.onRuns (cell.reset · d))
    else .ok .running (m.onRuns (cell.set · d (.elapsed ((cell.get m.runs d).time + m.context.delta)))) := by
  subst depth
  unfold wait Cell.leaf
  dsimp only
  rw [Run.depth_bind, Cell.read_bind, Run.delta_bind]
  split <;> rfl

theorem release_released (h : cell.get m.runs d = .released) : release cell duration d m = .ok true m := by
  unfold release
  rw [Cell.read_bind, h]
  rfl

theorem release_counts (h : cell.get m.runs d ≠ .released) : release cell duration d m =
    .ok (decide (duration.length ≤ (cell.get m.runs d).time + m.context.delta)) (m.onRuns (cell.set · d
      (if duration.length ≤ (cell.get m.runs d).time + m.context.delta then .released
        else .elapsed ((cell.get m.runs d).time + m.context.delta)))) := by
  unfold release
  rw [Cell.read_bind]
  generalize cell.get m.runs d = slot at h
  cases slot with
  | released => exact absurd rfl h
  | _ =>
    dsimp only
    rw [Run.delta_bind]
    simp only [decide_eq_true_eq]
    rfl

/-- What comes of a tick of the child that the delay has let through. -/
def settleDelayed (cell : Cell ρ σ) (depth : Nat) (status : Status) : Run ρ μ σ Status := do
  if status.isTerminal then cell.forget depth
  return status

theorem delay_tick : (delay cell duration child).tick = Run.depth >>= fun depth =>
    release cell duration depth >>= fun passed =>
      if passed then child.tick >>= settleDelayed cell depth else pure .running := rfl

/-- What comes of a tick of the child when so much time has passed. -/
def settleTimed (cell : Cell ρ σ) (duration : Duration) (child : Behaviour ρ μ σ) (depth : Nat) (time : Float32)
    (status : Status) : Run ρ μ σ Status := do
  if status.isTerminal then
    cell.forget depth
    return status
  else if duration.length ≤ time then
    cell.forget depth
    child.reset depth true
    return .failure
  else
    cell.keep depth (.elapsed time)
    return .running

theorem timeout_tick : (timeout cell duration child).tick = Run.depth >>= fun depth =>
    cell.read depth >>= fun slot => Run.delta >>= fun delta =>
      child.tick >>= settleTimed cell duration child depth (slot.time + delta) := rfl

end

section
variable {cell : Cell ρ σ} {d : Nat} {child : Behaviour ρ μ σ} {duration : Duration} {before : List Float32}
  {slot : Slot σ} {m : Machine (Ledger ρ) μ σ} (holds : cell.Holds d)
include holds

theorem wait_paces : Paces cell d (wait (μ := μ) cell.booked duration) (Ongoing duration) (Waits duration) where
  start := .start
  tick before slot m ongoing depth begun := by
    rw [wait_apply depth, show cell.booked.get m.runs d = slot from begun.slot]
    split
    · next passed =>
      have forgotten := begun.reset holds
      refine .ok ⟨⟨forgotten.dealings, ongoing.2, .inr ⟨ongoing.reached_iff.mp passed, rfl⟩⟩, ?_⟩
      exact (forgotten.slot : _ = Slot.idle) ▸ .start
    · next early =>
      have short := mt ongoing.reached_iff.mpr early
      have kept := begun.set (x := .elapsed (slot.time + m.context.delta)) holds
      refine .ok ⟨⟨kept.dealings, ongoing.2, .inl ⟨short, rfl⟩⟩, ?_⟩
      rw [kept.slot]
      exact ongoing.next short
  reset before slot fire m _ begun := by
    have forgotten := begun.reset holds
    exact .ok ⟨forgotten.dealings, forgotten.slot⟩

/-- The time of the tick has been added up, unless a sum had reached the duration before. -/
theorem release_settles (h : Released duration before slot) (begun : Midway cell d slot [] m) :
    Settles (fun passed k => (passed = true ↔ duration.Passed (before ++ [m.context.delta])) ∧
        ∃ slot, Released duration (before ++ [m.context.delta]) slot ∧ Midway cell d slot [] k)
      (release cell.booked duration d m) := by
  have slot_eq : cell.booked.get m.runs d = slot := begun.slot
  rcases h with ⟨early, rfl⟩ | ⟨passed, rfl⟩
  · have reached_iff : duration.length ≤ (summed before : Slot σ).time + m.context.delta ↔
        duration.Passed (before ++ [m.context.delta]) := by
      rw [Ongoing.reached_iff ⟨rfl, early⟩, Duration.passed_snoc, or_iff_right early]
    rw [release_counts (slot_eq ▸ summed_ne_released), slot_eq]
    have kept (x : Slot σ) : Midway cell d x [] (m.onRuns (cell.booked.set · d x)) :=
      ⟨begun.toBooked.set holds, begun.depth⟩
    refine .ok ⟨decide_eq_true_iff.trans reached_iff, _, ?_, kept _⟩
    split
    · next reached => exact .inr ⟨reached_iff.mp reached, rfl⟩
    · next short => exact .inl ⟨mt reached_iff.mpr short, by rw [time_summed, summed_snoc]⟩
  · rw [release_released slot_eq]
    have still : duration.Passed (before ++ [m.context.delta]) := Duration.passed_snoc.mpr (.inl passed)
    exact .ok ⟨iff_of_true rfl still, _, .inr ⟨still, rfl⟩, begun⟩

/-- The child is ticked if the delay is over. -/
theorem delay_paces (apart : child.Apart cell d) :
    Paces cell d (delay cell.booked duration (child.booked 0)) (Released duration) (Delays duration d) where
  start := .start
  tick before slot m released depth begun := by
    rw [delay_tick, Run.depth_bind, depth]
    have ready : Midway cell d slot [] m := ⟨begun, depth⟩
    refine (release_settles holds released ready).bind fun passed k came => ?_
    obtain ⟨passed_iff, slot, released, came⟩ := came
    cases passed with
    | false =>
      have early : ¬ duration.Passed (before ++ [m.context.delta]) := fun late => nomatch passed_iff.mpr late
      refine .ok ⟨.inl ⟨early, came.dealings, rfl⟩, ?_⟩
      rw [came.slot]
      exact released
    | true =>
      have late := passed_iff.mp rfl
      refine (came.ticks apart 0).bind fun status n came => ?_
      obtain ⟨v, first, rfl, -, came⟩ := came
      unfold settleDelayed
      split
      · next terminal =>
        have forgotten := came.toBooked.reset holds
        refine .ok ⟨.inr ⟨late, v, first, forgotten.dealings, rfl⟩, ?_⟩
        rw [if_pos terminal]
        exact (forgotten.slot : _ = Slot.idle) ▸ .start
      · next goes =>
        refine .ok ⟨.inr ⟨late, v, first, came.dealings, rfl⟩, ?_⟩
        rw [if_neg goes, came.slot]
        exact released
  reset before slot fire m released begun := by
    rw [delay_reset_apply, show cell.booked.get m.runs d = slot from begun.slot]
    have forgotten := begun.reset holds
    rcases released with ⟨early, rfl⟩ | ⟨passed, rfl⟩
    · rcases eq_or_ne before [] with rfl | some
      · exact .ok ⟨.inl ⟨early, forgotten.dealings⟩, forgotten.slot⟩
      · rw [summed_of_ne some]
        exact .ok ⟨.inl ⟨early, forgotten.dealings⟩, forgotten.slot⟩
    · exact (forgotten.resets apart 0 fire).mono fun _ _ came => ⟨.inr ⟨passed, came.dealings⟩, came.slot⟩

/-- The child has been ticked. If it goes on when the time is up, it is reset. -/
theorem settleTimed_settles (apart : child.Apart cell d) {v : Visit} {delta : Float32} (first : v.child = 0)
    (ongoing : Ongoing duration before slot) (came : Booked cell d slot [.ticked v] m) :
    Settles (fun answer k => TimesOut duration d before delta (.tick k.runs.dealings answer) ∧
        Ongoing duration (if answer.isTerminal then [] else before ++ [delta]) (cell.get k.runs.below d))
      (settleTimed cell.booked duration (child.booked 0) d (slot.time + delta) v.status m) := by
  unfold settleTimed
  have forgotten := came.reset holds
  split
  · next terminal =>
    refine .ok ⟨⟨ongoing.2, v, first, .inl ⟨terminal, forgotten.dealings, rfl⟩⟩, ?_⟩
    rw [if_pos terminal]
    exact (forgotten.slot : _ = Slot.idle) ▸ .start
  next goes =>
  have running : v.status = .running := by simpa [Status.isTerminal_iff] using goes
  split
  · next up =>
    have reached := ongoing.reached_iff.mp up
    have forgets : Settles (fun _ k => Booked cell d .idle [.ticked v] k) (cell.booked.forget d m) := .ok forgotten
    refine forgets.bind fun _ k came => (came.resets apart 0 true).bind fun _ k came => ?_
    refine .ok ⟨⟨ongoing.2, v, first, .inr (.inr ⟨running, reached, came.dealings, rfl⟩)⟩, ?_⟩
    exact (came.slot : _ = Slot.idle) ▸ .start
  · next early =>
    have short := mt ongoing.reached_iff.mpr early
    have kept := came.set (x := .elapsed (slot.time + delta)) holds
    refine .ok ⟨⟨ongoing.2, v, first, .inr (.inl ⟨running, short, kept.dealings, rfl⟩)⟩, ?_⟩
    have next := ongoing.next short
    rw [← kept.slot] at next
    exact next

theorem timeout_paces (apart : child.Apart cell d) :
    Paces cell d (timeout cell.booked duration (child.booked 0)) (Ongoing duration) (TimesOut duration d) where
  start := .start
  tick before slot m ongoing depth begun := by
    rw [timeout_tick, Run.depth_bind, depth, Cell.read_bind, Run.delta_bind,
      show cell.booked.get m.runs d = slot from begun.slot]
    have ready : Midway cell d slot [] m := ⟨begun, depth⟩
    refine (ready.ticks apart 0).bind fun status n came => ?_
    obtain ⟨v, first, rfl, -, came⟩ := came
    exact settleTimed_settles holds apart first ongoing came.toBooked
  reset before slot fire m ongoing begun := by
    rw [timeout_reset_apply, show cell.booked.get m.runs d = slot from begun.slot, ongoing.1]
    have forgotten := begun.reset holds
    rcases eq_or_ne before [] with rfl | some
    · exact .ok ⟨.inl ⟨rfl, forgotten.dealings⟩, forgotten.slot⟩
    · rw [summed_of_ne some]
      exact (forgotten.resets apart 0 fire).mono fun _ _ came => ⟨.inr ⟨some, came.dealings⟩, came.slot⟩

end

/-! ## At other depths -/

theorem Avoids.booked {cell : Cell ρ σ} {d e number : Nat} {child : Behaviour ρ μ σ} (avoids : child.Avoids cell d e) :
    (child.booked number).Avoids cell.booked d e where
  tick m answer n depth ticked := by
    change Run.booked number _ child.tick m = _ at ticked
    unfold Run.booked at ticked
    split at ticked
    · next ran =>
      cases ticked
      exact avoids.tick _ _ _ depth ran
    · cases ticked
  reset fire m n ended := by
    change Run.booked number _ (child.reset e fire) m = _ at ended
    unfold Run.booked at ended
    split at ended
    · next ran =>
      cases ended
      exact avoids.reset fire _ _ ran
    · cases ended

section
variable {cell : Cell ρ σ} {d e : Nat} {child : Behaviour ρ μ σ} {duration : Duration} (separates : cell.Separates d)
  (other : e ≠ d)
include separates other

theorem wait_aside : (wait (μ := μ) cell duration).Aside cell d e where
  tick m answer n depth ticked := by
    subst depth
    rcases wait_ok ticked with ⟨-, rfl⟩ | ⟨-, _, rfl⟩
    · exact separates.reset _ _ other
    · exact separates.set _ _ _ other
  reset _ _ _ := leaf_reset_aside separates other

theorem delay_aside (avoids : child.Avoids cell d e) : (delay cell duration child).Aside cell d e where
  tick m answer n depth ticked := by
    subst depth
    have released {passed : Bool} {k : Machine ρ μ σ} (h : release cell duration m.context.depth m = .ok passed k) :
        k.context.depth = m.context.depth ∧ cell.get k.runs d = cell.get m.runs d := by
      rcases release_ok h with ⟨-, -, rfl⟩ | ⟨-, _, rfl⟩
      · exact ⟨rfl, rfl⟩
      · exact ⟨rfl, separates.set _ _ _ other⟩
    rcases delay_ok ticked with ⟨early, -⟩ | ⟨k, k', late, inner, outcome⟩
    · exact (released early).2
    · obtain ⟨-, slot⟩ := avoids.tick k answer k' (released late).1 inner
      refine Eq.trans ?_ (slot.trans (released late).2)
      rcases outcome with ⟨-, rfl⟩ | ⟨-, rfl⟩
      · exact separates.reset _ _ other
      · rfl
  reset fire m n ended := by
    rw [delay_reset_apply] at ended
    split at ended
    · exact (avoids.reset fire _ n ended).trans (separates.reset _ _ other)
    · cases ended
      exact separates.reset _ _ other

theorem timeout_aside (avoids : child.Avoids cell d e) : (timeout cell duration child).Aside cell d e where
  tick m answer n depth ticked := by
    obtain ⟨status, k, inner, outcome⟩ := timeout_ok ticked
    subst depth
    refine Eq.trans ?_ (avoids.tick m status k rfl inner).2
    rcases outcome with ⟨-, -, rfl⟩ | ⟨-, -, ended⟩ | ⟨-, -, _, rfl⟩
    · exact separates.reset _ _ other
    · exact (avoids.reset true _ n ended).trans (separates.reset _ _ other)
    · exact separates.set _ _ _ other
  reset fire m n ended := by
    rw [timeout_reset_apply] at ended
    split at ended
    · exact (avoids.reset fire _ n ended).trans (separates.reset _ _ other)
    · cases ended
      exact separates.reset _ _ other

end

/-- The node keeps time at depth `d` by its ticks there, wherever else it is ticked and reset. It is enough that its
parts leave alone what it remembers there. -/
structure Timed (cell : Cell ρ σ) (d : Nat) (pace : Pace) (apart : (depth : Nat) → Prop)
    (node : Behaviour (Ledger ρ) μ σ) : Prop where
  here : apart d → KeepsTime cell d pace node
  elsewhere : ∀ e, e ≠ d → apart e → node.Aside cell.booked d e

theorem Timed.mono {cell : Cell ρ σ} {d : Nat} {pace : Pace} {apart apart' : (depth : Nat) → Prop}
    {node : Behaviour (Ledger ρ) μ σ} (h : Timed cell d pace apart node) (enough : ∀ e, apart' e → apart e) :
    Timed cell d pace apart' node :=
  ⟨fun here => h.here (enough d here), fun e other there => h.elsewhere e other (enough e there)⟩

section
variable {cell : Cell ρ σ} {d : Nat} (holds : cell.Holds d) (separates : cell.Separates d) (duration : Duration)
include holds separates

theorem wait_timed : Timed cell d (Waits duration) (fun _ => True) (wait (μ := μ) cell.booked duration) where
  here _ := (wait_paces holds).keepsTime
  elsewhere _ other _ := wait_aside separates.booked other

theorem delay_timed (child : Behaviour ρ μ σ) :
    Timed cell d (Delays duration d) (child.Avoids cell d) (delay cell.booked duration (child.booked 0)) where
  here avoids := (delay_paces holds ⟨avoids.tick, avoids.reset⟩).keepsTime
  elsewhere _ other avoids := delay_aside separates.booked other avoids.booked

theorem timeout_timed (child : Behaviour ρ μ σ) :
    Timed cell d (TimesOut duration d) (child.Avoids cell d) (timeout cell.booked duration (child.booked 0)) where
  here avoids := (timeout_paces holds ⟨avoids.tick, avoids.reset⟩).keepsTime
  elsewhere _ other avoids := timeout_aside separates.booked other avoids.booked

end

/-! ## The sum of the deltas decides -/

/-- With every duration and every child, and at every depth for itself, these nodes go by the sums of the deltas of the
run in progress. A wait is running until a sum reaches the duration, and succeeds then. A delay does not tick its child
before a sum has reached the duration, ticks it from then on, and answers what it answers. A timeout ticks its child
every time; it answers an end of the child, also if the time is up, and else fails at the first sum that reaches the
duration, and resets the child. The next run starts from zero, and what the node does at other depths adds nothing. -/
theorem timed_nodes_keep_time (cell : Cell ρ σ) (d : Nat) (holds : cell.Holds d) (separates : cell.Separates d)
    (duration : Duration) :
    Timed cell d (Waits duration) (fun _ => True) (wait (μ := μ) cell.booked duration) ∧
      ∀ child : Behaviour ρ μ σ,
        Timed cell d (Delays duration d) (child.Avoids cell d) (delay cell.booked duration (child.booked 0)) ∧
          Timed cell d (TimesOut duration d) (child.Avoids cell d) (timeout cell.booked duration (child.booked 0)) :=
  ⟨wait_timed holds separates duration,
    fun child => ⟨delay_timed holds separates duration child, timeout_timed holds separates duration child⟩⟩

/-! ## Runs of single nodes -/

/-- One tick of the node, or one reset, and its beat. -/
abbrev beatOf (node : Behaviour (Ledger ρ) μ σ) (d : Nat) :
    Machine (Ledger ρ) μ σ → Option Bool → Option (Beat × Machine (Ledger ρ) μ σ) :=
  node.telling d (fun m answer n => ⟨m.context.delta, .tick n.runs.dealings answer⟩)
    fun m fire n => ⟨m.context.delta, .reset fire n.runs.dealings⟩

/-- One after the other, with a blank ledger for each. -/
def beats (node : Behaviour (Ledger ρ) μ σ) (d : Nat) (m : Machine (Ledger ρ) μ σ) (uses : List (Option Bool)) :
    Option (List Beat) :=
  Going.played (node.beatOf d) (fun n => n.withRuns { n.runs with dealings := [] }) m uses

theorem beats_reaches {cell : Cell ρ σ} {node : Behaviour (Ledger ρ) μ σ} {d : Nat} {m : Machine (Ledger ρ) μ σ}
    {uses : List (Option Bool)} {told : List Beat} (idle : cell.get m.runs.below d = .idle)
    (blank : m.runs.dealings = []) (h : node.beats d m uses = some told) :
    ∃ n, (beating cell d node).Reaches told n := by
  refine Going.Reaches.played (fun m => m.runs.dealings = []) ?_ ?_ ?_ (.start idle) blank h
  · exact fun _ _ _ _ blank told =>
      telling_steps (fun _ _ depth ok => ⟨rfl, .tick depth blank ok⟩) (fun _ _ ok => ⟨rfl, .reset blank ok⟩) told
  · exact fun _ => rfl
  · exact fun _ => rfl

/-- Nothing has run yet, each tick takes one, and this is what the child is to answer. -/
def clocked (script : List (Status × Bool)) :
    Machine (Ledger (DepthSlots (Slot Unit))) (List (Status × Bool)) Unit :=
  ⟨{ delta := 1 }, script, ⟨{}, []⟩, #[], #[]⟩

def soloWait : Behaviour (Ledger (DepthSlots (Slot Unit))) (List (Status × Bool)) Unit :=
  wait Cell.alone.booked .oneAndAHalf

def soloDelay : Behaviour (Ledger (DepthSlots (Slot Unit))) (List (Status × Bool)) Unit :=
  delay Cell.alone.booked .oneAndAHalf (obedient.booked 0)

def soloTimeout : Behaviour (Ledger (DepthSlots (Slot Unit))) (List (Status × Bool)) Unit :=
  timeout Cell.alone.booked .oneAndAHalf (obedient.booked 0)

/-- Five ticks and a reset. -/
def resetAtLast : List (Option Bool) := [none, none, none, none, none, some true]

/-- The child has answered so. -/
def answered (status : Status) : Dealing := .ticked ⟨0, status, false⟩

/-- A wait is over at each second tick. A delay puts the child off in each first one. A timeout gives up on a child that
goes on in the second tick, and not on one that ends then. -/
theorem solo_keeps_time :
    (∃ told m, (beating Cell.alone 0 soloWait).Reaches told m ∧
        told.map Beat.round = [.tick [] .running, .tick [] .success, .tick [] .running, .tick [] .success,
          .tick [] .running, .reset true []] ∧ KeepsTime Cell.alone 0 (Waits .oneAndAHalf) soloWait) ∧
      (∃ told m, (beating Cell.alone 0 soloDelay).Reaches told m ∧
        told.map Beat.round = [.tick [] .running, .tick [answered .running] .running,
          .tick [answered .success] .success, .tick [] .running, .tick [answered .running] .running,
          .reset true [.reset 0 0 true]] ∧ KeepsTime Cell.alone 0 (Delays .oneAndAHalf 0) soloDelay) ∧
      ∃ told m, (beating Cell.alone 0 soloTimeout).Reaches told m ∧
        told.map Beat.round = [.tick [answered .running] .running,
          .tick [answered .running, .reset 0 0 true] .failure, .tick [answered .running] .running,
          .tick [answered .success] .success, .tick [answered .running] .running, .reset true [.reset 0 0 true]] ∧
        KeepsTime Cell.alone 0 (TimesOut .oneAndAHalf 0) soloTimeout := by
  have timed := timed_nodes_keep_time (μ := List (Status × Bool)) (Cell.alone : Cell (DepthSlots (Slot Unit)) Unit) 0
    Cell.alone_holds Cell.alone_separates .oneAndAHalf
  have lived {node : Behaviour (Ledger (DepthSlots (Slot Unit))) (List (Status × Bool)) Unit} {rounds : List Round}
      {keeps : Prop} (script : List (Status × Bool)) (holds : keeps)
      (ran : (node.beats 0 (clocked script) resetAtLast).map (·.map Beat.round) = some rounds) :
      ∃ told m, (beating Cell.alone 0 node).Reaches told m ∧ told.map Beat.round = rounds ∧ keeps := by
    obtain ⟨told, made, same⟩ := Option.map_eq_some_iff.mp ran
    have idle : Cell.alone.get (clocked script).runs.below 0 = .idle := DepthSlots.get_empty 0
    obtain ⟨m, reached⟩ := beats_reaches idle rfl made
    exact ⟨told, m, reached, same, holds⟩
  refine ⟨?_, ?_, ?_⟩
  · exact lived [] (timed.1.here trivial) (by decide +kernel)
  · exact lived [(.running, false), (.success, false), (.running, false)]
      ((timed.2 obedient).1.here obedient_avoids) (by decide +kernel)
  · exact lived [(.running, false), (.running, false), (.running, false), (.success, false), (.running, false)]
      ((timed.2 obedient).2.here obedient_avoids) (by decide +kernel)

/-! ## Without the ledger -/

/-- With a ledger, the nodes do what they do without one. -/
theorem timed_booking {child : Behaviour ρ μ σ} (level : child.Level) (cell : Cell ρ σ) (duration : Duration) :
    Booking (wait (μ := μ) cell duration) (wait cell.booked duration) ∧
      Booking (delay cell duration child) (delay cell.booked duration (child.booked 0)) ∧
      Booking (timeout cell duration child) (timeout cell.booked duration (child.booked 0)) := by
  have cells := cell.booked_cells
  have both : LockedAll Ledger.Fine (fun _ => Ledger.Beside) [child] [child.booked 0] :=
    locked_bookedFrom (by simpa using level) 0
  have locked := (List.forall₂_cons.mp both).1
  exact ⟨.of_lock (wait_lock cells) (leaf_reset_lock cells fun _ _ _ same => same),
    .of_lock (delay_lock cells locked) (delay_reset_lock cells (fun _ _ _ same => same) locked),
    .of_lock (timeout_lock cells locked) (timeout_reset_lock cells (fun _ _ _ same => same) locked)⟩

end Behaviour

/-! ## Nodes of a system -/

/-- In a tick in progress, the nodes of a system go by the sums of the deltas at each depth from this one on, and
neither ticks nor resets at greater depths count. -/
theorem System.node_keeps_time (sys : System μ σ) (aloof : sys.Aloof) (host : Host (Store σ) μ σ) (levels : Nat)
    {site : Address} {node : Node μ σ} (here : sys.nodeAt site = some node) (d : Nat) :
    let links := sys.tickLinks .plain host (sys.tickRoot .plain host levels)
    match node with
    | .wait duration => Behaviour.Timed (Store.cell site) d (Waits duration) (d ≤ ·)
        (Behaviour.wait (μ := μ) (Store.cell (σ := σ) site).booked duration)
    | .delay duration child => Behaviour.Timed (Store.cell site) d (Delays duration d) (d ≤ ·)
        (Behaviour.delay (Store.cell site).booked duration ((child.behaviour links (0 :: site)).booked 0))
    | .timeout duration child => Behaviour.Timed (Store.cell site) d (TimesOut duration d) (d ≤ ·)
        (Behaviour.timeout (Store.cell site).booked duration ((child.behaviour links (0 :: site)).booked 0))
    | _ => True := by
  cases node with
  | wait duration =>
    exact (Behaviour.wait_timed Store.cell_holds Store.cell_separates duration).mono fun _ _ => trivial
  | delay duration child =>
    exact (Behaviour.delay_timed Store.cell_holds Store.cell_separates duration _).mono fun e deeper =>
      child_avoids sys aloof host levels (sys.nodeAt_child here rfl) deeper
  | timeout duration child =>
    exact (Behaviour.timeout_timed Store.cell_holds Store.cell_separates duration _).mono fun e deeper =>
      child_avoids sys aloof host levels (sys.nodeAt_child here rfl) deeper
  | _ => trivial

end BehaviorTree
