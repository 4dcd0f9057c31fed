/-
  BehaviorTree.Proofs.Rounds: a node and its children at one call depth, round by round.

  The children are behaviours of which only the parent's view is known. What a node has to do
  with a child is entered in a ledger together with the child's answer (`Behaviour.booked`). The
  node does not see the ledger: it does the same without one (`Behaviour.booking`).

  A round is one tick or one reset of the node at the depth. Between rounds anything may happen
  that leaves alone what the node remembers there, ticks and resets at other depths included
  (`Lived`). So the node's slots may lie anywhere in the run states, and a child may come back to
  the same node at another depth.

  A law of a node says what the next round is like after any rounds. It follows from what one
  tick and one reset do (`Abides`): they end, unless a child breaks them off (`Settles`), keep the
  invariant, and make a round that the law allows.
-/

import Mathlib.Data.List.Induction
import BehaviorTree.Proofs.Duality
import BehaviorTree.Proofs.Lockstep.Resets
import BehaviorTree.Proofs.SlotFrame

namespace BehaviorTree

variable {κ ρ μ σ α β : Type}

/-! ## What a node has to do with its children -/

/-- One tick of a child: what it answered, and whether a return was requested then. -/
structure Visit where
  child : Nat
  status : Status
  asked : Bool
  deriving DecidableEq

/-- The visit is the last of its pass: a return was requested, or the answer stops it. -/
def Visit.Stops (stop : Status → Bool) (v : Visit) : Prop := v.asked = true ∨ stop v.status = true

theorem Visit.not_stops {v : Visit} {pass : Status} :
    ¬ v.Stops (· ≠ pass) ↔ v.asked = false ∧ v.status = pass := by simp [Stops]

/-- What a node has to do with one of its children. -/
inductive Dealing where
  | ticked (visit : Visit)
  | reset (child depth : Nat) (fire : Bool)
  /-- A tick or a reset of the child was broken off. -/
  | failed (child : Nat)
  deriving DecidableEq

/-- Run states, and beside them what a node has had to do with its children. -/
structure Ledger (ρ : Type) where
  below : ρ
  dealings : List Dealing := []

/-- A child has just broken off. -/
def Ledger.Failed (l : Ledger ρ) : Prop := ∃ child, l.dealings.getLast? = some (.failed child)

/-- Work of a child, which knows nothing of the ledger. It is entered when it is over. -/
def Run.booked (number : Nat) (entry : α → Machine ρ μ σ → Dealing) (work : Run ρ μ σ α) : Run (Ledger ρ) μ σ α :=
  fun m => match work (m.withRuns m.runs.below) with
    | .ok x n => .ok x (n.withRuns ⟨n.runs, m.runs.dealings ++ [entry x n]⟩)
    | .error fault n => .error fault (n.withRuns ⟨n.runs, m.runs.dealings ++ [.failed number]⟩)

namespace Behaviour

/-- The child with this number. -/
def booked (number : Nat) (child : Behaviour ρ μ σ) : Behaviour (Ledger ρ) μ σ where
  tick := child.tick.booked number fun status n => .ticked ⟨number, status, n.context.returnRequest.isSome⟩
  reset depth fire := (child.reset depth fire).booked number fun _ _ => .reset number depth fire

/-- The children in their order, numbered from `first` on. -/
def bookedFrom : (first : Nat) → List (Behaviour ρ μ σ) → List (Behaviour (Ledger ρ) μ σ)
  | _, [] => []
  | first, child :: rest => child.booked first :: bookedFrom (first + 1) rest

/-- The children in their order. -/
abbrev bookedAll (children : List (Behaviour ρ μ σ)) : List (Behaviour (Ledger ρ) μ σ) := bookedFrom 0 children

theorem length_bookedFrom {first : Nat} {children : List (Behaviour ρ μ σ)} :
    (bookedFrom first children).length = children.length := by
  induction children generalizing first with
  | nil => rfl
  | cons child rest ih => simp [bookedFrom, ih]

/-- The child leaves alone what the node remembers at this depth, and its ticks end at the depth at which they started.
It has no access to that memory, but by ticks or resets of the node itself at this depth. -/
structure Apart (cell : Cell ρ σ) (d : Nat) (child : Behaviour ρ μ σ) : Prop where
  tick : ∀ m status n, m.context.depth = d → child.tick m = .ok status n →
    n.context.depth = d ∧ cell.get n.runs d = cell.get m.runs d
  reset : ∀ fire m n, child.reset d fire m = .ok () n → cell.get n.runs d = cell.get m.runs d

end Behaviour

namespace Cell

/-- The slots, beside the ledger. -/
def booked (cell : Cell ρ σ) : Cell (Ledger ρ) σ where
  get l depth := cell.get l.below depth
  set l depth slot := { l with below := cell.set l.below depth slot }
  reset l depth := { l with below := cell.reset l.below depth }

/-- At this depth the cell holds what was put there. -/
structure Holds (cell : Cell ρ σ) (d : Nat) : Prop where
  set : ∀ r slot, cell.get (cell.set r d slot) d = slot
  reset : ∀ r, cell.get (cell.reset r d) d = .idle

end Cell

/-! ## Rounds -/

/-- A tick or a reset of a node, and what it had to do with its children. -/
inductive Round where
  | tick (dealings : List Dealing) (answer : Status)
  | reset (fire : Bool) (dealings : List Dealing)
  deriving DecidableEq

/-- The ticks of children among the dealings. -/
def visitsOf (dealings : List Dealing) : List Visit :=
  dealings.filterMap fun
    | .ticked visit => some visit
    | _ => none

/-- Resets of these children in this order. -/
def resetsOf (d : Nat) (fire : Bool) (children : List Nat) : List Dealing := children.map (.reset · d fire)

/-- No return was requested in a tick of a child. -/
def Quiet (dealings : List Dealing) : Prop := ∀ visit ∈ visitsOf dealings, visit.asked = false

instance (dealings : List Dealing) : Decidable (Quiet dealings) :=
  inferInstanceAs (Decidable (∀ visit ∈ visitsOf dealings, visit.asked = false))

namespace Round

def dealings : Round → List Dealing
  | tick dealings _ | reset _ dealings => dealings

/-- The run of the node is over: it was reset or has ended, by itself or by a request to return. -/
def closes : Round → Bool
  | tick dealings answer => answer.isTerminal || (visitsOf dealings).any (·.asked)
  | reset _ _ => true

/-- A run goes on after a tick that answers running and in which no return was requested. -/
theorem open_tick {dealings : List Dealing} {answer : Status} (goes : (tick dealings answer).closes = false) :
    answer = .running ∧ Quiet dealings := by
  simpa [closes, Status.isTerminal, Status.isRunning_iff, Quiet] using goes

end Round

/-- The rounds of the run in progress after these rounds. -/
def inProgress (rounds : List Round) : List Round :=
  rounds.foldl (fun run round => if round.closes then [] else run ++ [round]) []

/-- The ticks of children in a run. -/
def visitsIn (run : List Round) : List Visit := run.flatMap fun round => visitsOf round.dealings

/-- The ticks of children in the run in progress. -/
def current (rounds : List Round) : List Visit := visitsIn (inProgress rounds)

@[simp] theorem current_nil : current [] = [] := rfl

theorem visitsIn_snoc {run : List Round} {round : Round} :
    visitsIn (run ++ [round]) = visitsIn run ++ visitsOf round.dealings := by simp [visitsIn]

theorem inProgress_snoc (rounds : List Round) (round : Round) :
    inProgress (rounds ++ [round]) = if round.closes then [] else inProgress rounds ++ [round] := by
  simp [inProgress]

theorem mem_inProgress {rounds : List Round} {round : Round} (among : round ∈ inProgress rounds) :
    round ∈ rounds ∧ round.closes = false := by
  induction rounds using List.reverseRecOn with
  | nil => cases among
  | append_singleton rounds last ih =>
    rw [inProgress_snoc] at among
    split at among
    · cases among
    · next goes =>
      rcases List.mem_append.mp among with among | among
      · exact ⟨List.mem_append_left _ (ih among).1, (ih among).2⟩
      · rw [List.mem_singleton] at among
        rw [among]
        exact ⟨List.mem_append_right _ (List.mem_singleton_self _), by simpa using goes⟩

theorem current_snoc (rounds : List Round) (round : Round) :
    current (rounds ++ [round]) = if round.closes then [] else current rounds ++ visitsOf round.dealings := by
  rw [current, inProgress_snoc]
  split
  · rfl
  · exact visitsIn_snoc

theorem current_closed {rounds : List Round} {round : Round} (closes : round.closes = true) :
    current (rounds ++ [round]) = [] := by rw [current_snoc, if_pos closes]

section
variable {xs ys : List Dealing} {visits : List Visit} {children : List Nat} {d : Nat} {fire : Bool}

@[simp] theorem visitsOf_append : visitsOf (xs ++ ys) = visitsOf xs ++ visitsOf ys := by simp [visitsOf]

@[simp] theorem visitsOf_ticked : visitsOf (visits.map .ticked) = visits := by
  simp [visitsOf, List.filterMap_map]

@[simp] theorem visitsOf_resets : visitsOf (resetsOf d fire children) = [] := by
  simp [visitsOf, resetsOf]

theorem quiet_iff : Quiet (visits.map .ticked ++ resetsOf d fire children) ↔ ∀ v ∈ visits, v.asked = false := by
  simp [Quiet]

theorem Round.closes_tick {answer : Status} :
    (Round.tick (visits.map .ticked ++ resetsOf d fire children) answer).closes =
      (answer.isTerminal || visits.any (·.asked)) := by
  simp [Round.closes]

theorem Round.closes_visits {answer : Status} :
    (Round.tick (visits.map .ticked) answer).closes = (answer.isTerminal || visits.any (·.asked)) := by
  simp [Round.closes]

/-- A node that answers running goes on with its run, if no child asked to return. -/
theorem current_open {rounds : List Round} (quiet : ∀ v ∈ visits, v.asked = false) :
    current (rounds ++ [Round.tick (visits.map .ticked) .running]) = current rounds ++ visits := by
  have closes : (Round.tick (visits.map .ticked) .running).closes = false := by
    simpa [Round.closes_visits, Status.isTerminal, Status.isRunning] using quiet
  rw [current_snoc, closes]
  simp [Round.dealings]

end

/-- The rounds that a node has gone through at a depth where it remembered nothing at first, and where the machine may
have come to. Between rounds all may change, but for what the node remembers at this depth. -/
inductive Lived (cell : Cell ρ σ) (d : Nat) (node : Behaviour (Ledger ρ) μ σ) :
    List Round → Machine (Ledger ρ) μ σ → Prop
  | fresh {m : Machine (Ledger ρ) μ σ} : cell.get m.runs.below d = .idle → Lived cell d node [] m
  | aside {rounds : List Round} {m n : Machine (Ledger ρ) μ σ} : Lived cell d node rounds m →
      cell.get n.runs.below d = cell.get m.runs.below d → Lived cell d node rounds n
  | tick {rounds : List Round} {m n : Machine (Ledger ρ) μ σ} {status : Status} : Lived cell d node rounds m →
      m.context.depth = d → m.runs.dealings = [] → node.tick m = .ok status n →
      Lived cell d node (rounds ++ [.tick n.runs.dealings status]) n
  | reset {rounds : List Round} {m n : Machine (Ledger ρ) μ σ} {fire : Bool} : Lived cell d node rounds m →
      m.runs.dealings = [] → node.reset d fire m = .ok () n →
      Lived cell d node (rounds ++ [.reset fire n.runs.dealings]) n

/-- After these rounds the node is to be ticked at this depth. The ledger is blank. -/
structure Due (cell : Cell ρ σ) (d : Nat) (node : Behaviour (Ledger ρ) μ σ) (rounds : List Round)
    (m : Machine (Ledger ρ) μ σ) : Prop where
  lived : Lived cell d node rounds m
  depth : m.context.depth = d
  blank : m.runs.dealings = []

/-! ## Work that only a child can break off -/

/-- What comes of work with the children: it has ended so, or a child has broken off. -/
inductive Settles (post : α → Machine (Ledger ρ) μ σ → Prop) :
    EStateM.Result Fault (Machine (Ledger ρ) μ σ) α → Prop
  | ok {x : α} {m : Machine (Ledger ρ) μ σ} : post x m → Settles post (.ok x m)
  | error {fault : Fault} {m : Machine (Ledger ρ) μ σ} : m.runs.Failed → Settles post (.error fault m)

namespace Settles

variable {post post' : α → Machine (Ledger ρ) μ σ → Prop} {after : β → Machine (Ledger ρ) μ σ → Prop}
  {m : Machine (Ledger ρ) μ σ}

theorem bind {a : Run (Ledger ρ) μ σ α} {f : α → Run (Ledger ρ) μ σ β} (first : Settles post (a m))
    (rest : ∀ x n, post x n → Settles after (f x n)) : Settles after ((a >>= f) m) := by
  show Settles after (EStateM.bind a f m)
  unfold EStateM.bind
  generalize a m = result at first
  cases first with
  | ok h => exact rest _ _ h
  | error failed => exact .error failed

theorem mono {result : EStateM.Result Fault (Machine (Ledger ρ) μ σ) α} (h : Settles post result)
    (weaker : ∀ x n, post x n → post' x n) : Settles post' result := by
  cases h with
  | ok h => exact .ok (weaker _ _ h)
  | error failed => exact .error failed

theorem of_ok {a : Run (Ledger ρ) μ σ α} {x : α} {n : Machine (Ledger ρ) μ σ} (h : Settles post (a m))
    (ok : a m = .ok x n) : post x n := by
  rw [ok] at h
  cases h with
  | ok h => exact h

end Settles

/-- The node remembers this at the depth, and these dealings are entered. -/
structure Booked (cell : Cell ρ σ) (d : Nat) (slot : Slot σ) (dealings : List Dealing) (m : Machine (Ledger ρ) μ σ) :
    Prop where
  slot : cell.get m.runs.below d = slot
  dealings : m.runs.dealings = dealings

namespace Booked

variable {cell : Cell ρ σ} {d : Nat} {slot x : Slot σ} {dealings : List Dealing} {m : Machine (Ledger ρ) μ σ}
  (h : Booked cell d slot dealings m)
include h

theorem set (holds : cell.Holds d) : Booked cell d x dealings (m.onRuns (cell.booked.set · d x)) :=
  ⟨holds.set _ _, h.dealings⟩

theorem reset (holds : cell.Holds d) : Booked cell d .idle dealings (m.onRuns (cell.booked.reset · d)) :=
  ⟨holds.reset _, h.dealings⟩

/-- A child is reset. -/
theorem resets {child : Behaviour ρ μ σ} (apart : child.Apart cell d) (number : Nat) (fire : Bool) :
    Settles (fun _ n => Booked cell d slot (dealings ++ [Dealing.reset number d fire]) n)
      ((child.booked number).reset d fire m) := by
  show Settles _ (Run.booked number _ (child.reset d fire) m)
  unfold Run.booked
  cases ran : child.reset d fire (m.withRuns m.runs.below) with
  | ok u n =>
    have slot := apart.reset fire _ _ ran
    exact .ok ⟨slot.trans h.slot, by rw [← h.dealings]; rfl⟩
  | error fault n => exact .error ⟨number, List.getLast?_concat⟩

end Booked

/-- A tick of the node at this depth has visited these children so far. -/
structure Midway (cell : Cell ρ σ) (d : Nat) (slot : Slot σ) (visits : List Visit) (m : Machine (Ledger ρ) μ σ) :
    Prop extends Booked cell d slot (visits.map .ticked) m where
  depth : m.context.depth = d

/-- The next child is visited. -/
theorem Midway.ticks {cell : Cell ρ σ} {d : Nat} {slot : Slot σ} {visits : List Visit} {m : Machine (Ledger ρ) μ σ}
    {child : Behaviour ρ μ σ} (h : Midway cell d slot visits m) (apart : child.Apart cell d) (number : Nat) :
    Settles (fun status n => ∃ v : Visit, v.child = number ∧ v.status = status ∧
        n.context.returnRequest.isSome = v.asked ∧ Midway cell d slot (visits ++ [v]) n)
      ((child.booked number).tick m) := by
  show Settles _ (Run.booked number _ child.tick m)
  unfold Run.booked
  cases ran : child.tick (m.withRuns m.runs.below) with
  | ok status n =>
    obtain ⟨level, slot⟩ := apart.tick _ _ _ h.depth ran
    refine .ok ⟨⟨number, status, _⟩, rfl, rfl, rfl, ⟨slot.trans h.slot, ?_⟩, level⟩
    rw [List.map_append, ← h.dealings]
    rfl
  | error fault n => exact .error ⟨number, List.getLast?_concat⟩

/-! ## Laws -/

/-- One tick and one reset of the node keep to the law and to the invariant, wherever the invariant holds of what the
node remembers. -/
structure Abides (cell : Cell ρ σ) (d : Nat) (node : Behaviour (Ledger ρ) μ σ) (inv : List Round → Slot σ → Prop)
    (law : List Round → Round → Prop) : Prop where
  start : inv [] .idle
  tick : ∀ rounds slot m, inv rounds slot → m.context.depth = d → Booked cell d slot [] m →
    Settles (fun status n => law rounds (.tick n.runs.dealings status) ∧
      inv (rounds ++ [.tick n.runs.dealings status]) (cell.get n.runs.below d)) (node.tick m)
  reset : ∀ rounds slot fire m, inv rounds slot → Booked cell d slot [] m →
    Settles (fun _ n => law rounds (.reset fire n.runs.dealings) ∧
      inv (rounds ++ [.reset fire n.runs.dealings]) (cell.get n.runs.below d)) (node.reset d fire m)

namespace Abides

variable {cell : Cell ρ σ} {d : Nat} {node : Behaviour (Ledger ρ) μ σ} {inv : List Round → Slot σ → Prop}
  {law : List Round → Round → Prop} (h : Abides cell d node inv law) {rounds : List Round}
  {m : Machine (Ledger ρ) μ σ}
include h

/-- Whatever the rounds were, they were lawful and the invariant holds. -/
theorem kept (lived : Lived cell d node rounds m) : Lawful law rounds ∧ inv rounds (cell.get m.runs.below d) := by
  induction lived with
  | fresh idle =>
    rw [idle]
    exact ⟨.nil, h.start⟩
  | aside _ same ih =>
    rw [same]
    exact ih
  | tick _ depth blank ok ih =>
    obtain ⟨allowed, holds⟩ := (h.tick _ _ _ ih.2 depth ⟨rfl, blank⟩).of_ok ok
    exact ⟨ih.1.snoc allowed, holds⟩
  | reset _ blank ok ih =>
    obtain ⟨allowed, holds⟩ := (h.reset _ _ _ _ ih.2 ⟨rfl, blank⟩).of_ok ok
    exact ⟨ih.1.snoc allowed, holds⟩

/-- The next tick is lawful, too. -/
theorem next_tick (due : Due cell d node rounds m) :
    Settles (fun status n => law rounds (.tick n.runs.dealings status)) (node.tick m) :=
  (h.tick rounds _ m (h.kept due.lived).2 due.depth ⟨rfl, due.blank⟩).mono fun _ _ => And.left

/-- So is the next reset. -/
theorem next_reset (lived : Lived cell d node rounds m) (fire : Bool) (blank : m.runs.dealings = []) :
    Settles (fun _ n => law rounds (.reset fire n.runs.dealings)) (node.reset d fire m) :=
  (h.reset rounds _ fire m (h.kept lived).2 ⟨rfl, blank⟩).mono fun _ _ => And.left

end Abides

/-! ## Passing from child to child -/

/-- The children of the list are ticked in its order, up to the first tick that ends the pass; what that one answered
is known then. -/
inductive Pass (ends : Visit → Prop) : (todo : List Nat) → (visits : List Visit) → (stopped : Option Status) → Prop
  | done : Pass ends [] [] none
  | ended {visit : Visit} {todo : List Nat} : ends visit →
      Pass ends (visit.child :: todo) [visit] (some visit.status)
  | on {visit : Visit} {todo : List Nat} {visits : List Visit} {stopped : Option Status} : ¬ ends visit →
      Pass ends todo visits stopped → Pass ends (visit.child :: todo) (visit :: visits) stopped

namespace Pass

variable {ends ends' : Visit → Prop} {todo : List Nat} {visits : List Visit} {stopped : Option Status} {status : Status}

theorem order (h : Pass ends todo visits stopped) : visits.map (·.child) <+: todo := by
  induction h with
  | done => exact List.prefix_refl _
  | ended => simp
  | on _ _ ih => simpa using ih

/-- The whole list was gone through. -/
theorem complete (h : Pass ends todo visits none) :
    visits.map (·.child) = todo ∧ ∀ visit ∈ visits, ¬ ends visit := by
  generalize passed : (none : Option Status) = stopped at h
  induction h with
  | done => simp
  | ended => cases passed
  | on goes _ ih =>
    obtain ⟨order, rest⟩ := ih passed
    exact ⟨by simp [order], by simpa [goes] using rest⟩

/-- The pass ended at a child. -/
theorem last (h : Pass ends todo visits (some status)) :
    ∃ earlier visit, visits = earlier ++ [visit] ∧ visit.status = status ∧ ends visit ∧ ∀ v ∈ earlier, ¬ ends v := by
  generalize passed : some status = stopped at h
  induction h with
  | done => cases passed
  | @ended visit _ ends =>
    cases passed
    exact ⟨[], visit, rfl, rfl, ends, nofun⟩
  | @on first _ _ _ goes _ ih =>
    obtain ⟨earlier, visit, rfl, same, ends, before⟩ := ih passed
    exact ⟨first :: earlier, visit, rfl, same, ends, by simpa [goes] using before⟩

/-- Only the last visit can have ended the pass. -/
theorem before {front : List Visit} {v : Visit} (h : Pass ends todo (front ++ [v]) stopped) :
    (∀ w ∈ front, ¬ ends w) ∧ (stopped = none ∧ ¬ ends v ∨ stopped = some v.status ∧ ends v) := by
  cases stopped with
  | none =>
    obtain ⟨-, goes⟩ := h.complete
    exact ⟨fun w among => goes w (List.mem_append_left _ among), .inl ⟨rfl, goes v (by simp)⟩⟩
  | some status =>
    obtain ⟨earlier, w, same, rfl, ends, goes⟩ := h.last
    obtain ⟨rfl, one⟩ := List.append_inj' same rfl
    cases one
    exact ⟨goes, .inr ⟨rfl, ends⟩⟩

/-- The child at which it ended has ended or asked to return, so the run is over. -/
theorem closes {stop : Status → Bool} {d : Nat} {children : List Nat} {fire : Bool}
    (h : Pass (Visit.Stops stop) todo visits (some status))
    (ends : ∀ status, stop status = true → status.isTerminal = true) :
    (Round.tick (visits.map .ticked ++ resetsOf d fire children) status).closes = true := by
  rw [Round.closes_tick]
  obtain ⟨earlier, v, rfl, rfl, asked | stops, -⟩ := h.last
  · simp [asked]
  · simp [ends _ stops]

/-- No child has asked to return. -/
theorem quiet {stop : Status → Bool} (h : Pass (Visit.Stops stop) todo visits none) :
    ∀ v ∈ visits, v.asked = false := by
  intro v among
  have goes := h.complete.2 v among
  simpa using fun asked => goes (.inl asked)

theorem congr (h : Pass ends todo visits stopped) (same : ∀ visit ∈ visits, ends visit ↔ ends' visit) :
    Pass ends' todo visits stopped := by
  induction h with
  | done => exact .done
  | ended ends => exact .ended ((same _ (by simp)).mp ends)
  | on goes _ ih =>
    have here := same _ List.mem_cons_self
    exact .on (fun ends => goes (here.mpr ends)) (ih fun visit among => same visit (List.mem_cons_of_mem _ among))

end Pass

/-- After these visits the pass goes along `todo`, until all is `settled` at the tick of a child or the node is
`through` with the children. -/
def Passed (ends : Visit → Prop) (settled : List Visit → Status → Prop) (through : List Visit → Prop)
    (visits : List Visit) (todo : List Nat) : Prop :=
  ∃ more stopped, Pass ends todo more stopped ∧ match stopped with
    | some status => settled (visits ++ more) status
    | none => through (visits ++ more)

namespace Passed

variable {ends : Visit → Prop} {settled : List Visit → Status → Prop} {through : List Visit → Prop}
  {visits : List Visit} {todo : List Nat} {v : Visit}

theorem done (h : through visits) : Passed ends settled through visits [] :=
  ⟨[], none, .done, by rwa [List.append_nil]⟩

theorem ended (stops : ends v) (h : settled (visits ++ [v]) v.status) :
    Passed ends settled through visits (v.child :: todo) :=
  ⟨[v], some v.status, .ended stops, h⟩

theorem on (goes : ¬ ends v) (h : Passed ends settled through (visits ++ [v]) todo) :
    Passed ends settled through visits (v.child :: todo) := by
  obtain ⟨more, stopped, pass, outcome⟩ := h
  refine ⟨v :: more, stopped, .on goes pass, ?_⟩
  simpa using outcome

/-- The outcome of a pass that has just begun. -/
theorem outcome (h : Passed ends settled through [] todo) :
    (∃ visits status, Pass ends todo visits (some status) ∧ settled visits status) ∨
      ∃ visits, Pass ends todo visits none ∧ through visits := by
  obtain ⟨visits, _ | status, pass, outcome⟩ := h
  · exact .inr ⟨visits, pass, by simpa using outcome⟩
  · exact .inl ⟨visits, status, pass, by simpa using outcome⟩

end Passed

/-! ## Rounds in a row -/

namespace Behaviour

/-- Ticks the node so many times, one after the other, and tells the rounds. -/
def inARow (node : Behaviour (Ledger ρ) μ σ) (d : Nat) : (times : Nat) → Machine (Ledger ρ) μ σ →
    Option (List Round × Machine (Ledger ρ) μ σ)
  | 0, m => some ([], m)
  | times + 1, m => do
    let (rounds, m) ← node.inARow d times m
    match node.tick m with
    | .ok status n =>
      if n.context.depth = d then
        some (rounds ++ [.tick n.runs.dealings status], n.withRuns { n.runs with dealings := [] })
      else none
    | .error _ _ => none

section
variable {cell : Cell ρ σ} {d times : Nat} {node : Behaviour (Ledger ρ) μ σ} {rounds : List Round}
  {dealings : List Dealing} {status : Status} {m n : Machine (Ledger ρ) μ σ}

theorem inARow_succ (h : node.inARow d (times + 1) m = some (rounds, n)) :
    ∃ before k status k', node.inARow d times m = some (before, k) ∧ node.tick k = .ok status k' ∧
      k'.context.depth = d ∧ rounds = before ++ [Round.tick k'.runs.dealings status] ∧
      n = k'.withRuns { k'.runs with dealings := [] } := by
  simp only [inARow, Option.bind_eq_bind, Option.bind_eq_some_iff] at h
  obtain ⟨⟨before, k⟩, earlier, h⟩ := h
  dsimp only at h
  split at h
  · next status k' ok =>
    split at h
    · next level =>
      cases h
      exact ⟨before, k, status, k', earlier, ok, level, rfl, rfl⟩
    · cases h
  · cases h

variable (start : Due cell d node [] m)
include start

theorem inARow_due (h : node.inARow d times m = some (rounds, n)) : Due cell d node rounds n := by
  induction times generalizing rounds n with
  | zero =>
    cases h
    exact start
  | succ times ih =>
    obtain ⟨before, k, status, k', earlier, ok, level, rfl, rfl⟩ := inARow_succ h
    have due := ih earlier
    exact ⟨.aside (due.lived.tick due.depth due.blank ok) rfl, level, rfl⟩

/-- The last of the ticks. -/
theorem inARow_last (h : (node.inARow d (times + 1) m).map (·.1) = some (rounds ++ [Round.tick dealings status])) :
    ∃ n k, Due cell d node rounds n ∧ node.tick n = .ok status k ∧ k.runs.dealings = dealings := by
  obtain ⟨⟨all, n⟩, ran, same⟩ := Option.map_eq_some_iff.mp h
  obtain ⟨before, k, answer, k', earlier, ok, -, rfl, -⟩ := inARow_succ ran
  obtain ⟨rfl, last⟩ := List.append_inj' same rfl
  cases last
  exact ⟨k, k', inARow_due start earlier, ok, rfl⟩

end

end Behaviour

/-- A node's slots, and nothing else. -/
def Cell.alone : Cell (DepthSlots (Slot σ)) σ where
  get := DepthSlots.get
  set := DepthSlots.set
  reset := DepthSlots.reset

theorem Cell.alone_holds {d : Nat} : (Cell.alone : Cell (DepthSlots (Slot σ)) σ).Holds d where
  set r slot := by simp [alone, DepthSlots.get_set]
  reset r := by
    simp [alone, DepthSlots.get_reset]
    rfl

/-- A child that answers what the memory tells it to, and asks to return when it is told so. -/
def Behaviour.obedient : Behaviour ρ (List (Status × Bool)) σ :=
  .ofTick do
    let (status, asks) ← Run.consult fun answers => (answers.headD (.failure, false), answers.tail)
    if asks then Run.requestReturn status
    return status

/-- Three of them. -/
def Behaviour.trio : List (Behaviour (DepthSlots (Slot Unit)) (List (Status × Bool)) Unit) :=
  [obedient, obedient, obedient]

/-- A machine on which nothing has run yet, with what the children are to answer. -/
def Machine.scripted (script : List (Status × Bool)) :
    Machine (Ledger (DepthSlots (Slot Unit))) (List (Status × Bool)) Unit :=
  ⟨{}, script, ⟨{}, []⟩, #[], #[]⟩

theorem Due.scripted {node : Behaviour (Ledger (DepthSlots (Slot Unit))) (List (Status × Bool)) Unit}
    {script : List (Status × Bool)} : Due Cell.alone 0 node [] (.scripted script) :=
  ⟨.fresh (DepthSlots.get_empty 0), rfl, rfl⟩

theorem Behaviour.obedient_apart {cell : Cell ρ σ} {d : Nat} : Behaviour.Apart cell d obedient where
  tick m status n depth h := by
    simp only [obedient, ofTick, Run.requestReturn, Run.bind_eq_ok, Run.consult_eq_ok, Run.onContext_eq_ok,
      Run.ite_eq_ok, Run.pure_eq_ok] at h
    obtain ⟨_, _, ⟨rfl, rfl⟩, ⟨-, _, _, rfl, -, rfl⟩ | ⟨-, -, rfl⟩⟩ := h
    all_goals exact ⟨depth, rfl⟩
  reset fire m n h := by
    cases h
    rfl

theorem Behaviour.trio_apart {d : Nat} : ∀ child ∈ trio, child.Apart Cell.alone d := by
  simp [trio, obedient_apart]

/-! ## Without the ledger -/

namespace Ledger

/-- Run states, and the same beside a ledger. -/
abbrev Beside (r : ρ) (l : Ledger ρ) : Prop := r = l.below

/-- Nothing is required of the ledger. -/
abbrev Fine (_ : Ledger ρ) : Prop := True

end Ledger

/-- The work of a child that ends at the depth at which it started is the same, entered or not. -/
theorem Run.booked_lock {d number : Nat} {entry : α → Machine ρ μ σ → Dealing} {work : Run ρ μ σ α}
    (level : ∀ m x n, work m = .ok x n → n.context.depth = m.context.depth) :
    Lock Ledger.Fine Ledger.Beside d work (work.booked number entry) where
  before _ _ := trivial
  agree m m' h _ := by
    obtain ⟨_, _, _, _, _⟩ := m
    obtain ⟨⟨rfl, rfl, rfl, rfl⟩, depth, rfl⟩ := h
    show Agree id _ (work (m'.withRuns m'.runs.below)) _
    unfold Run.booked
    cases ran : work (m'.withRuns m'.runs.below) with
    | ok x n => exact .ok x ⟨⟨rfl, rfl, rfl, rfl⟩, (level _ _ _ ran).trans depth, rfl⟩
    | error fault n => exact .error fault ⟨rfl, rfl, rfl, rfl⟩

/-- In lockstep, the second run leaves what the first one leaves, and a ledger. -/
theorem Lock.unbooked {a : Run ρ μ σ α} {b : Run (Ledger ρ) μ σ α} (h : ∀ d, Lock Ledger.Fine Ledger.Beside d a b)
    (m : Machine (Ledger ρ) μ σ) :
    Agree id (fun n n' => n = n'.withRuns n'.runs.below) (a (m.withRuns m.runs.below)) (b m) := by
  have start : Along Ledger.Beside m.context.depth (m.withRuns m.runs.below) m := ⟨⟨rfl, rfl, rfl, rfl⟩, rfl, rfl⟩
  refine ((h _).agree _ m start trivial).mono fun n n' related => ?_
  obtain ⟨_, _, _, _, _⟩ := n
  obtain ⟨⟨rfl, rfl, rfl, rfl⟩, -, rfl⟩ := related
  rfl

theorem Cell.booked_cells (cell : Cell ρ σ) : Cells Ledger.Fine id (fun _ => Ledger.Beside) cell cell.booked where
  get same := by
    cases same
    exact (Slot.mapTrees_id _).symm
  set x same := by
    cases same
    rw [Slot.mapTrees_id]
    rfl
  reset same := by
    cases same
    rfl
  fine_set := id
  fine_reset := id

namespace Behaviour

/-- The second behaviour does what the first one does, and keeps a ledger. -/
structure Booking (node : Behaviour ρ μ σ) (booked : Behaviour (Ledger ρ) μ σ) : Prop where
  tick : ∀ m, Agree id (fun n n' => n = n'.withRuns n'.runs.below) (node.tick (m.withRuns m.runs.below)) (booked.tick m)
  reset : ∀ d fire m, Agree id (fun n n' => n = n'.withRuns n'.runs.below)
    (node.reset d fire (m.withRuns m.runs.below)) (booked.reset d fire m)

theorem Booking.of_lock {node : Behaviour ρ μ σ} {booked : Behaviour (Ledger ρ) μ σ}
    (tick : ∀ d, Lock Ledger.Fine Ledger.Beside d node.tick booked.tick)
    (reset : ResetLock Ledger.Fine (fun _ => Ledger.Beside) (fun _ => Ledger.Beside) node.reset booked.reset) :
    Booking node booked where
  tick m := Lock.unbooked tick m
  reset d fire m := Lock.unbooked (fun e => reset d e fire) m

variable {children : List (Behaviour ρ μ σ)} (level : ∀ child ∈ children, child.Level)
include level

theorem locked_bookedFrom (first : Nat) :
    LockedAll Ledger.Fine (fun _ => Ledger.Beside) children (bookedFrom first children) := by
  induction children generalizing first with
  | nil => exact .nil
  | cons child rest ih =>
    obtain ⟨here, below⟩ := List.forall_mem_cons.mp level
    refine .cons ⟨fun d => Run.booked_lock here.tick, fun d e fire => Run.booked_lock ?_⟩ (ih below (first + 1))
    exact fun m _ n ran => here.reset d fire m n ran

/-- Nodes with several children do with a ledger what they do without one. -/
theorem booking (cell : Cell ρ σ) :
    (∀ pass, Booking (inOrder cell pass children) (inOrder cell.booked pass (bookedAll children))) ∧
      (∀ pass, Booking (reactive cell pass children) (reactive cell.booked pass (bookedAll children))) ∧
      (∀ policy, Booking (parallel cell policy children) (parallel cell.booked policy (bookedAll children))) ∧
      (∀ policy, Booking (join cell policy children) (join cell.booked policy (bookedAll children))) ∧
      Booking (race cell children) (race cell.booked (bookedAll children)) := by
  have cells := cell.booked_cells
  have locked := locked_bookedFrom level 0
  have one := resetChild_lock cells (fun _ _ _ same => same) locked
  have several := resetTracked_lock cells (fun _ _ _ same => same) locked
  exact ⟨fun _ => .of_lock (inOrder_lock cells locked) one, fun _ => .of_lock (reactive_lock cells locked) one,
    fun _ => .of_lock (visitAll_lock cells locked) several, fun _ => .of_lock (visitAll_lock cells locked) several,
    .of_lock (race_lock cells locked) several⟩

end Behaviour

/-! ## Nodes of a system as children -/

theorem Store.cell_holds {site : Address} {d : Nat} : (Store.cell site : Cell (Store σ) σ).Holds d where
  set s slot := (Store.slot_set s ⟨site, d⟩ ⟨site, d⟩ slot).trans (if_pos rfl)
  reset s := (Store.slot_reset s ⟨site, d⟩ ⟨site, d⟩).trans (if_pos rfl)

section
variable (sys : System μ σ) (aloof : sys.Aloof) (modest : sys.Modest False) {site : Address}
  (host : Host (Store σ) μ σ) (levels : Nat)
include aloof modest

/-- In a tick in progress, the children of a node have no access to what it remembers at the depth at which they are
ticked or reset, whatever calls of trees they make. -/
theorem node_apart {i : Nat} {child : Node μ σ} (here : sys.nodeAt (i :: site) = some child) (d : Nat) :
    (child.behaviour (sys.tickLinks .plain host (sys.tickRoot .plain host levels)) (i :: site)).Apart
      (Store.cell site) d := by
  have upheld : (sys.framing .plain).Upheld := System.framing_upheld aloof fun _ _ => rfl
  have frames := System.frames_of_fares (upheld.inTick host levels here)
  have outside : ¬ (i :: site) <:+ site := fun suffix => absurd suffix.length_le (by simp)
  refine ⟨fun m status n depth ticked => ⟨?_, ?_⟩, fun fire m n reset => ?_⟩
  · exact ((node_level sys aloof modest here host levels).tick m status n ticked).trans depth
  · have framed := (frames m).1
    rw [Run.last_ok ticked] at framed
    exact framed.beside ⟨site, d⟩ depth.symm outside
  · have framed := (frames m).2 d fire
    rw [Run.last_ok reset] at framed
    exact framed.beside ⟨site, d⟩ rfl outside

/-- So all that is required of children here is true of those of every node. -/
theorem children_apart {node : Node μ σ} (here : sys.nodeAt site = some node) (d : Nat) :
    ∀ child ∈ Node.behaviours (sys.tickLinks .plain host (sys.tickRoot .plain host levels)) site 0 node.children,
      child.Level ∧ child.Apart (Store.cell site) d := by
  refine Node.forall_behaviours fun i inner there => ?_
  have below := sys.nodeAt_child here there
  exact ⟨node_level sys aloof modest below host levels, node_apart sys aloof modest host levels below d⟩

end

end BehaviorTree
