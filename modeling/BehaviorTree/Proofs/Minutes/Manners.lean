/-
  BehaviorTree.Proofs.Minutes.Manners: runs that start in one way and go on in another.

  The history of a node at one depth is told in stints, its ticks and resets there, each with what
  it did. A run is over when the node has answered otherwise than running, or has been reset
  (`Stint.closes`). Between the stints all may change, but for what the node remembers at this
  depth; ticks and resets at other depths are of this kind (`Aside`).

  How a run starts and what its ticks do is the manner of the node (`Manner`). What was chosen at
  the start is read off the minutes of the run's first tick (`targetOf`). It is enough that a node
  keeps to its manner in one tick or reset (`Conducts`): then it does so in every history
  (`Conducts.oncePerRun`).
-/

import BehaviorTree.Proofs.Minutes

namespace BehaviorTree

variable {ρ μ σ : Type}

/-! ## Ticks and resets of one node -/

/-- A tick or a reset of the node at the depth, with what it did. -/
inductive Stint (σ : Type) where
  | tick (acts : List (Act σ)) (answer : Status)
  | reset (fire : Bool) (acts : List (Act σ))
  deriving DecidableEq

namespace Stint

def acts : Stint σ → List (Act σ)
  | tick acts _ | reset _ acts => acts

/-- The run of the node is over. -/
def closes : Stint σ → Bool
  | tick _ answer => answer.isTerminal
  | reset _ _ => true

end Stint

/-- The ticks of the run in progress. -/
def openRun (stints : List (Stint σ)) : List (Stint σ) :=
  stints.foldl (fun run stint => if stint.closes then [] else run ++ [stint]) []

theorem openRun_snoc (stints : List (Stint σ)) (stint : Stint σ) :
    openRun (stints ++ [stint]) = if stint.closes then [] else openRun stints ++ [stint] := by
  simp [openRun]

/-- The next tick is the first one since the node was made, or has ended or been reset. -/
theorem openRun_eq_nil {stints : List (Stint σ)} :
    openRun stints = [] ↔ ∀ last ∈ stints.getLast?, last.closes = true := by
  obtain rfl | ⟨front, last, rfl⟩ := List.eq_nil_or_concat stints
  · simp [openRun]
  · rw [List.concat_eq_append, openRun_snoc, List.getLast?_concat]
    cases closes : last.closes <;> simp [closes]

/-- One tick or reset of a node at the depth, with blank minutes. -/
inductive Served (d : Nat) (node : Behaviour ρ (Minutes μ σ) σ) (m : Machine ρ (Minutes μ σ) σ) :
    Stint σ → Machine ρ (Minutes μ σ) σ → Prop
  | tick {answer : Status} {n : Machine ρ (Minutes μ σ) σ} : m.context.depth = d → m.memory.acts = [] →
      node.tick m = .ok answer n → Served d node m (.tick n.memory.acts answer) n
  | reset {fire : Bool} {n : Machine ρ (Minutes μ σ) σ} : m.memory.acts = [] →
      node.reset d fire m = .ok () n → Served d node m (.reset fire n.memory.acts) n

/-- A node at one depth, where it remembers nothing at first. Between its stints all may change, but for what it
remembers there. -/
def serving (cell : Cell ρ σ) (d : Nat) (node : Behaviour ρ (Minutes μ σ) σ) :
    Going (Stint σ) (Machine ρ (Minutes μ σ) σ) where
  starts m := cell.get m.runs d = .idle
  aside m n := cell.get n.runs d = cell.get m.runs d
  step := Served d node

/-! ## Manners -/

/-- What is ticked in a run: the child or the tree of this number, over this state if one was made for it. -/
structure Target (σ : Type) where
  child : Nat
  state : Option σ := none

/-- What is to be ticked in a run that starts with these acts, if it goes on. -/
def targetOf : List (Act σ) → Option (Target σ)
  | .asked true :: _ | .entered :: _ => some ⟨0, none⟩
  | .looked (some tree) :: .made state :: _ => some ⟨tree, some state⟩
  | .looked (some tree) :: _ => some ⟨tree, none⟩
  | .picked (some child) :: _ => some ⟨child, none⟩
  | _ => none

/-- Nothing is done here that belongs to the start of a run. -/
def Routine (acts : List (Act σ)) : Prop := ∀ act ∈ acts, act.starts = false

theorem Routine.nil : Routine ([] : List (Act σ)) := by simp [Routine]

theorem Routine.ticked {child : Nat} {state : Option σ} {answer : Status} :
    Routine [Act.ticked child state answer] := by simp [Routine, Act.starts]

/-- How a node starts its runs, what it does in each tick of them, and what it remembers between them. -/
structure Manner (σ : Type) where
  opens : List (Act σ) → Prop
  works : Target σ → List (Act σ) → Status → Prop
  keeps : Target σ → Slot σ → Prop
  opens_starts : ∀ {acts}, opens acts → acts ≠ [] ∧ ∀ act ∈ acts, act.starts = true
  works_routine : ∀ {target acts answer}, works target acts answer → Routine acts
  /-- What is done in the first tick does not hide how the run started. -/
  target_append : ∀ {start target more answer}, opens start → targetOf start = some target →
    works target more answer → targetOf (start ++ more) = some target

namespace Manner

variable (manner : Manner σ)

/-- A run starts: if it has something to tick it does so, and if not it ends at once, with a failure. -/
def Begins (acts : List (Act σ)) (answer : Status) : Prop :=
  ∃ start more, acts = start ++ more ∧ manner.opens start ∧ match targetOf start with
    | some target => manner.works target more answer
    | none => more = [] ∧ answer = .failure

/-- A tick after these of the same run: the first one of them started it, and the others go on with what was chosen
then. -/
def Once (run : List (Stint σ)) (acts : List (Act σ)) (answer : Status) : Prop :=
  match run with
  | [] => manner.Begins acts answer
  | first :: _ => ∃ target, targetOf first.acts = some target ∧ manner.works target acts answer

/-- What has been done in a tick that was broken off. -/
def Breaks (run : List (Stint σ)) (acts : List (Act σ)) : Prop :=
  match run with
  | [] => ∃ start rest more, acts = start ++ more ∧ manner.opens (start ++ rest) ∧ Routine more
  | _ :: _ => Routine acts

/-- What the node remembers after such an answer. -/
def Leaves (target : Target σ) (answer : Status) (slot : Slot σ) : Prop :=
  if answer.isTerminal then slot = .idle else manner.keeps target slot

/-- What the node remembers of the run in progress. -/
def Recalls (run : List (Stint σ)) (slot : Slot σ) : Prop :=
  match run with
  | [] => slot = .idle
  | first :: _ => ∃ target, targetOf first.acts = some target ∧ manner.keeps target slot

variable {manner} {run stints : List (Stint σ)} {acts : List (Act σ)} {answer : Status} {slot : Slot σ}

/-- What belongs to the start of a run is done in the first tick of a run, and in no other. -/
theorem Once.starts_iff (h : manner.Once run acts answer) : (∃ act ∈ acts, act.starts = true) ↔ run = [] := by
  cases run with
  | nil =>
    obtain ⟨start, more, rfl, opens, -⟩ := h
    obtain ⟨some, all⟩ := manner.opens_starts opens
    obtain ⟨act, among⟩ := List.exists_mem_of_ne_nil start some
    exact iff_of_true ⟨act, List.mem_append_left _ among, all act among⟩ rfl
  | cons first rest =>
    obtain ⟨target, -, works⟩ := h
    refine iff_of_false (fun ⟨act, among, starts⟩ => ?_) (List.cons_ne_nil _ _)
    rw [manner.works_routine works act among] at starts
    cases starts

/-- What comes of the first tick of a run. -/
def Opened (manner : Manner σ) (cell : Cell ρ σ) (d : Nat) (answer : Status) (n : Machine ρ (Minutes μ σ) σ) : Prop :=
  ∃ start more, n.memory.acts = start ++ more ∧ manner.opens start ∧ match targetOf start with
    | some target => manner.works target more answer ∧ manner.Leaves target answer (cell.get n.runs d)
    | none => more = [] ∧ answer = .failure ∧ cell.get n.runs d = .idle

theorem Opened.begins {cell : Cell ρ σ} {d : Nat} {n : Machine ρ (Minutes μ σ) σ} (h : manner.Opened cell d answer n) :
    manner.Begins n.memory.acts answer := by
  obtain ⟨start, more, same, opens, outcome⟩ := h
  refine ⟨start, more, same, opens, ?_⟩
  cases target : targetOf start with
  | some =>
    rw [target] at outcome
    exact outcome.1
  | none =>
    rw [target] at outcome
    exact ⟨outcome.1, outcome.2.1⟩

/-- After the first tick the run is over, or what was chosen is remembered. -/
theorem Opened.recalls {cell : Cell ρ σ} {d : Nat} {n : Machine ρ (Minutes μ σ) σ} (h : manner.Opened cell d answer n) :
    manner.Recalls (if answer.isTerminal then [] else [.tick n.memory.acts answer]) (cell.get n.runs d) := by
  obtain ⟨start, more, same, opens, outcome⟩ := h
  cases target : targetOf start with
  | some =>
    rw [target] at outcome
    obtain ⟨works, left⟩ := outcome
    rw [Leaves] at left
    split
    · next terminal => rwa [if_pos terminal] at left
    · next goes =>
      rw [if_neg goes] at left
      refine ⟨_, ?_, left⟩
      rw [Stint.acts, same]
      exact manner.target_append opens target works
  | none =>
    rw [target] at outcome
    obtain ⟨-, rfl, idle⟩ := outcome
    exact idle

/-- The target was ticked after these acts of the same tick. -/
def Worked (manner : Manner σ) (cell : Cell ρ σ) (d : Nat) (acts : List (Act σ)) (target : Target σ) (answer : Status)
    (n : Machine ρ (Minutes μ σ) σ) : Prop :=
  ∃ more, n.memory.acts = acts ++ more ∧ manner.works target more answer ∧ manner.Leaves target answer (cell.get n.runs d)

theorem Worked.opened {cell : Cell ρ σ} {d : Nat} {target : Target σ} {n : Machine ρ (Minutes μ σ) σ}
    (h : manner.Worked cell d acts target answer n) (opens : manner.opens acts) (chosen : targetOf acts = some target) :
    manner.Opened cell d answer n := by
  obtain ⟨more, same, outcome⟩ := h
  refine ⟨acts, more, same, opens, ?_⟩
  rw [chosen]
  exact outcome

/-- The tick was broken off before anything was done in it. -/
theorem breaks_nil (opens : manner.opens acts) : manner.Breaks [] [] := ⟨[], acts, [], rfl, opens, .nil⟩

/-- The tick was broken off after the start of the run. -/
theorem breaks_opened {more : List (Act σ)} (opens : manner.opens acts) (routine : Routine more) :
    manner.Breaks [] (acts ++ more) :=
  ⟨acts, [], more, rfl, (List.append_nil acts).symm ▸ opens, routine⟩

end Manner

/-- The node keeps to the manner at this depth, in the first tick of a run, in each further one and in a reset. -/
structure Conducts (manner : Manner σ) (cell : Cell ρ σ) (d : Nat) (node : Behaviour ρ (Minutes μ σ) σ) : Prop where
  fresh : ∀ m, Minuted cell d .idle [] d m →
    Concludes (manner.Opened cell d) (manner.Breaks []) (node.tick m)
  resumed : ∀ target slot m, manner.keeps target slot → Minuted cell d slot [] d m →
    Concludes (manner.Worked cell d [] target) Routine (node.tick m)
  reset : ∀ slot e fire m, (slot = .idle ∨ ∃ target, manner.keeps target slot) → Minuted cell d slot [] e m →
    Concludes (fun _ n => n.memory.acts = [] ∧ cell.get n.runs d = .idle) (· = []) (node.reset d fire m)

/-- What belongs to the start of a run is done in its first tick, and in no other; what was chosen then is used until
the run is over, and a reset does none of this. -/
structure OncePerRun (manner : Manner σ) (cell : Cell ρ σ) (d : Nat) (node : Behaviour ρ (Minutes μ σ) σ) : Prop where
  tick : ∀ stints m, (serving cell d node).Reaches stints m → m.context.depth = d → m.memory.acts = [] →
    Concludes (fun answer n => manner.Once (openRun stints) n.memory.acts answer) (manner.Breaks (openRun stints))
      (node.tick m)
  starts : ∀ stints m, (serving cell d node).Reaches stints m → m.context.depth = d → m.memory.acts = [] →
    Concludes (fun _ n => (∃ act ∈ n.memory.acts, act.starts = true) ↔ ∀ last ∈ stints.getLast?, last.closes = true)
      (fun _ => True) (node.tick m)
  reset : ∀ stints fire m, (serving cell d node).Reaches stints m → m.memory.acts = [] →
    Concludes (fun _ n => n.memory.acts = [] ∧ cell.get n.runs d = .idle) (· = []) (node.reset d fire m)

namespace Conducts

variable {manner : Manner σ} {cell : Cell ρ σ} {d : Nat} {node : Behaviour ρ (Minutes μ σ) σ}
  (conducts : Conducts manner cell d node) {run stints : List (Stint σ)} {slot : Slot σ}
  {m : Machine ρ (Minutes μ σ) σ}
include conducts

theorem step (recalls : manner.Recalls run slot) (begun : Minuted cell d slot [] d m) :
    Concludes (fun answer n => manner.Once run n.memory.acts answer ∧
        manner.Recalls (if answer.isTerminal then [] else run ++ [Stint.tick n.memory.acts answer]) (cell.get n.runs d))
      (manner.Breaks run) (node.tick m) := by
  cases run with
  | nil =>
    subst recalls
    exact (conducts.fresh m begun).mono (fun _ _ opened => ⟨opened.begins, opened.recalls⟩) fun _ => id
  | cons first rest =>
    obtain ⟨target, chosen, keeps⟩ := recalls
    refine (conducts.resumed target slot m keeps begun).mono (fun answer n came => ?_) fun _ => id
    obtain ⟨acts, rfl, works, left⟩ := came
    refine ⟨⟨target, chosen, works⟩, ?_⟩
    rw [Manner.Leaves] at left
    split
    · next terminal => rwa [if_pos terminal] at left
    · next goes =>
      rw [if_neg goes] at left
      exact ⟨target, chosen, left⟩

theorem abandon (recalls : manner.Recalls run slot) {e : Nat} (begun : Minuted cell d slot [] e m) (fire : Bool) :
    Concludes (fun _ n => n.memory.acts = [] ∧ cell.get n.runs d = .idle) (· = []) (node.reset d fire m) := by
  refine conducts.reset slot e fire m ?_ begun
  cases run with
  | nil => exact .inl recalls
  | cons first rest =>
    obtain ⟨target, -, keeps⟩ := recalls
    exact .inr ⟨target, keeps⟩

/-- Whatever the stints were, the node remembers what was chosen at the start of the run in progress. -/
theorem recalls (reached : (serving cell d node).Reaches stints m) :
    manner.Recalls (openRun stints) (cell.get m.runs d) := by
  refine reached.invariant (fun stints m => manner.Recalls (openRun stints) (cell.get m.runs d)) (fun m idle => idle)
    (fun stints m n recalls same => ?_) fun stints m stint n recalls served => ?_
  · rwa [show cell.get n.runs d = cell.get m.runs d from same]
  · rw [openRun_snoc]
    cases served with
    | tick depth blank ok => exact ((conducts.step recalls ⟨rfl, blank, depth⟩).of_ok ok).2
    | reset blank ok => exact ((conducts.abandon recalls ⟨rfl, blank, rfl⟩ _).of_ok ok).2

theorem oncePerRun : OncePerRun manner cell d node where
  tick stints m reached depth blank :=
    (conducts.step (conducts.recalls reached) ⟨rfl, blank, depth⟩).mono (fun _ _ => And.left) fun _ => id
  starts stints m reached depth blank := by
    refine (conducts.step (conducts.recalls reached) ⟨rfl, blank, depth⟩).mono (fun _ _ came => ?_) fun _ _ => trivial
    rw [came.1.starts_iff, openRun_eq_nil]
  reset stints fire m reached blank := conducts.abandon (conducts.recalls reached) ⟨rfl, blank, rfl⟩ fire

end Conducts

/-- Ticks and resets of the node at depth `e` are no stints of its runs at depth `d`. -/
structure Behaviour.Aside (cell : Cell ρ σ) (d e : Nat) (node : Behaviour ρ μ σ) : Prop where
  tick : ∀ m answer n, m.context.depth = e → node.tick m = .ok answer n → cell.get n.runs d = cell.get m.runs d
  reset : ∀ fire m n, node.reset e fire m = .ok () n → cell.get n.runs d = cell.get m.runs d

theorem Behaviour.Aside.mirrored {μ' : Type} {part : μ' → μ} {cell : Cell ρ σ} {d e : Nat} {node : Behaviour ρ μ σ}
    {node' : Behaviour ρ μ' σ} (h : node.Aside cell d e) (mirrored : Mirrored part node node') :
    node'.Aside cell d e where
  tick m answer n depth ticked := by
    have same := mirrored.tick m
    rw [ticked] at same
    exact h.tick _ answer _ depth same
  reset fire m n ended := by
    have same := mirrored.reset e fire m
    rw [ended] at same
    exact h.reset fire _ _ same

/-- The node does at depth `d` once per run what belongs to the start of a run, wherever else it is ticked and reset. It
is enough that its parts leave alone what it remembers there. -/
structure Keeps (manner : Manner σ) (cell : Cell ρ σ) (d : Nat) (apart : (depth : Nat) → Prop)
    (node : Behaviour ρ (Minutes μ σ) σ) : Prop where
  here : apart d → OncePerRun manner cell d node
  elsewhere : ∀ e, e ≠ d → apart e → node.Aside cell d e

theorem Keeps.mono {manner : Manner σ} {cell : Cell ρ σ} {d : Nat} {apart apart' : (depth : Nat) → Prop}
    {node : Behaviour ρ (Minutes μ σ) σ} (h : Keeps manner cell d apart node) (enough : ∀ e, apart' e → apart e) :
    Keeps manner cell d apart' node :=
  ⟨fun here => h.here (enough d here), fun e other there => h.elsewhere e other (enough e there)⟩

end BehaviorTree
