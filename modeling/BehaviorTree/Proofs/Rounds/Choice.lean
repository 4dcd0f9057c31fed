/-
  BehaviorTree.Proofs.Rounds.Choice: one child in each run, round by round.

  The child is picked when a run starts and kept until the run ends. The picker is asked at the
  start of a run, and told when the child has ended. It outlives the runs, so the rounds of such a
  node are told apart from what goes on between them by both (`choosing`): nothing but the node
  itself, at this depth, uses the slot there and the picker.

  If a picker that is asked again picks the same child, an abandoned run costs no turn. So the
  children of the runs that end are those of the picker's turns, one after the other (`Turning`).
-/

import BehaviorTree.Proofs.Rounds.Reactive
import BehaviorTree.Proofs.Turns

namespace BehaviorTree

variable {μ σ : Type}

/-! ## The children whose runs end -/

/-- The children that have ended, in order. -/
def ended (visits : List Visit) : List Nat := (visits.filter (·.status.isTerminal)).map (·.child)

/-- Every visit is one of the child whose turn it is after the runs that have ended. -/
def InTurn (n : Nat) (p : Picker) : List Visit → Prop :=
  Lawful fun before v => p.turn n (ended before).length = some v.child

section
variable {n : Nat} {p : Picker} {visits : List Visit} {v w : Visit}

theorem ended_snoc : ended (visits ++ [v]) = ended visits ++ if v.status.isTerminal then [v.child] else [] := by
  cases terminal : v.status.isTerminal <;> simp [ended, terminal]

theorem ended_running (running : v.status = .running) : ended (visits ++ [v]) = ended visits := by
  rw [ended_snoc, running]
  exact List.append_nil _

theorem ended_terminal (terminal : v.status.isTerminal = true) : ended (visits ++ [v]) = ended visits ++ [v.child] := by
  rw [ended_snoc, if_pos terminal]

/-- The k-th run that ends is one of the child whose turn is the k-th. -/
theorem InTurn.of_ended (h : InTurn n p visits) {k : Nat} (room : k < (ended visits).length) :
    (ended visits)[k]? = p.turn n k := by
  induction visits using List.reverseRecOn with
  | nil => cases room
  | append_singleton visits v ih =>
    have here : p.turn n (ended visits).length = some v.child := h visits v [] rfl
    cases terminal : v.status.isTerminal with
    | false =>
      have running : v.status = .running := by simpa [Status.isTerminal, Status.isRunning_iff] using terminal
      rw [ended_running running] at room ⊢
      exact ih h.of_append room
    | true =>
      rw [ended_terminal terminal] at room ⊢
      rcases Nat.lt_or_eq_of_le (Nat.le_of_lt_succ (by simpa using room)) with earlier | rfl
      · rw [List.getElem?_append_left earlier]
        exact ih h.of_append earlier
      · rw [List.getElem?_concat_length, here]

/-- A run that has not ended is gone on with, or the next one is of the same child. -/
theorem InTurn.again (h : InTurn n p visits) {before after : List Visit} (split : visits = before ++ v :: w :: after)
    (running : v.status = .running) : w.child = v.child := by
  have first : p.turn n (ended before).length = some v.child := h before v (w :: after) split
  have second : p.turn n (ended (before ++ [v])).length = some w.child := h (before ++ [v]) w after (by simp [split])
  rw [ended_running running, first] at second
  exact (Option.some_inj.mp second).symm

end

/-! ## The node and its picker -/

/-- The store, beside a ledger. -/
def Stage.ledger : Stage (Ledger (Store σ)) μ σ where
  store := Ledger.below
  onStore f l := { l with below := f l.below }
  watch _ b := b
  store_onStore _ _ := rfl

/-- The picker of the node, and no other part of the store, is put in place. -/
def Machine.withPicker (m : Machine (Ledger (Store σ)) μ σ) (site : Address) (p : Picker) :
    Machine (Ledger (Store σ)) μ σ :=
  m.onRuns fun l => { l with below := l.below.setPicker site p }

/-- The picker of the node. -/
def Machine.pickerAt (m : Machine (Ledger (Store σ)) μ σ) (site : Address) (initial : Picker) : Picker :=
  m.runs.below.pickerAt site initial

/-- Work after which the picker of the node is as it was before. -/
def Run.Spares {α : Type} (site : Address) (work : Run (Store σ) μ σ α) : Prop :=
  ∀ m x n, work m = .ok x n → ∀ initial, n.runs.pickerAt site initial = m.runs.pickerAt site initial

namespace Behaviour

/-- The child leaves the picker of the node alone: it does not come back to the node at another depth. -/
structure Spares (site : Address) (child : Behaviour (Store σ) μ σ) : Prop where
  tick : child.tick.Spares site
  reset : ∀ d fire, (child.reset d fire).Spares site

/-- The node at this address, which runs the child that its picker picks. -/
def pickOne (site : Address) (initial : Picker) (children : List (Behaviour (Store σ) μ σ)) :
    Behaviour (Ledger (Store σ)) μ σ :=
  selectOne (Store.cell site).booked (Stage.ledger.chooser site (.picker initial)) (bookedAll children)

end Behaviour

/-- A tick or a reset of a node at the depth, with a blank ledger. -/
inductive Rounded {ρ : Type} (d : Nat) (node : Behaviour (Ledger ρ) μ σ) (m : Machine (Ledger ρ) μ σ) :
    Round → Machine (Ledger ρ) μ σ → Prop
  | tick {status : Status} {n : Machine (Ledger ρ) μ σ} : m.context.depth = d → m.runs.dealings = [] →
      node.tick m = .ok status n → Rounded d node m (.tick n.runs.dealings status) n
  | reset {fire : Bool} {n : Machine (Ledger ρ) μ σ} : m.runs.dealings = [] →
      node.reset d fire m = .ok () n → Rounded d node m (.reset fire n.runs.dealings) n

/-- A node that is at work at this depth only. Between its rounds all may change, but for what it remembers at this depth
and its picker. -/
def choosing (site : Address) (initial : Picker) (d : Nat) (node : Behaviour (Ledger (Store σ)) μ σ) :
    Going Round (Machine (Ledger (Store σ)) μ σ) where
  starts m := (Store.cell site).get m.runs.below d = .idle ∧ m.pickerAt site initial = initial
  aside m n := (Store.cell site).get n.runs.below d = (Store.cell site).get m.runs.below d ∧
    n.pickerAt site initial = m.pickerAt site initial
  step := Rounded d node

/-- What the node may remember and what its picker may be when these children were left running, if the picker was `p`
at the end of the last run that ended. -/
inductive Awaits (n : Nat) (p : Picker) : Slot σ → Picker → List Nat → Prop
  | idle : Awaits n p .idle p []
  /-- The run was abandoned. -/
  | asked : Awaits n p .idle (p.asked n) []
  | running {child : Nat} : (p.pick n).1 = some child → Awaits n p (.child child) (p.asked n) [child]

/-- Abandoning the run changes nothing about whose turn it is. -/
theorem Awaits.abandoned {n : Nat} {p q : Picker} {slot : Slot σ} {left : List Nat} (h : Awaits n p slot q left) :
    Awaits n p (.idle : Slot σ) q [] := by
  cases h with
  | idle => exact .idle
  | asked | running => exact .asked

/-- All visits were made in turn, and the next one will be. -/
structure Turning (site : Address) (initial : Picker) (d n : Nat) (rounds : List Round)
    (m : Machine (Ledger (Store σ)) μ σ) : Prop where
  inTurn : InTurn n initial (visitsIn rounds)
  awaits : Awaits n (initial.after n (ended (visitsIn rounds)).length) ((Store.cell site).get m.runs.below d)
    (m.pickerAt site initial) (leftBy rounds)

section
variable {site : Address} {initial p : Picker} {d : Nat} {m : Machine (Ledger (Store σ)) μ σ}

@[simp] theorem pickerAt_withPicker : (m.withPicker site p).pickerAt site initial = p := by
  simp [Machine.withPicker, Machine.pickerAt, Store.setPicker, Store.pickerAt]

theorem pickerAt_set {slot : Slot σ} :
    (m.onRuns ((Store.cell site).booked.set · d slot)).pickerAt site initial = m.pickerAt site initial := rfl

theorem pickerAt_reset :
    (m.onRuns ((Store.cell site).booked.reset · d)).pickerAt site initial = m.pickerAt site initial := rfl

theorem Midway.withPicker {slot : Slot σ} {visits : List Visit} (h : Midway (Store.cell site) d slot visits m) :
    Midway (Store.cell site) d slot visits (m.withPicker site p) :=
  ⟨⟨h.slot, h.dealings⟩, h.depth⟩

/-- What is known anyhow of a result that is good. -/
theorem Settles.also {ρ α : Type} {post post' : α → Machine (Ledger ρ) μ σ → Prop}
    {result : EStateM.Result Fault (Machine (Ledger ρ) μ σ) α} (h : Settles post result)
    (known : ∀ x k, result = .ok x k → post' x k) : Settles (fun x k => post x k ∧ post' x k) result := by
  cases h with
  | ok h => exact .ok ⟨h, known _ _ rfl⟩
  | error failed => exact .error failed

/-- The child whose turn it was has been ticked. -/
theorem Turning.visited {n : Nat} {rounds : List Round} {v : Visit} {k : Machine (Ledger (Store σ)) μ σ}
    (turning : Turning site initial d n rounds m) (turn : initial.turn n (ended (visitsIn rounds)).length = some v.child)
    (awaits : Awaits n
      (if v.status.isTerminal then (initial.after n (ended (visitsIn rounds)).length).next n
        else initial.after n (ended (visitsIn rounds)).length)
      ((Store.cell site).get k.runs.below d) (k.pickerAt site initial) (if v.status = .running then [v.child] else [])) :
    Turning site initial d n (rounds ++ [Round.tick [.ticked v] v.status]) k := by
  have visits : visitsIn (rounds ++ [Round.tick [.ticked v] v.status]) = visitsIn rounds ++ [v] := visitsIn_snoc
  have left : leftBy (rounds ++ [Round.tick [.ticked v] v.status]) = if v.status = .running then [v.child] else [] := by
    simp only [leftBy, List.getLast?_concat, visitsOf, List.filterMap_cons, List.filterMap_nil, List.filter_singleton]
    split <;> simp_all
  have passed : initial.after n (ended (visitsIn rounds ++ [v])).length =
      if v.status.isTerminal then (initial.after n (ended (visitsIn rounds)).length).next n
        else initial.after n (ended (visitsIn rounds)).length := by
    rw [ended_snoc]
    split
    · rw [List.length_append, List.length_singleton, Picker.after_succ]
    · rw [List.append_nil]
  refine ⟨?_, ?_⟩
  · rw [visits]
    exact turning.inTurn.snoc turn
  · rw [visits, left, passed]
    exact awaits

theorem booked_spares {α : Type} {work : Run (Store σ) μ σ α} {number : Nat} {entry : α → Machine (Store σ) μ σ → Dealing}
    (spares : work.Spares site) {x : α} {k : Machine (Ledger (Store σ)) μ σ} (ok : work.booked number entry m = .ok x k) :
    k.pickerAt site initial = m.pickerAt site initial := by
  unfold Run.booked at ok
  split at ok
  · next ran =>
    cases ok
    exact spares _ _ _ ran initial
  · cases ok

end

namespace Behaviour

section
variable {site : Address} {initial p : Picker} {d n child : Nat} {children : List (Behaviour (Store σ) μ σ)}
  {slot : Slot σ} {left : List Nat} {m : Machine (Ledger (Store σ)) μ σ}

/-- The child whose turn it is has been chosen; the picker has been asked. -/
theorem choose_awaits (again : (p.asked n).pick n = p.pick n) (turn : (p.pick n).1 = some child)
    (awaits : Awaits n p slot (m.pickerAt site initial) left) (begun : Midway (Store.cell site) d slot [] m) :
    ∃ k, choose (Store.cell site).booked (Stage.ledger.chooser site (.picker initial)) n d m = .ok (some child) k ∧
      Midway (Store.cell site) d slot [] k ∧ k.pickerAt site initial = p.asked n := by
  have picks {q : Picker} (here : m.pickerAt site initial = q) (same : q.pick n = p.pick n) :
      (Stage.ledger.chooser site (.picker initial)).pick n m = .ok (some child) (m.withPicker site (p.asked n)) := by
    rw [← turn, Picker.asked, ← same, ← here]
    rfl
  rw [choose, Cell.read_bind, show (Store.cell site).booked.get m.runs d = slot from begun.slot]
  generalize standing : m.pickerAt site initial = q at awaits
  cases awaits with
  | idle => exact ⟨_, picks standing rfl, begun.withPicker, pickerAt_withPicker⟩
  | asked => exact ⟨_, picks standing again, begun.withPicker, pickerAt_withPicker⟩
  | running same =>
    rw [turn] at same
    cases same
    exact ⟨m, rfl, begun, standing⟩

variable (apart : ∀ child ∈ children, child.Apart (Store.cell site) d) (spares : ∀ child ∈ children, child.Spares site)
include apart spares

/-- The chosen child is ticked. If that ends it, its turn is over. -/
theorem tickChosen_awaits (turn : (p.pick n).1 = some child) (below : child < children.length)
    (begun : Midway (Store.cell site) d slot [] m) (asked : m.pickerAt site initial = p.asked n) :
    Settles (fun answer k => ∃ v : Visit, k.runs.dealings = [.ticked v] ∧ v.child = child ∧ v.status = answer ∧
        Awaits n (if v.status.isTerminal then p.next n else p) ((Store.cell site).get k.runs.below d)
          (k.pickerAt site initial) (if v.status = .running then [child] else []))
      (tickChosen (Store.cell site).booked (Stage.ledger.chooser site (.picker initial)) (bookedAll children) d child m) := by
  have among : children[child] ∈ children := List.getElem_mem below
  unfold tickChosen
  rw [getElem?_bookedFrom, List.getElem?_eq_getElem below, Nat.zero_add]
  have ticks := (begun.ticks (apart _ among) child).also fun status k ran =>
    (booked_spares (spares _ among).tick ran).trans asked
  refine ticks.bind fun status k came => ?_
  obtain ⟨⟨v, same, rfl, -, came⟩, asked⟩ := came
  by_cases running : v.status = .running
  · rw [if_pos (by rw [running]; rfl)]
    show Settles _ (.ok v.status (k.onRuns ((Store.cell site).booked.set · d (.child child))))
    have kept := came.toBooked.set (x := .child child) Store.cell_holds
    refine .ok ⟨v, kept.dealings, same, rfl, ?_⟩
    rw [kept.slot, pickerAt_set, asked, if_pos running, running]
    exact .running turn
  · have terminal : v.status.isTerminal = true := Status.isTerminal_iff.mpr running
    rw [if_neg (by simpa [Status.isTerminal] using terminal)]
    show Settles _ (.ok v.status ((k.onRuns ((Store.cell site).booked.reset · d)).withPicker site
      ((k.pickerAt site initial).complete child)))
    have forgotten := came.toBooked.reset Store.cell_holds
    refine .ok ⟨v, forgotten.dealings, same, rfl, ?_⟩
    rw [pickerAt_withPicker, if_pos terminal, if_neg running, asked, ← Picker.next_eq turn]
    exact (forgotten.slot : _ = Slot.idle) ▸ .idle

/-- The node is ticked. -/
theorem pickOne_tick {rounds : List Round} (steady : initial.Steady children.length)
    (turning : Turning site initial d children.length rounds m) (depth : m.context.depth = d)
    (blank : m.runs.dealings = []) :
    Settles (fun answer k => ∃ v : Visit, k.runs.dealings = [.ticked v] ∧ v.status = answer ∧
        Turning site initial d children.length (rounds ++ [Round.tick [.ticked v] answer]) k)
      ((pickOne site initial children).tick m) := by
  obtain ⟨child, below, turn⟩ := steady.picks (ended (visitsIn rounds)).length
  have again := steady.again (ended (visitsIn rounds)).length
  obtain ⟨k, chosen, begun, asked⟩ := choose_awaits again turn turning.awaits ⟨⟨rfl, blank⟩, depth⟩
  show Settles _ ((Run.depth >>= _) m)
  rw [Run.depth_bind, depth, length_bookedFrom, Run.bind_ok chosen]
  refine (tickChosen_awaits apart spares turn below begun asked).mono fun answer k came => ?_
  obtain ⟨v, dealt, rfl, rfl, awaits⟩ := came
  exact ⟨v, dealt, rfl, turning.visited turn awaits⟩

/-- The child that was left running, if any, is reset. -/
theorem pickOne_resets (picks : ∀ child, (p.pick n).1 = some child → child < children.length)
    (awaits : Awaits n p slot (m.pickerAt site initial) left) (begun : Booked (Store.cell site) d slot [] m) (fire : Bool) :
    Settles (fun _ k => Booked (Store.cell site) d .idle (resetsOf d fire left) k ∧
      k.pickerAt site initial = m.pickerAt site initial) ((pickOne site initial children).reset d fire m) := by
  show Settles _ ((Store.cell site).booked.resetChild (bookedAll children) d fire m)
  have slot_eq : (Store.cell site).booked.get m.runs d = slot := begun.slot
  obtain ⟨q, standing⟩ : ∃ q, m.pickerAt site initial = q := ⟨_, rfl⟩
  rw [standing] at awaits
  cases awaits with
  | idle | asked =>
    rw [Cell.resetChild_apply, slot_eq]
    exact .ok ⟨begun.reset Store.cell_holds, rfl⟩
  | @running child turn =>
    have below := picks child turn
    refine (resetChild_settles Store.cell_holds apart below begun).also fun _ k ran => ?_
    rw [Cell.resetChild_apply, slot_eq] at ran
    dsimp only at ran
    rw [getElem?_bookedFrom, List.getElem?_eq_getElem below, Nat.zero_add] at ran
    exact (booked_spares ((spares _ (List.getElem_mem below)).reset d fire) ran).trans pickerAt_reset

/-- The node is reset, and it is still the turn of the same child. -/
theorem pickOne_reset {rounds : List Round} (steady : initial.Steady children.length)
    (turning : Turning site initial d children.length rounds m) (blank : m.runs.dealings = []) (fire : Bool) :
    Settles (fun _ k => Booked (Store.cell site) d .idle (resetsOf d fire (leftBy rounds)) k ∧
        Turning site initial d children.length (rounds ++ [Round.reset fire (resetsOf d fire (leftBy rounds))]) k)
      ((pickOne site initial children).reset d fire m) := by
  obtain ⟨child, below, turn⟩ := steady.picks (ended (visitsIn rounds)).length
  have picks : ∀ other, ((initial.after children.length (ended (visitsIn rounds)).length).pick children.length).1 =
      some other → other < children.length := fun other same => by
    rw [← Option.some_inj.mp (turn.symm.trans same)]
    exact below
  refine (pickOne_resets apart spares picks turning.awaits ⟨rfl, blank⟩ fire).mono fun _ k came => ?_
  obtain ⟨came, picker⟩ := came
  have visits : visitsIn (rounds ++ [Round.reset fire (resetsOf d fire (leftBy rounds))]) = visitsIn rounds := by
    rw [visitsIn_snoc, Round.dealings, visitsOf_resets, List.append_nil]
  have left : leftBy (rounds ++ [Round.reset fire (resetsOf d fire (leftBy rounds))]) = [] := by simp [leftBy]
  refine ⟨came, ?_, ?_⟩
  · rw [visits]
    exact turning.inTurn
  · rw [visits, left, came.slot, picker]
    exact turning.awaits.abandoned

/-- So it goes on, round by round. -/
theorem pickOne_turning {rounds : List Round} (steady : initial.Steady children.length)
    (h : (choosing site initial d (pickOne site initial children)).Reaches rounds m) :
    Turning site initial d children.length rounds m := by
  refine h.invariant (Turning site initial d children.length) ?_ ?_ ?_
  · rintro m ⟨idle, fresh⟩
    refine ⟨.nil, ?_⟩
    rw [idle, fresh]
    exact .idle
  · rintro rounds m n turning ⟨slot, picker⟩
    refine ⟨turning.inTurn, ?_⟩
    rw [slot, picker]
    exact turning.awaits
  · rintro rounds m round n turning (⟨depth, blank, ok⟩ | ⟨blank, ok⟩)
    · obtain ⟨v, dealt, rfl, after⟩ := (pickOne_tick apart spares steady turning depth blank).of_ok ok
      rwa [dealt]
    · obtain ⟨came, after⟩ := (pickOne_reset apart spares steady turning blank _).of_ok ok
      rwa [came.dealings]

end

/-- With a ledger, the node does what it does without one. -/
theorem pickOne_booking {site : Address} {initial : Picker} {children : List (Behaviour (Store σ) μ σ)}
    (level : ∀ child ∈ children, child.Level) :
    Booking (selectOne (Store.cell site) (Stage.plain.chooser site (.picker initial)) children)
      (pickOne site initial children) := by
  have cells := (Store.cell (σ := σ) site).booked_cells
  have locked := locked_bookedFrom level 0
  have uses {α : Type} (f : Picker → α × Picker) (d : Nat) : Lock (μ := μ) (σ := σ) Ledger.Fine Ledger.Beside d
      (fun m => .ok (f (m.runs.pickerAt site initial)).1
        (m.onRuns (·.setPicker site (f (m.runs.pickerAt site initial)).2)))
      (fun m => .ok (f (m.pickerAt site initial)).1 (m.withPicker site (f (m.pickerAt site initial)).2)) := by
    refine .step _ _ (fun _ => rfl) (fun _ h => h) fun m m' h _ => ?_
    have same : m.runs = m'.runs.below := h.runs
    rw [same]
    have picker : m.runs.setPicker site (f (m'.runs.below.pickerAt site initial)).2 =
        m'.runs.below.setPicker site (f (m'.runs.below.pickerAt site initial)).2 := by rw [same]
    exact ⟨_, rfl, ⟨h.same.context, h.same.memory, h.same.journal, h.same.heard⟩, h.depth, picker⟩
  exact .of_lock
    (selectOne_lock cells (fun count d => uses (·.pick count) d) (fun i d => uses (fun p => ((), p.complete i)) d) locked)
    (resetChild_lock cells (fun _ _ _ same => same) locked)

end Behaviour

/-! ## Fairness -/

/-- The children in their order, and again from the first on. -/
def RoundAndRound (n : Nat) (ended : List Nat) : Prop := ∀ k child, ended[k]? = some child → child = k % n

/-- All children once, in some order, and again all of them in some order. -/
def AllInEachRound (n : Nat) (ended : List Nat) : Prop :=
  ∀ k, (k + 1) * n ≤ ended.length → ((ended.drop (k * n)).take n).Perm (List.range n)

section
variable {n : Nat} {visits : List Visit}

theorem InTurn.roundAndRound (positive : 0 < n) (fits : n ≤ UInt64.size) (h : InTurn n (.rotation {}) visits) :
    RoundAndRound n (ended visits) := by
  intro k child there
  have room := (List.getElem?_eq_some_iff.mp there).1
  rw [h.of_ended room, Picker.turn_rotation positive fits] at there
  exact (Option.some_inj.mp there).symm

theorem InTurn.allInEachRound (positive : 0 < n) {seed : UInt64} (h : InTurn n (.bag (.ofSeed seed)) visits) :
    AllInEachRound n (ended visits) := by
  intro k enough
  obtain ⟨order, filled, turns⟩ := Picker.turn_bag positive seed k
  have size : order.size = n := by simpa using filled.size_eq
  have round : ((ended visits).drop (k * n)).take n = order.toList := by
    refine List.ext_getElem? fun place => ?_
    rw [List.getElem?_take]
    split
    · next room =>
      rw [List.getElem?_drop, h.of_ended (by rw [Nat.succ_mul] at enough; omega), turns place room, Array.getElem?_toList]
    · next beyond => exact (List.getElem?_eq_none (by simpa [size] using beyond)).symm
  rw [round, ← Array.toList_range]
  exact filled.toList

end

namespace Behaviour

/-- A node at work at one depth: each tick visits one child and answers what it answers, a reset resets the child that
was left running and forgets it, the children whose runs end are fairly chosen, and a run that was not brought to its
end is followed by one of the same child. -/
structure TakesTurns (site : Address) (initial : Picker) (d : Nat) (children : List (Behaviour (Store σ) μ σ))
    (fair : List Nat → Prop) : Prop where
  tick : ∀ rounds m, (choosing site initial d (pickOne site initial children)).Reaches rounds m →
    m.context.depth = d → m.runs.dealings = [] →
    Settles (fun answer k => ∃ v : Visit, k.runs.dealings = [.ticked v] ∧ v.status = answer)
      ((pickOne site initial children).tick m)
  reset : ∀ rounds fire m, (choosing site initial d (pickOne site initial children)).Reaches rounds m →
    m.runs.dealings = [] → Settles (fun _ k => Booked (Store.cell site) d .idle (resetsOf d fire (leftBy rounds)) k)
      ((pickOne site initial children).reset d fire m)
  fair : ∀ rounds m, (choosing site initial d (pickOne site initial children)).Reaches rounds m →
    fair (ended (visitsIn rounds))
  again : ∀ rounds m, (choosing site initial d (pickOne site initial children)).Reaches rounds m →
    ∀ before v w after, visitsIn rounds = before ++ v :: w :: after → v.status = .running → w.child = v.child

section
variable {site : Address} {d : Nat} {children : List (Behaviour (Store σ) μ σ)}
  (apart : ∀ child ∈ children, child.Apart (Store.cell site) d) (spares : ∀ child ∈ children, child.Spares site)
include apart spares

theorem takesTurns {initial : Picker} {fair : List Nat → Prop} (steady : initial.Steady children.length)
    (fairly : ∀ visits, InTurn children.length initial visits → fair (ended visits)) :
    TakesTurns site initial d children fair where
  tick _ _ reached depth blank :=
    (pickOne_tick apart spares steady (pickOne_turning apart spares steady reached) depth blank).mono
      fun _ _ ⟨v, dealt, same, _⟩ => ⟨v, dealt, same⟩
  reset _ fire _ reached blank :=
    (pickOne_reset apart spares steady (pickOne_turning apart spares steady reached) blank fire).mono fun _ _ => And.left
  fair _ _ reached := fairly _ (pickOne_turning apart spares steady reached).inTurn
  again _ _ reached _ _ _ _ split running :=
    (pickOne_turning apart spares steady reached).inTurn.again split running

/-- Nodes that run one child per run, at work at one depth only. With a rotation, the k-th run that ends is one of the
k-th child, counted round and round. With a bag, in each row of as many such runs as there are children every child has
one. With either, a run that is abandoned is followed by one of the same child, however often that happens. -/
theorem turns_are_fair (some : 0 < children.length) :
    (children.length ≤ UInt64.size →
        TakesTurns site (.rotation {}) d children (RoundAndRound children.length)) ∧
      ∀ seed, TakesTurns site (.bag (.ofSeed seed)) d children (AllInEachRound children.length) :=
  ⟨fun fits => takesTurns apart spares (Picker.rotation_steady some fits) fun _ inTurn => inTurn.roundAndRound some fits,
    fun seed => takesTurns apart spares (Picker.bag_steady some seed) fun _ inTurn => inTurn.allInEachRound some⟩

end

/-- One tick of the node, or one reset, and its round. It is a reset if something is said of scopes. -/
def roundOf {ρ : Type} (node : Behaviour (Ledger ρ) μ σ) (d : Nat) (m : Machine (Ledger ρ) μ σ) :
    Option Bool → Option (Round × Machine (Ledger ρ) μ σ)
  | none => match node.tick m with
    | .ok status n => if m.context.depth = d then some (.tick n.runs.dealings status, n) else none
    | .error _ _ => none
  | some fire => match node.reset d fire m with
    | .ok () n => some (.reset fire n.runs.dealings, n)
    | .error _ _ => none

theorem roundOf_rounded {ρ : Type} {node : Behaviour (Ledger ρ) μ σ} {d : Nat} {m n : Machine (Ledger ρ) μ σ}
    {use : Option Bool} {round : Round} (blank : m.runs.dealings = []) (h : node.roundOf d m use = some (round, n)) :
    Rounded d node m round n := by
  cases use with
  | none =>
    dsimp only [roundOf] at h
    split at h
    · next ok =>
      split at h
      · next depth =>
        cases h
        exact .tick depth blank ok
      · cases h
    · cases h
  | some fire =>
    dsimp only [roundOf] at h
    split at h
    · next ok =>
      cases h
      exact .reset blank ok
    · cases h

/-- One after the other, with a blank ledger for each. -/
def played {ρ : Type} (node : Behaviour (Ledger ρ) μ σ) (d : Nat) (m : Machine (Ledger ρ) μ σ)
    (uses : List (Option Bool)) : Option (List Round) :=
  Going.played (node.roundOf d) (fun n => n.withRuns { n.runs with dealings := [] }) m uses

theorem played_reaches {site : Address} {initial : Picker} {d : Nat} {node : Behaviour (Ledger (Store σ)) μ σ}
    {uses : List (Option Bool)} {before rounds : List Round} {m : Machine (Ledger (Store σ)) μ σ}
    (reached : (choosing site initial d node).Reaches before m) (blank : m.runs.dealings = [])
    (h : node.played d m uses = some rounds) :
    ∃ n, (choosing site initial d node).Reaches (before ++ rounds) n := by
  refine reached.played (fun m => m.runs.dealings = []) ?_ ?_ ?_ blank h
  · exact fun _ _ _ _ => roundOf_rounded
  · exact fun _ => ⟨rfl, rfl⟩
  · exact fun _ => rfl

/-- Three children that answer what they are told to. -/
def trioInStore : List (Behaviour (Store Unit) (List (Status × Bool)) Unit) := [obedient, obedient, obedient]

theorem trioInStore_apart {site : Address} {d : Nat} : ∀ child ∈ trioInStore, child.Apart (Store.cell site) d := by
  simp [trioInStore, obedient_apart]

theorem trioInStore_spares {site : Address} : ∀ child ∈ trioInStore, child.Spares site := by
  have spares : (obedient : Behaviour (Store Unit) (List (Status × Bool)) Unit).Spares site := by
    refine ⟨fun m status n h initial => ?_, fun d fire m u n h initial => ?_⟩
    · simp only [obedient, ofTick, Run.requestReturn, Run.bind_eq_ok, Run.consult_eq_ok, Run.onContext_eq_ok,
        Run.ite_eq_ok, Run.pure_eq_ok] at h
      obtain ⟨_, _, ⟨rfl, rfl⟩, ⟨-, _, _, rfl, -, rfl⟩ | ⟨-, -, rfl⟩⟩ := h
      all_goals rfl
    · cases h
      rfl
  simp [trioInStore, spares]

/-- A machine on which nothing has run yet, with what the children are to answer: the first two runs are not brought to
their end, the next four are. -/
def sixRuns : Machine (Ledger (Store Unit)) (List (Status × Bool)) Unit :=
  ⟨{}, [(.running, false), (.running, false), (.success, false), (.failure, false), (.success, false), (.success, false)],
    ⟨{}, []⟩, #[], #[]⟩

/-- The node is reset after each of the runs that do not end. -/
def twiceAbandoned : List (Option Bool) := [none, some true, none, some false, none, none, none, none]

/-- The first child has its turn though its run is abandoned twice. Then it is the turn of the others. -/
theorem trio_takes_turns :
    (∃ rounds m, (choosing [0] (.rotation {}) 0 (pickOne [0] (.rotation {}) trioInStore)).Reaches rounds m ∧
        (visitsIn rounds).map (·.child) = [0, 0, 0, 1, 2, 0] ∧ RoundAndRound 3 (ended (visitsIn rounds))) ∧
      ∃ rounds m, (choosing [0] (.bag (.ofSeed 7)) 0 (pickOne [0] (.bag (.ofSeed 7)) trioInStore)).Reaches rounds m ∧
        (visitsIn rounds).map (·.child) = [1, 1, 1, 2, 0, 2] ∧ AllInEachRound 3 (ended (visitsIn rounds)) := by
  have apart : ∀ child ∈ trioInStore, child.Apart (Store.cell [0]) 0 := trioInStore_apart
  have turns := turns_are_fair apart trioInStore_spares (by decide)
  have start (initial : Picker) : (choosing [0] initial 0 (pickOne [0] initial trioInStore)).Reaches [] sixRuns :=
    .start ⟨rfl, rfl⟩
  constructor
  · have ran : ((pickOne [0] (.rotation {}) trioInStore).played 0 sixRuns twiceAbandoned).map
        (fun rounds => (visitsIn rounds).map (·.child)) = some [0, 0, 0, 1, 2, 0] := by decide +kernel
    obtain ⟨rounds, played, same⟩ := Option.map_eq_some_iff.mp ran
    obtain ⟨m, reached⟩ := played_reaches (start _) rfl played
    exact ⟨rounds, m, reached, same, (turns.1 (by decide)).fair _ _ reached⟩
  · have ran : ((pickOne [0] (.bag (.ofSeed 7)) trioInStore).played 0 sixRuns twiceAbandoned).map
        (fun rounds => (visitsIn rounds).map (·.child)) = some [1, 1, 1, 2, 0, 2] := by decide +kernel
    obtain ⟨rounds, played, same⟩ := Option.map_eq_some_iff.mp ran
    obtain ⟨m, reached⟩ := played_reaches (start _) rfl played
    exact ⟨rounds, m, reached, same, (turns.2 7).fair _ _ reached⟩

end Behaviour

end BehaviorTree
