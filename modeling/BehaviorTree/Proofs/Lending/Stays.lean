/-
  BehaviorTree.Proofs.Lending.Stays: which state is in force, as a history tells it.

  A history tells which nodes a tick is in, its stays, and for each of them where the run started
  that the tick goes on with (`startOf`): with the first entry of the place since its last run
  ended or was abandoned. A call that makes a state for its tree makes it there, and lends it from
  then on at all ticks of that run. So the stays say which state a node sees that is entered next
  (`System.stateAt`): the one that the innermost such call around it has lent, or else the one that
  the tick was given. A tick that a callback starts is given none.
-/

import BehaviorTree.Proofs.Overlay.Suspended

namespace BehaviorTree

variable {μ σ : Type}

/-! ## Runs -/

/-- Where the unfinished run at a place started, after one more moment. -/
def startNext (p : Place) (old : Option (Scene μ σ)) : Moment μ σ → Option (Scene μ σ)
  | .entered site scene => if ⟨site, scene.context.depth⟩ = p then some (old.getD scene) else old
  | .left site status scene => if ⟨site, scene.context.depth⟩ = p ∧ status.isTerminal then none else old
  | .abandoned site depth _ _ => if ⟨site, depth⟩ = p then none else old

/-- The scene in which the run started that is unfinished at a place. -/
def startOf (p : Place) (history : List (Moment μ σ)) : Option (Scene μ σ) := history.foldl (startNext p) none

section
variable {p : Place} {history : List (Moment μ σ)} {site : Address} {scene : Scene μ σ} {status : Status}

theorem startOf_snoc (x : Moment μ σ) : startOf p (history ++ [x]) = startNext p (startOf p history) x := by
  rw [startOf, List.foldl_append]
  rfl

/-- What happens elsewhere does not matter. -/
theorem startOf_elsewhere {x : Moment μ σ} (elsewhere : ¬ x.At p) : startOf p (history ++ [x]) = startOf p history := by
  rw [startOf_snoc]
  cases x with
  | entered | abandoned => exact if_neg elsewhere
  | left => exact if_neg fun both => elsewhere both.1

theorem startOf_ended (there : ⟨site, scene.context.depth⟩ = p) (terminal : status.isTerminal) :
    startOf p (history ++ [Moment.left site status scene]) = none := by
  rw [startOf_snoc]
  exact if_pos ⟨there, terminal⟩

theorem startOf_suspended (running : ¬ status.isTerminal = true) :
    startOf p (history ++ [Moment.left site status scene]) = startOf p history := by
  rw [startOf_snoc]
  exact if_neg fun both => running both.2

theorem startOf_abandoned {depth : Nat} {fire : Bool} (there : ⟨site, depth⟩ = p) :
    startOf p (history ++ [Moment.abandoned site depth fire scene]) = none := by
  rw [startOf_snoc]
  exact if_pos there

end

/-! ## Stays -/

/-- A node that a tick is in. -/
structure Stay (μ σ : Type) where
  site : Address
  /-- When the tick entered it. -/
  scene : Scene μ σ
  /-- When the run started that the tick goes on with. -/
  since : Scene μ σ

/-- The stay that starts when a node is entered. -/
def Stay.of (history : List (Moment μ σ)) (site : Address) (scene : Scene μ σ) : Stay μ σ :=
  ⟨site, scene, (startOf ⟨site, scene.context.depth⟩ history).getD scene⟩

theorem startOf_entered {p : Place} {history : List (Moment μ σ)} {site : Address} {scene : Scene μ σ}
    (there : ⟨site, scene.context.depth⟩ = p) :
    startOf p (history ++ [Moment.entered site scene]) = some (Stay.of history site scene).since := by
  subst there
  rw [startOf_snoc]
  exact if_pos rfl

/-- The stays after one more moment, the innermost first. -/
def staysNext (history : List (Moment μ σ)) (stays : List (Stay μ σ)) : Moment μ σ → List (Stay μ σ)
  | .entered site scene => .of history site scene :: stays
  | .left _ _ _ => stays.tail
  | .abandoned _ _ _ _ => stays

/-- The stays after some more moments. -/
def staysAfter (history : List (Moment μ σ)) (stays : List (Stay μ σ)) : List (Moment μ σ) → List (Stay μ σ)
  | [] => stays
  | x :: xs => staysAfter (history ++ [x]) (staysNext history stays x) xs

theorem staysAfter_append (history : List (Moment μ σ)) (stays : List (Stay μ σ)) (xs ys : List (Moment μ σ)) :
    staysAfter history stays (xs ++ ys) = staysAfter (history ++ xs) (staysAfter history stays xs) ys := by
  induction xs generalizing history stays with
  | nil => rw [List.append_nil]; rfl
  | cons x xs ih => rw [List.cons_append, staysAfter, ih, staysAfter, List.append_assoc]; rfl

/-! ## States -/

/-- The memory once a call has looked its tree up. -/
def Source.after : Source μ → μ → μ
  | .fixed _, memory => memory
  | .provided provide, memory => (provide memory).2

/-- The state that a call makes for its tree when its run starts, out of the state that it sees itself. -/
def madeAt (source : Source μ) (make : StateMaker μ σ) (start : Scene μ σ) : σ :=
  (make start.context.state (source.after start.memory)).1

namespace System

variable (sys : System μ σ)

/-- The state that a node sees which is entered within these stays, in a tick that was given `given`. -/
def stateAt (given : Option σ) : Address → List (Stay μ σ) → Option σ
  | _, [] => given
  | site, stay :: outer => match sys.nodeAt stay.site with
    | some (.call source (some make)) => some (madeAt source make stay.since)
    | some (.call _ none) => stateAt given stay.site outer
    | _ => if site.tail = stay.site then stateAt given stay.site outer else none

/-- The node that is entered sees the state in force there, and sees it still when it is left. -/
def InForce (given : Option σ) (stays : List (Stay μ σ)) : Moment μ σ → Prop
  | .entered site scene => scene.context.state = sys.stateAt given site stays
  | .left site _ scene => ∃ stay outer, stays = stay :: outer ∧ stay.site = site ∧
      scene.context.depth = stay.scene.context.depth ∧ scene.context.state = stay.scene.context.state
  | .abandoned _ _ _ _ => True

/-- So it is at all these moments. -/
def AllInForce (given : Option σ) (history : List (Moment μ σ)) (stays : List (Stay μ σ)) (xs : List (Moment μ σ)) :
    Prop :=
  ∀ done x rest, xs = done ++ x :: rest → sys.InForce given (staysAfter history stays done) x

variable {sys} {given : Option σ} {history : List (Moment μ σ)} {stays : List (Stay μ σ)} {xs ys : List (Moment μ σ)}

theorem stateAt_cons (site : Address) (stay : Stay μ σ) : sys.stateAt given site (stay :: stays) =
    match sys.nodeAt stay.site with
    | some (.call source (some make)) => some (madeAt source make stay.since)
    | some (.call _ none) => sys.stateAt given stay.site stays
    | _ => if site.tail = stay.site then sys.stateAt given stay.site stays else none := rfl

theorem stateAt_lent {site : Address} (stay : Stay μ σ) {source : Source μ} {make : StateMaker μ σ}
    (here : sys.nodeAt stay.site = some (.call source (some make))) :
    sys.stateAt given site (stay :: stays) = some (madeAt source make stay.since) := by
  rw [stateAt_cons, here]

theorem stateAt_called {site : Address} (stay : Stay μ σ) {source : Source μ}
    (here : sys.nodeAt stay.site = some (.call source none)) :
    sys.stateAt given site (stay :: stays) = sys.stateAt given stay.site stays := by
  rw [stateAt_cons, here]

/-- Other nodes are around their children, and around ticks that their callbacks start. -/
theorem stateAt_within {site : Address} (stay : Stay μ σ) {node : Node μ σ} (here : sys.nodeAt stay.site = some node)
    (plain : ∀ source makeState, node ≠ .call source makeState) : sys.stateAt given site (stay :: stays) =
      if site.tail = stay.site then sys.stateAt given stay.site stays else none := by
  rw [stateAt_cons, here]
  cases node
  case call source makeState => exact absurd rfl (plain source makeState)
  all_goals rfl

theorem AllInForce.nil : sys.AllInForce given history stays [] := fun done x rest split => by simp at split

theorem AllInForce.append (first : sys.AllInForce given history stays xs)
    (second : sys.AllInForce given (history ++ xs) (staysAfter history stays xs) ys) :
    sys.AllInForce given history stays (xs ++ ys) := by
  intro done x rest split
  obtain ⟨more, rfl, later⟩ | ⟨more, earlier, same⟩ := List.append_eq_append_iff.mp split
  · rw [staysAfter_append]
    exact second more x rest later
  · cases more with
    | nil =>
      rw [List.append_nil] at earlier
      subst earlier
      have next := second [] x rest same.symm
      rwa [staysAfter] at next
    | cons y more =>
      obtain ⟨rfl, rfl⟩ := List.cons.inj same
      exact first done x more earlier

theorem AllInForce.single {x : Moment μ σ} (h : sys.InForce given stays x) :
    sys.AllInForce given history stays [x] := by
  intro done y rest split
  cases done with
  | nil =>
    obtain ⟨rfl, -⟩ := List.cons.inj split
    exact h
  | cons z done => simp at split

/-- A stay so far, or one that is broken off. -/
theorem AllInForce.stay {site : Address} {first : Scene μ σ}
    (enters : first.context.state = sys.stateAt given site stays)
    (inside : sys.AllInForce given (history ++ [Moment.entered site first]) (.of history site first :: stays) xs) :
    sys.AllInForce given history stays (.entered site first :: xs) := by
  have entrance : sys.InForce given stays (.entered site first) := enters
  exact (AllInForce.single entrance).append inside

/-- What came to the history: each node that was entered saw the state in force, and all have been left again. -/
structure Tale (sys : System μ σ) (given : Option σ) (history : List (Moment μ σ)) (stays : List (Stay μ σ))
    (xs : List (Moment μ σ)) : Prop where
  inForce : sys.AllInForce given history stays xs
  back : staysAfter history stays xs = stays

theorem Tale.nil : sys.Tale given history stays [] := ⟨.nil, rfl⟩

theorem Tale.append (first : sys.Tale given history stays xs) (second : sys.Tale given (history ++ xs) stays ys) :
    sys.Tale given history stays (xs ++ ys) where
  inForce := first.inForce.append (by rw [first.back]; exact second.inForce)
  back := by rw [staysAfter_append, first.back, second.back]

theorem Tale.abandoned (site : Address) (depth : Nat) (fire : Bool) (scene : Scene μ σ) :
    sys.Tale given history stays [.abandoned site depth fire scene] := ⟨.single trivial, rfl⟩

/-- A stay is told from its first moment to its last. -/
theorem Tale.stay {site : Address} {first : Scene μ σ} (status : Status) (last : Scene μ σ)
    (enters : first.context.state = sys.stateAt given site stays)
    (inside : sys.Tale given (history ++ [Moment.entered site first]) (.of history site first :: stays) xs)
    (depth : last.context.depth = first.context.depth) (state : last.context.state = first.context.state) :
    sys.Tale given history stays (.entered site first :: xs ++ [Moment.left site status last]) where
  inForce := by
    refine (AllInForce.stay enters inside.inForce).append (.single ?_)
    exact ⟨_, stays, inside.back, rfl, depth, state⟩
  back := by
    have during : staysAfter history stays (.entered site first :: xs) = .of history site first :: stays :=
      inside.back
    rw [staysAfter_append, during]
    rfl

end System

end BehaviorTree
