/-
  BehaviorTree.Proofs.Unroll.Episodes: slots for each call depth do what copies with scalars do.

  A recursive tree is ticked and reset again and again, with changes of the board and of the
  callbacks' memory in between. The system with slots for each depth and the unrolled one with
  one scalar a node go on alike: the same results, the same events and diagnostics, the same
  board and memory, and the same fault where a tick stops (`recursion_unrolled`).
-/

import BehaviorTree.Proofs.ResetComplete
import BehaviorTree.Proofs.Unroll.Trees

namespace BehaviorTree

/-- What happens from outside: the tree is ticked or reset, or the board and the callbacks' memory are changed. -/
inductive Episode (μ σ : Type) where
  | use (it : Use σ)
  | change (board : Layers → Layers) (memory : μ → μ)

variable {ρ μ σ : Type}

/-- Episode after episode, with the answers of the ticks. -/
def Run.episodes (tick : Float32 → Option σ → Run ρ μ σ Status) (reset : Bool → Run ρ μ σ Unit) :
    List (Episode μ σ) → Run ρ μ σ (List Status)
  | [] => return []
  | .use (.tick delta state) :: rest => do
    let status ← tick delta state
    let later ← episodes tick reset rest
    return status :: later
  | .use (.reset fire) :: rest => do
    reset fire
    episodes tick reset rest
  | .change board memory :: rest => do
    Run.onContext fun c => { c with layers := board c.layers }
    Run.remember memory
    episodes tick reset rest

/-- Where ticks and resets go in lockstep, all that happens does. -/
theorem Lock.episodes {ρ' : Type} {fine : ρ' → Prop} {R : ρ → ρ' → Prop} {d : Nat}
    {tick : Float32 → Option σ → Run ρ μ σ Status} {tick' : Float32 → Option σ → Run ρ' μ σ Status}
    {reset : Bool → Run ρ μ σ Unit} {reset' : Bool → Run ρ' μ σ Unit}
    (ticks : ∀ delta state, Lock fine R d (tick delta state) (tick' delta state))
    (resets : ∀ fire, Lock fine R d (reset fire) (reset' fire)) (happens : List (Episode μ σ)) :
    Lock fine R d (Run.episodes tick reset happens) (Run.episodes tick' reset' happens) := by
  induction happens with
  | nil => exact .pure _
  | cons first rest ih =>
    cases first with
    | change board memory => exact Lock.bind (Lock.onContext fun _ => rfl) fun _ => Lock.remember.bind fun _ => ih
    | use it =>
      cases it with
      | tick delta state => exact (ticks delta state).bind fun _ => ih.bind fun _ => .pure _
      | reset fire => exact (resets fire).bind fun _ => ih

/-- A recursive tree does what it does in the unrolled system, with a copy of each tree for each call depth and one
scalar in each node in place of the slots for all depths. -/
theorem recursion_unrolled (sys : System μ σ) (static : sys.Static) (held : List TreeId) (last : Nat)
    (callbacks : ∀ site node, sys.nodeAt site = some node → node.CallsBack (sys.Tickable last held)) (top : TreeId)
    (can : sys.Tickable last held top) (m : Machine (Store σ) μ σ) (happens : List (Episode μ σ)) :
    Agree id Machine.Same
      (Run.episodes (sys.tick .plain top) (sys.reset .plain top) happens { m with runs := { held } })
      (Run.episodes ((sys.unrolled last).scalarTick top) ((sys.unrolled last).scalarReset top) happens
        { m with runs := { held := sys.heldCopies last held } }) := by
  have hosts := fun d => System.host_layered static callbacks System.nestingBound d
  have runs := Lock.episodes (d := m.context.depth)
    (fun delta state => System.tickWith_layered static callbacks hosts can delta state _)
    (fun fire => System.reset_layered static callbacks can.known fire _) happens
  have start : Along (sys.Unrolls last held System.Bound) m.context.depth { m with runs := { held } }
      { m with runs := { held := sys.heldCopies last held } } :=
    ⟨⟨rfl, rfl, rfl, rfl⟩, rfl, System.unrolls_start sys last held⟩
  exact (runs.agree _ _ start trivial).mono fun _ _ h => h.same

/-! ## A tree that calls itself -/

theorem nested_static : nested.Static where
  calls site source makeState h := by
    rcases nested_nodes _ _ h with ⟨-, h⟩ | ⟨-, h⟩ | ⟨-, h⟩ | ⟨-, h⟩ <;> cases h
    exact ⟨0, Nat.zero_lt_one, .inl rfl⟩
  unpicked site initial children h := by
    rcases nested_nodes _ _ h with ⟨-, h⟩ | ⟨-, h⟩ | ⟨-, h⟩ | ⟨-, h⟩ <;> cases h

theorem nested_tickable : nested.Tickable 2 [0] 0 where
  known := Nat.zero_lt_one
  available := System.available_held (List.mem_singleton_self 0)
  limited := by decide

/-- Two ticks of the tree, with a reset in between, and what its hooks are told. -/
def nestedEpisodes (tick : Float32 → Option Unit → Run (Store Unit) (List Status) Unit Status)
    (reset : Bool → Run (Store Unit) (List Status) Unit Unit) :
    Run (Store Unit) (List Status) Unit (List Status × List Status) := do
  let statuses ← Run.episodes tick reset [.use (.tick 0 none), .use (.reset true), .use (.tick 0 none)]
  let after ← get
  return (statuses, after.memory)

/-- Three copies with scalars are at work, and are abandoned, one for each depth. -/
theorem nested_unrolled : ∃ m', Run.episodes ((nested.unrolled 2).scalarTick 0) ((nested.unrolled 2).scalarReset 0)
      [.use (.tick 0 none), .use (.reset true), .use (.tick 0 none)]
      { nestedStart with runs := { held := nested.heldCopies 2 [0] } } = .ok [.running, .running] m' ∧
    m'.memory = [.running, .running, .running] := by
  obtain ⟨_, ran⟩ := Run.ok_of_answer (a := nestedEpisodes (nested.tick .plain 0) (nested.reset .plain 0))
    (m := { nestedStart with runs := { held := [0] } }) (x := ([.running, .running], [.running, .running, .running]))
    (by decide +kernel)
  simp only [nestedEpisodes, Run.bind_eq_ok, Run.get_eq_ok, Run.pure_eq_ok, Prod.mk.injEq] at ran
  obtain ⟨_, m, left, _, _, ⟨rfl, rfl⟩, ⟨rfl, told⟩, rfl⟩ := ran
  have callbacks : ∀ site node, nested.nodeAt site = some node → node.CallsBack (nested.Tickable 2 [0]) := by
    intro site node h
    rcases nested_nodes site node h with ⟨-, rfl⟩ | ⟨-, rfl⟩ | ⟨-, rfl⟩ | ⟨-, rfl⟩ <;> trivial
  have agreed := recursion_unrolled nested nested_static [0] 2 callbacks 0 nested_tickable nestedStart
    [.use (.tick 0 none), .use (.reset true), .use (.tick 0 none)]
  obtain ⟨m', right, same⟩ := agreed.of_left left
  exact ⟨m', right, by rw [← same.memory, told]⟩

end BehaviorTree
