/-
  BehaviorTree.Proofs.Nested: the log tells which scopes and calls are unfinished.

  A log that is on the root board from the start has a bracket open for each scope and each call
  below the tree that is in a run, inside of one another as the runs are, and for nothing else. So
  the brackets in the log are the beginning of a nested word at any time, and a whole one when the
  tree has ended. Nodes have to run their children in turn, and callbacks must not tick other trees,
  whose brackets would come in between.
-/

import BehaviorTree.Proofs.Nested.Trees

namespace BehaviorTree

variable {μ σ : Type}

namespace System

variable (sys : System μ σ) (top : TreeId)

/-- Where ticks of one tree lead, from where nothing below it was ever ticked and the log on the root board tells of no
brackets. Between the ticks all may change but the log and what is remembered below the tree. -/
inductive Followed : Machine (Store σ) μ σ → Prop
  | start {m : Machine (Store σ) μ σ} {log : TraceLog} : (∀ q, Place.Covers ⟨[top], 0⟩ q → m.runs.slot q = .idle) →
      sys.Free top m.runs → m.context.layers.root.log? = some log → log.parens = [] → Followed m
  | between {m m' : Machine (Store σ) μ σ} : Followed m →
      (∀ q, Place.Covers ⟨[top], 0⟩ q → m'.runs.slot q = m.runs.slot q) →
      (m'.runs.progress top).busy = (m.runs.progress top).busy →
      m'.context.layers.root.log? = m.context.layers.root.log? → Followed m'
  | tick {m m' : Machine (Store σ) μ σ} {delta : Float32} {state : Option σ} {status : Status} : Followed m →
      sys.tick .plain top delta state m = .ok status m' → Followed m'

/-- The log tells of the scopes and calls that are unfinished below a tree, the outermost first. -/
structure TellsUnfinished (m : Machine (Store σ) μ σ) (log : TraceLog) (unfinished : List Place) : Prop where
  /-- What is closed was opened last, with the same depth. -/
  nested : ∃ v, Paren.Nested (log.parens ++ v)
  /-- Open are the brackets of those that are unfinished. -/
  unclosed : Paren.unclosed log.parens = some (unfinished.map sys.mark).reverse
  inRun : ∀ q, q ∈ unfinished ↔ Place.Covers ⟨[top], 0⟩ q ∧ sys.InRun m.runs q
  /-- The slots lead from each to those after it. -/
  inside : unfinished.Pairwise (Relation.TransGen (sys.Records m.runs))
  once : unfinished.Nodup

variable {sys top} {m : Machine (Store σ) μ σ} {places : List Place}

/-- What is open in the log that is there. -/
theorem Abreast.tells (h : sys.Abreast top m places) :
    ∃ log, m.context.layers.root.log? = some log ∧ sys.TellsUnfinished top m log places := by
  obtain ⟨log, found, scanned⟩ := Option.bind_eq_some_iff.mp h.told
  rw [stack, List.append_nil] at scanned
  refine ⟨log, found, Paren.unclosed_isSome_iff.mp (by rw [scanned]; rfl), scanned, fun q => ?_, h.chain.leads.2,
    h.chain.nodup⟩
  exact ⟨h.chain.covers q, fun inRun => h.chain.mem_of_inRun inRun.1 inRun.2⟩

/-- Ticks open and close brackets from where the last one left. -/
theorem Followed.told (inTurn : sys.InTurn) (h : sys.Followed top m) :
    sys.Free top m.runs ∧ ∃ places, sys.Abreast top m places := by
  induction h with
  | start idle free found none =>
    refine ⟨free, [], .nil fun q covers => not_inRun_idle (idle q covers), ?_⟩
    rw [Machine.unclosed, Board.unclosed, found, Option.bind_some, none]
    rfl
  | between _ slots busy log ih =>
    obtain ⟨free, places, told⟩ := ih
    refine ⟨free.imp_right fun idle => busy.trans idle, places, told.chain.congr slots, ?_⟩
    rw [Machine.unclosed, Board.unclosed, log]
    exact told.told
  | tick _ ran ih =>
    obtain ⟨free, places, told⟩ := ih
    obtain ⟨places', told', -, free'⟩ := told.tick inTurn free ran
    exact ⟨free', places', told'⟩

end System

/-- However often a tree was ticked whose nodes run their children in turn and whose callbacks are reticent:
- the brackets in the log are the beginning of a nested word, open are those of the scopes and calls that are unfinished,
  and each is inside of those opened before it;
- after a tick that ends the tree none is open and nothing is unfinished. -/
theorem unfinished_told (sys : System μ σ) (inTurn : sys.InTurn) (top : TreeId) (m : Machine (Store σ) μ σ)
    (followed : sys.Followed top m) :
    (∃ log unfinished, m.context.layers.root.log? = some log ∧ sys.TellsUnfinished top m log unfinished) ∧
    ∀ delta state status m', sys.tick .plain top delta state m = .ok status m' → status.isTerminal = true →
      ∃ log, m'.context.layers.root.log? = some log ∧ Paren.Nested log.parens ∧ sys.TellsUnfinished top m' log [] := by
  obtain ⟨free, places, told⟩ := followed.told inTurn
  refine ⟨?_, fun delta state status m' ran terminal => ?_⟩
  · obtain ⟨log, found, tells⟩ := told.tells
    exact ⟨log, places, found, tells⟩
  · obtain ⟨places', told', ended, -⟩ := told.tick inTurn free ran
    obtain rfl := ended terminal
    obtain ⟨log, found, tells⟩ := told'.tells
    exact ⟨log, found, Paren.unclosed_eq_nil_iff.mp tells.unclosed, tells⟩

/-! ## A call in a scope -/

/-- Scopes around a call and in the called tree, which pauses. -/
def excursion : System Unit Unit where
  trees := #[{ name := "outer", root := .scope {} (.call (.fixed (.strong 1)) none) },
    { name := "inner", root := .scope {} .pause }]

theorem excursion_inTurn : excursion.InTurn := by
  refine fun site node here overlays _ => System.forall_nodes (P := (·.InTurn overlays)) ?_ site node here
  simp only [excursion, List.mem_toArray, List.mem_cons, List.not_mem_nil, or_false]
  rintro tree (rfl | rfl)
  all_goals exact .mk trivial fun child hc => List.mem_singleton.mp hc ▸ .leaf trivial rfl

/-- An empty log, and nothing in a run. -/
def excursionStart : Machine (Store Unit) Unit Unit :=
  { context := { layers := { root := Board.setObj {} .traceLog TraceLog.key {} } }, memory := (), runs := {} }

/-- A tick, its answer, and the brackets that the log has then. -/
def tickedBrackets (sys : System Unit Unit) (top : TreeId) : Run (Store Unit) Unit Unit (Status × Option (List Paren)) := do
  let answer ← sys.tick .plain top 1 none
  return (answer, (← get).context.layers.root.log?.map (·.parens))

theorem tickedBrackets_ok {sys : System Unit Unit} {top : TreeId} {answer : Status} {word : Option (List Paren)}
    {m m' : Machine (Store Unit) Unit Unit} (ran : tickedBrackets sys top m = .ok (answer, word) m') :
    sys.tick .plain top 1 none m = .ok answer m' ∧ m'.context.layers.root.log?.map (·.parens) = word := by
  simp only [tickedBrackets, Run.bind_eq_ok, Run.get_eq_ok, Run.pure_eq_ok, Prod.mk.injEq] at ran
  obtain ⟨_, _, ticked, _, _, ⟨rfl, rfl⟩, ⟨rfl, told⟩, rfl⟩ := ran
  exact ⟨ticked, told⟩

/-- The pause leaves three brackets open, that of the scope in the called tree innermost. The next tick closes them all. -/
theorem excursion_told : ∃ m m', excursion.Followed 0 m ∧
    (∃ log unfinished, m.context.layers.root.log? = some log ∧ excursion.TellsUnfinished 0 m log unfinished ∧
      log.parens = [.opens ⟨.scope, 0⟩, .opens ⟨.subtree, 1⟩, .opens ⟨.scope, 1⟩]) ∧
    excursion.tick .plain 0 1 none m = .ok .success m' ∧
    ∃ log, m'.context.layers.root.log? = some log ∧ Paren.Nested log.parens ∧ excursion.TellsUnfinished 0 m' log [] := by
  obtain ⟨m', ran⟩ := Run.ok_of_answer (a := do return (← tickedBrackets excursion 0, ← tickedBrackets excursion 0))
    (m := excursionStart) (x := ((.running, some [.opens ⟨.scope, 0⟩, .opens ⟨.subtree, 1⟩, .opens ⟨.scope, 1⟩]),
      (.success, some [.opens ⟨.scope, 0⟩, .opens ⟨.subtree, 1⟩, .opens ⟨.scope, 1⟩, .closes ⟨.scope, 1⟩,
        .closes ⟨.subtree, 1⟩, .closes ⟨.scope, 0⟩]))) (by decide +kernel)
  simp only [Run.bind_eq_ok, Run.pure_eq_ok, Prod.mk.injEq] at ran
  obtain ⟨_, m, first, _, _, second, ⟨rfl, rfl⟩, rfl⟩ := ran
  obtain ⟨ticked, told⟩ := tickedBrackets_ok first
  obtain ⟨again, -⟩ := tickedBrackets_ok second
  have followed : excursion.Followed 0 m := .tick (.start (fun q _ => Store.slot_empty q) (.inr (by decide +kernel))
    (Board.log?_setObj_log {}) rfl) ticked
  obtain ⟨⟨log, unfinished, found, tells⟩, ended⟩ := unfinished_told excursion excursion_inTurn 0 m followed
  rw [found] at told
  exact ⟨m, _, followed, ⟨log, unfinished, found, tells, Option.some.inj told⟩, again, ended _ _ _ _ again rfl⟩

/-! ## A tree that a callback ticks -/

/-- The callback of the first tree ticks the second one, which pauses in a scope. -/
def stray : System Unit Unit where
  trees := #[{ name := "main", root := .action (.tickTree 1 1 fun _ => .done .success) },
    { name := "other", root := .scope {} .pause }]

/-- The first tree ends, and the scope of the second one stays open in the log. -/
theorem stray_open : ∃ m log, stray.tick .plain 0 1 none excursionStart = .ok .success m ∧
    m.context.layers.root.log? = some log ∧ Paren.unclosed log.parens = some [⟨.scope, 0⟩] ∧ ¬ Paren.Nested log.parens := by
  obtain ⟨m, ran⟩ := Run.ok_of_answer (a := tickedBrackets stray 0) (m := excursionStart)
    (x := (.success, some [.opens ⟨.scope, 0⟩])) (by decide +kernel)
  obtain ⟨ticked, told⟩ := tickedBrackets_ok ran
  obtain ⟨log, found, brackets⟩ := Option.map_eq_some_iff.mp told
  refine ⟨m, log, ticked, found, by rw [brackets]; rfl, fun nested => ?_⟩
  rw [← Paren.unclosed_eq_nil_iff, brackets] at nested
  cases nested

end BehaviorTree
