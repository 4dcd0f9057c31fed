/-
  BehaviorTree.Proofs.Tracing: tracing is neutral.

  A log and a sink on the root board take the events of a run, and that is all they change: with
  either, both or neither, a system whose callbacks leave these two objects alone runs alike
  (`tracing_neutral`). The events depend neither on what is there to take them, nor on the
  overlays that are in place where they are raised (`raised_in_scopes`).

  Each run is compared with the one that has both destinations, since that one knows the events:
  both are the same silent run with these events put in (`Traced`).
-/

import BehaviorTree.Proofs.Accord.Trees
import BehaviorTree.Proofs.Tracing.Destinations

namespace BehaviorTree

variable {μ σ α : Type}

/-! ## The accord -/

/-- How many overlays are in place, and how deep in calls a tick is. -/
structure Nesting where
  overlays : Nat
  descent : Descent

structure Nesting.Holds (i : Nesting) (c : Context σ) : Prop where
  descent : i.descent.Holds c
  overlays : c.layers.overlays.length = i.overlays

/-- Both machines are the same silent one, with the same events at the destinations of each. -/
inductive Traced (log sink : Bool) (heard : Array TraceEvent) (i : Nesting) :
    Machine (Store σ) μ σ → Machine (Store σ) μ σ → Prop
  | mk (n : Machine (Store σ) μ σ) (events : Array TraceEvent) : n.context.Silent → n.heard = heard →
    i.Holds n.context → Traced log sink heard i (n.traced log sink events) (n.traced true true events)

namespace Traced

variable {log sink : Bool} {heard : Array TraceEvent} {i j : Nesting} {m m' : Machine (Store σ) μ σ}

theorem onContext {f : Context σ → Context σ} (h : Traced log sink heard i m m')
    (passes : ∀ (c : Context σ) log sink events, f (c.traced log sink events) = (f c).traced log sink events)
    (silent : ∀ c, c.Silent → (f c).Silent) (holds : ∀ c, i.Holds c → j.Holds (f c)) :
    Traced log sink heard j (m.onContext f) (m'.onContext f) := by
  obtain ⟨n, events, quiet, same, place⟩ := h
  have moved : ∀ log sink, (n.traced log sink events).onContext f = (n.onContext f).traced log sink events :=
    fun log sink => congrArg (fun context => { n with context, heard := if sink then n.heard ++ events else n.heard })
      (passes _ log sink events)
  rw [moved, moved]
  exact .mk (n.onContext f) events (silent _ quiet) same (holds _ place)

theorem aside {f : Machine (Store σ) μ σ → Machine (Store σ) μ σ} (h : Traced log sink heard i m m')
    (passes : ∀ n log sink events, f (n.traced log sink events) = (f n).traced log sink events)
    (context : ∀ n, (f n).context = n.context) (same : ∀ n, (f n).heard = n.heard) :
    Traced log sink heard i (f m) (f m') := by
  obtain ⟨n, events, quiet, told, place⟩ := h
  rw [passes, passes]
  exact .mk (f n) events ((context n).symm ▸ quiet) ((same n).trans told) ((context n).symm ▸ place)

end Traced

theorem Context.enter_traced (c : Context σ) (log sink : Bool) (events : Array TraceEvent) (tree : String) :
    (c.traced log sink events).enter tree = (c.enter tree).map (·.traced log sink events) := by
  unfold enter traced
  dsimp only
  split
  · rfl
  · split
    · rfl
    · split <;> rfl

theorem Context.refuses_traced (c : Context σ) (log sink : Bool) (events : Array TraceEvent) (tree : String)
    (o : Overflow) : (c.traced log sink events).enter tree = .error o ↔ c.enter tree = .error o := by
  rw [enter_traced]
  cases c.enter tree <;> simp [Except.map]

theorem Nesting.Holds.alike {i : Nesting} {c d : Context σ} (h : i.Holds c) (depth : d.depth = c.depth)
    (maxDepth : d.maxDepth = c.maxDepth) (overlays : d.layers.overlays.length = c.layers.overlays.length) : i.Holds d :=
  ⟨⟨depth.trans h.descent.depth, maxDepth ▸ h.descent.maxDepth, h.descent.inside⟩, overlays.trans h.overlays⟩

theorem Traced.entered {log sink : Bool} {heard : Array TraceEvent} {i : Nesting} {m m' : Machine (Store σ) μ σ}
    {tree : String} {c' : Context σ} (h : Traced log sink heard i m m') (entered : m'.context.enter tree = .ok c') :
    ∃ c, m.context.enter tree = .ok c ∧
      Traced log sink heard { i with descent := i.descent.call } { m with context := c } { m' with context := c' } := by
  obtain ⟨n, events, quiet, told, place⟩ := h
  have context : (n.traced true true events).context = n.context.traced true true events := rfl
  rw [context, Context.enter_traced] at entered
  cases entered' : n.context.enter tree with
  | error => rw [entered'] at entered; cases entered
  | ok d =>
  rw [entered'] at entered
  cases entered
  have descent := place.descent.enter entered'
  refine ⟨d.traced log sink events, (Context.enter_traced ..).trans (congrArg _ entered'), ?_⟩
  obtain ⟨stack, rfl⟩ := Behaviour.enter_ok entered'
  exact .mk { n with context := _ } events quiet told ⟨descent, place.overlays⟩

/-- Runs of a system with and without destinations for its events, if callbacks leave these alone. -/
def Concord.tracing (sys : System μ σ) (discreet : sys.Discreet Context.untraced Edit.SparesTraces) (log sink : Bool)
    (heard : Array TraceEvent) : Concord sys sys where
  Index := Nesting
  rel := Traced log sink heard
  fine _ := True
  call i := { i with descent := i.descent.call }
  overlay i := { i with overlays := i.overlays + 1 }
  fine_of_push _ := trivial
  depth h := by cases h; rfl
  delta h := by cases h; rfl
  request h := by cases h; rfl
  state h := by cases h; rfl
  setRequest _ h := h.onContext (fun _ _ _ _ => rfl) (fun _ quiet => quiet) fun _ place => place.alike rfl rfl rfl
  setState _ h := h.onContext (fun _ _ _ _ => rfl) (fun _ quiet => quiet) fun _ place => place.alike rfl rfl rfl
  recordOverflow _ h := h.onContext (fun _ _ _ _ => rfl) (fun _ quiet => quiet) fun _ place => place.alike rfl rfl rfl
  report _ h := h.aside (f := fun m => m.report _) (fun _ _ _ _ => rfl) (fun _ => rfl) fun _ => rfl
  trace tag x y h := by
    obtain ⟨n, events, quiet, told, place⟩ := h
    rw [trace_traced quiet, trace_traced quiet]
    exact .ok () (.mk n _ quiet told place)
  pushed _ h := h.onContext (fun _ _ _ _ => rfl) (fun _ quiet => quiet) fun _ place =>
    ⟨⟨place.descent.depth, place.descent.maxDepth, place.descent.inside⟩, congrArg (· + 1) place.overlays⟩
  innermost h := by
    obtain ⟨n, events, quiet, told, place⟩ := h
    obtain ⟨b, overlays, under⟩ := List.exists_of_length_succ _ place.overlays
    show (n.context.layers.overlays.headD _) = n.context.layers.overlays.headD _
    rw [under]
    rfl
  popped h := h.onContext (fun _ _ _ _ => rfl) (fun _ quiet => quiet) fun c place =>
    ⟨⟨place.descent.depth, place.descent.maxDepth, place.descent.inside⟩, by
      have := place.overlays
      show c.layers.overlays.tail.length = _
      rw [List.length_tail, this]
      rfl⟩
  entered tree h entered := h.entered entered
  refused tree h refused := by
    obtain ⟨n, events, -, -, -⟩ := h
    exact .inl ((Context.refuses_traced ..).mpr ((Context.refuses_traced ..).mp refused))
  left h := h.onContext (fun _ _ _ _ => rfl) (fun _ quiet => quiet) fun _ place => ⟨place.descent.leave, place.overlays⟩
  twins := rfl
  deeper _ := Nat.le_refl _
  see := Context.untraced
  may := Edit.SparesTraces
  discreet := discreet
  memory h := by cases h; rfl
  seen h := by
    obtain ⟨n, events, -, -, -⟩ := h
    exact (n.context.untraced_traced ..).trans (n.context.untraced_traced ..).symm
  overflow h := by cases h; rfl
  store h := by cases h; rfl
  withMemory _ h := h.aside (f := fun m => m.withMemory _) (fun _ _ _ _ => rfl) (fun _ => rfl) fun _ => rfl
  clearOverflow h := h.onContext (fun _ _ _ _ => rfl) (fun _ quiet => quiet) fun _ place => place.alike rfl rfl rfl
  edited {_ _ _ e} reach spares h := by
    refine h.onContext (fun c log sink events => ?_) (fun c quiet => e.applyAt_silent spares reach quiet) fun c place =>
      place.alike rfl rfl (e.overlays_applyAt reach c.layers)
    exact congrArg (fun layers => { c with layers }) (e.applyAt_traced spares reach c.layers log sink events)
  setGlobal t id x h := by
    have spares : (Edit.set t id x).SparesTraces := trivial
    refine h.onContext (fun c log sink events => ?_) (fun c quiet => Edit.apply_silent spares quiet) fun c place =>
      place.alike rfl rfl (List.length_map _)
    let overlays := c.layers.overlays.map fun b : Board => b.remove t id
    exact congrArg (fun root => { c with layers := { overlays, root } }) (Edit.apply_traced spares)
  onStore f _ h := h.aside (f := fun m => m.onRuns f) (fun _ _ _ _ => rfl) (fun _ => rfl) fun _ => rfl
  noteOverflow _ _ h := h.aside (f := fun m => m.onRuns _) (fun _ _ _ _ => rfl) (fun _ => rfl) fun _ => rfl
  levels i := i.descent.levels
  levels_pos h := by
    obtain ⟨_, _, -, -, place⟩ := h
    exact place.descent.levels_pos
  levels_call i := i.descent.levels_call
  levels_overlay _ := rfl
  fresh i tree := { i with descent := .start (sys.limitsOf tree) }
  levels_fresh _ _ := Nat.le_refl _
  freshened tree _ _ _ h := h.onContext (fun _ _ _ _ => rfl) (fun _ quiet => quiet) fun _ place =>
    ⟨⟨rfl, Nat.le_refl _, Nat.zero_le _⟩, place.overlays⟩
  around i c c' := i.descent.Holds c ∧ { c with layers := {} } = { c' with layers := {} }
  surrounded h := by
    obtain ⟨n, events, -, -, place⟩ := h
    exact ⟨⟨place.descent.depth, place.descent.maxDepth, place.descent.inside⟩, rfl⟩
  returned {_ _ _ _ c c'} around h := by
    have same : ∀ layers, { c' with layers } = { c with layers } := fun layers =>
      congrArg ({ · with layers }) around.2.symm
    simp only [same]
    exact h.onContext (fun _ _ _ _ => rfl) (fun _ quiet => quiet) fun _ place =>
      ⟨⟨around.1.depth, around.1.maxDepth, around.1.inside⟩, place.overlays⟩

variable {sys : System μ σ}

theorem tracing_begins (discreet : sys.Discreet Context.untraced Edit.SparesTraces) (log sink : Bool)
    (heard : Array TraceEvent) : (Concord.tracing sys discreet log sink heard).Begins :=
  Concord.begins_of_same _ (fun _ => rfl) (fun h => by cases h; rfl) fun f h =>
    Traced.aside (f := fun m => m.onRuns f) h (fun _ _ _ _ => rfl) (fun _ => rfl) fun _ => rfl

/-! ## Below overlays -/

/-- The node under so many overlays of its own. -/
def Node.inScopes : Nat → Node μ σ → Node μ σ
  | 0, node => node
  | scopes + 1, node => .localScope (node.inScopes scopes)

theorem Context.innermost_traced {c : Context σ} (log sink : Bool) (events : Array TraceEvent)
    (under : c.layers.overlays ≠ []) : (c.traced log sink events).layers.innermost = c.layers.innermost := by
  obtain ⟨b, overlays, here⟩ := List.exists_cons_of_ne_nil under
  show c.layers.overlays.headD _ = c.layers.overlays.headD _
  rw [here]
  rfl

/-- An event that is raised below overlays reaches the destinations on the root board. -/
theorem raised_in_scopes (links : Links (Store σ) μ σ) (unwatched : ∀ site b, links.watch site b = b) (tag : String)
    (x y : UInt64) (s : Status) (scopes : Nat) (site : Address) (n : Machine (Store σ) μ σ)
    (silent : n.context.Silent) :
    ∃ n' : Machine (Store σ) μ σ, n'.context.Silent ∧
      n'.context.layers.overlays.length = n.context.layers.overlays.length ∧ ∀ log sink events,
        ((Node.inScopes scopes (.action (.trace tag x y (.done s)))).behaviour links site).tick
          (n.traced log sink events) = .ok s (n'.traced log sink (events.push ⟨n.context.tick, tag, x, y⟩)) := by
  induction scopes generalizing site n with
  | zero =>
    refine ⟨n, silent, rfl, fun log sink events => ?_⟩
    rw [Node.inScopes, Node.behaviour.eq_def, unwatched]
    exact Run.bind_ok (trace_traced silent log sink events tag x y)
  | succ scopes ih =>
    -- the child runs under one more overlay
    let slot := (links.cell site).get n.runs n.context.depth
    let inner := (n.onRuns ((links.cell site).reset · n.context.depth)).onContext (·.pushed slot.board)
    obtain ⟨after, quiet, overlays, raised⟩ := ih (0 :: site) inner silent
    have under : after.context.layers.overlays ≠ [] := fun none => by
      rw [none] at overlays
      cases overlays
    let popped := after.onContext (·.popped)
    let kept := popped.onRuns ((links.cell site).set · n.context.depth (.overlay after.context.layers.innermost))
    have shorter : popped.context.layers.overlays.length = n.context.layers.overlays.length := by
      show after.context.layers.overlays.tail.length = _
      rw [List.length_tail, overlays]
      rfl
    refine ⟨if s.isRunning then kept else popped, ?_, ?_, fun log sink events => ?_⟩
    · split <;> exact quiet
    · split <;> exact shorter
    · rw [Node.inScopes, Node.behaviour.eq_def, unwatched]
      refine (Run.bind_ok (raised log sink events)).trans ?_
      cases running : s.isRunning with
      | false => rfl
      | true =>
        have same := Context.innermost_traced log sink (events.push ⟨n.context.tick, tag, x, y⟩) under
        rw [if_pos rfl]
        simp only [kept]
        rw [← same]
        rfl

/-! ## Tracing is neutral -/

/-- Both results are of the same silent run. -/
theorem Traced.ended {log sink : Bool} {heard : Array TraceEvent} {i : Nesting}
    {a b : EStateM.Result Fault (Machine (Store σ) μ σ) α}
    (h : Ended (Traced log sink heard i) (fun n n' => ∃ k, Traced log sink heard k n n') a b) :
    ∃ r events, a = Run.traced log sink events r ∧ b = Run.traced true true events r ∧
      (Run.reached r).context.Silent ∧ (Run.reached r).heard = heard := by
  cases h with
  | ok x related =>
    obtain ⟨n, events, silent, told, -⟩ := related
    exact ⟨.ok x n, events, rfl, rfl, silent, told⟩
  | error e related =>
    obtain ⟨_, n, events, silent, told, -⟩ := related
    exact ⟨.error e n, events, rfl, rfl, silent, told⟩

theorem Run.traced_inj {ρ : Type} {r r' : EStateM.Result Fault (Machine ρ μ σ) α} {events events' : Array TraceEvent}
    (silent : (reached r).context.Silent) (silent' : (reached r').context.Silent)
    (heard : (reached r).heard = (reached r').heard) (same : traced true true events r = traced true true events' r') :
    r = r' ∧ events = events' := by
  cases r <;> cases r' <;> simp only [traced, EStateM.Result.ok.injEq, EStateM.Result.error.injEq, reduceCtorEq] at same
  all_goals
    obtain ⟨rfl, same⟩ := same
    obtain ⟨machine, events⟩ := Machine.traced_inj silent silent' heard same
    exact ⟨congrArg _ machine, events⟩

/-- Runs with and without destinations come of the same silent run. -/
theorem serve_traced (sys : System μ σ) (discreet : sys.Discreet Context.untraced Edit.SparesTraces)
    (orders : List (TreeId × Use σ)) (m : Machine (Store σ) μ σ) (silent : m.context.Silent) (log sink : Bool) :
    ∃ r events, sys.serve .plain orders (m.traced log sink #[]) = Run.traced log sink events r ∧
      sys.serve .plain orders (m.traced true true #[]) = Run.traced true true events r ∧
      (Run.reached r).context.Silent ∧ (Run.reached r).heard = m.heard := by
  have start : (Concord.tracing sys discreet log sink m.heard).rel
      ⟨m.context.layers.overlays.length, .ofContext m.context⟩ (m.traced log sink #[]) (m.traced true true #[]) :=
    Traced.mk m #[] silent rfl ⟨Descent.holds_ofContext m.context, rfl⟩
  exact Traced.ended (((Concord.tracing sys discreet log sink m.heard).serve (tracing_begins discreet log sink m.heard)
    orders).agree _ _ start trivial)

/-- Tracing is neutral. The destinations on the root board change nothing in a run of ticks and resets whose
callbacks look neither at these two objects nor at the length of the root board: the same events reach those that
are there, from below any overlays, so that the log has the events that the sink heard. -/
theorem tracing_neutral (sys : System μ σ) (discreet : sys.Discreet Context.untraced Edit.SparesTraces)
    (orders : List (TreeId × Use σ)) (m : Machine (Store σ) μ σ) (silent : m.context.Silent) :
    (∃ events, (∀ log sink, sys.serve .plain orders (m.traced log sink #[]) =
        Run.traced log sink events (sys.serve .plain orders m)) ∧
      let last := (sys.serve .plain orders).last (m.traced true true #[])
      last.context.layers.root.getObj .traceLog TraceLog.key = .ok (some ⟨events⟩) ∧ last.heard = m.heard ++ events) ∧
    ∀ host below tag x y s scopes site (n : Machine (Store σ) μ σ), n.context.Silent →
      ∃ n' : Machine (Store σ) μ σ, ∀ log sink events,
        ((Node.inScopes scopes (.action (.trace tag x y (.done s)))).behaviour (sys.tickLinks .plain host below)
          site).tick (n.traced log sink events) =
            .ok s (n'.traced log sink (events.push ⟨n.context.tick, tag, x, y⟩)) := by
  constructor
  · obtain ⟨r, events, alone, both, quiet, told⟩ := serve_traced sys discreet orders m silent false false
    have plain : sys.serve .plain orders m = r := by
      have same : Run.traced false false events r = r := by cases r <;> rfl
      exact same ▸ alone
    refine ⟨events, fun log sink => ?_, ?_⟩
    · obtain ⟨r', events', some, both', quiet', told'⟩ := serve_traced sys discreet orders m silent log sink
      obtain ⟨rfl, rfl⟩ := Run.traced_inj quiet quiet' (told.trans told'.symm) (both.symm.trans both')
      rw [some, plain]
    · have last : (sys.serve .plain orders).last (m.traced true true #[]) =
          (Run.reached r).traced true true events := by
        unfold Run.last
        rw [both]
        cases r <;> rfl
      rw [last]
      exact ⟨Board.getObj_log quiet, congrArg (· ++ events) told⟩
  · intro host below tag x y s scopes site n quiet
    obtain ⟨n', -, -, raised⟩ :=
      raised_in_scopes (sys.tickLinks .plain host below) (fun _ _ => rfl) tag x y s scopes site n quiet
    exact ⟨n', raised⟩

/-! ## A light in two overlays -/

/-- Counts its visits, and marks each with whether the light is on. -/
def markLight : Callback Nat Unit Status :=
  .look fun c visits =>
    .trace "light" (if c.layers.contains .bool 7 then 1 else 0) (UInt64.ofNat visits)
      (.remember (· + 1) (.done .success))

theorem markLight_discreet : markLight.Discreet Context.untraced Edit.SparesTraces := by
  intro c visits
  have same : c.untraced.layers.contains .bool 7 = c.layers.contains .bool 7 := by
    simp [Layers.contains, Layers.boards, Context.untraced, Layers.onRoot, Board.contains, Board.table, Board.untraced]
  refine ⟨?_, trivial⟩
  dsimp only
  rw [same]

/-- The light is looked at under an overlay, and after a pause in a called tree under another. -/
def lights : System Nat Unit where
  trees := #[
    { name := "lights", root := .sequence [.localScope (.action markLight), .call (.fixed (.strong 1)) none] },
    { name := "later", root := .localScope (.scope {} (.sequence [.pause, .action markLight])) }]

theorem lights_discreet : lights.Discreet Context.untraced Edit.SparesTraces := by
  refine System.forall_nodes fun tree h => ?_
  have marks : (Node.action markLight).All fun node : Node Nat Unit =>
      node.Discreet Context.untraced Edit.SparesTraces :=
    .leaf markLight_discreet rfl
  simp only [lights, List.mem_toArray, List.mem_cons, List.not_mem_nil, or_false] at h
  rcases h with rfl | rfl
  · refine .mk trivial (List.forall_mem_cons.mpr ⟨.mk trivial (List.forall_mem_singleton.mpr marks), ?_⟩)
    exact List.forall_mem_singleton.mpr (.leaf trivial rfl)
  · refine .mk trivial (List.forall_mem_singleton.mpr (.mk trivial (List.forall_mem_singleton.mpr ?_)))
    exact .mk trivial (List.forall_mem_cons.mpr ⟨.leaf trivial rfl, List.forall_mem_singleton.mpr marks⟩)

/-- Nothing happened yet. -/
def lightsStart : Machine (Store Unit) Nat Unit := { context := {}, memory := 0, runs := {} }

/-- Two ticks, and what the sink heard. -/
def lightsHeard : Run (Store Unit) Nat Unit (List Status × Array String) := do
  let answers ← lights.serve .plain [(0, .tick 1 none), (0, .tick 1 none)]
  let after ← get
  return (answers, after.heard.map (·.tag))

/-- The two looks at the light are told, between the library's own events, and with them or without the visits
are counted. -/
theorem lights_traced : ∃ events, events.map (·.tag) =
      #["light", Tag.subtreeEnter, Tag.scopeEnter, "light", Tag.scopeExit, Tag.subtreeExit] ∧
    ∀ log sink, lights.serve .plain [(0, .tick 1 none), (0, .tick 1 none)] (lightsStart.traced log sink #[]) =
      Run.traced log sink events (lights.serve .plain [(0, .tick 1 none), (0, .tick 1 none)] lightsStart) := by
  obtain ⟨⟨events, neutral, -, heard⟩, -⟩ :=
    tracing_neutral lights lights_discreet [(0, .tick 1 none), (0, .tick 1 none)] lightsStart ⟨rfl, rfl⟩
  obtain ⟨_, ran⟩ := Run.ok_of_answer (a := lightsHeard) (m := lightsStart.traced true true #[])
    (x := ([.running, .success],
      #["light", Tag.subtreeEnter, Tag.scopeEnter, "light", Tag.scopeExit, Tag.subtreeExit])) (by decide +kernel)
  simp only [lightsHeard, Run.bind_eq_ok, Run.get_eq_ok, Run.pure_eq_ok, Prod.mk.injEq] at ran
  obtain ⟨_, after, served, _, _, ⟨rfl, rfl⟩, ⟨-, tags⟩, rfl⟩ := ran
  rw [Run.last_ok served] at heard
  refine ⟨events, ?_, neutral⟩
  rw [← tags, heard]
  exact congrArg _ (Array.empty_append).symm

end BehaviorTree
