import SignalGraph.Proofs.Engine.HostInputs
import SignalGraph.Proofs.Engine.Rendering

/-!
# Fresh engines

A host may have many engines of one plan: it makes copies of an engine, which go on from where
the engine is, and forks, which start from the beginning (`Action`). An engine is what its own
requests have made of a fresh one (`Engines.run_eq`), and nothing that happens to other
engines has any part in it.

As no request changes the plan or the settings, and as all that an engine has besides is its values
and its clock, an engine that is reset is a fresh one, and so is a fork
(`Engines.reset_fork_fresh`).
-/

namespace SignalGraph

/-- What a host asks of one of its engines. -/
inductive Request where
  /-- A command. -/
  | command (command : Command)
  /-- A tick of the length that the settings say. -/
  | tick
  /-- Filling a buffer. -/
  | render (buffer : Array Binary32)

namespace Request

/-- Does the request take an engine back to the beginning? -/
def isReset : Request → Bool
  | command c => c.isReset
  | tick | render _ => false

/-- The number of ticks that an engine runs on request. -/
def ticks (plan : Plan) : Request → Nat
  | command (.advance _) | tick => 1
  | command (.setInput ..) | command .reset => 0
  | render buffer => buffer.size / plan.outputSlots.length

end Request

/-- The number of ticks that come to requests after the last reset. -/
def ticksSinceReset (plan : Plan) (history : List Request) : Nat :=
  ((history.reverse.takeWhile (!·.isReset)).map (·.ticks plan)).sum

theorem ticksSinceReset_concat (plan : Plan) (history : List Request) (request : Request) :
    ticksSinceReset plan (history ++ [request]) =
      if request.isReset then 0 else request.ticks plan + ticksSinceReset plan history := by
  rw [ticksSinceReset, List.reverse_concat, List.takeWhile_cons]
  cases request.isReset with
  | true => rfl
  | false => rfl

/-- What a host learns from an engine when it asks for something. -/
structure Answer where
  /-- Has a host input been set? -/
  accepted : Bool
  /-- The buffer that was to be filled. -/
  rendered : Rendered
  /-- The values of the roots. -/
  samples : List Binary32
  /-- The values of all that has a slot. -/
  probe : SlotKey → Option Binary32
  /-- The clock. -/
  clock : Clock

namespace Engine

/-- Does what is asked for. -/
def serve (engine : Engine) : Request → Engine
  | .command c => engine.perform c
  | .tick => engine.tick
  | .render buffer => (engine.render buffer).1

/-- Does all that is asked for, in turn. -/
def serveAll (engine : Engine) (history : List Request) : Engine := history.foldl serve engine

/-- What the host learns from a request. -/
def answer (engine : Engine) (request : Request) : Answer where
  accepted :=
    match request with
    | .command (.setInput id value) => (engine.setInput? id value).isSome
    | _ => false
  rendered :=
    match request with
    | .render buffer => (engine.render buffer).2
    | _ => ⟨#[], 0⟩
  samples := (engine.serve request).samples
  probe := (engine.serve request).value?
  clock := (engine.serve request).clock

/-- What the host learns from requests, one after the other. -/
def answers (engine : Engine) : List Request → List Answer
  | [] => []
  | request :: later => engine.answer request :: (engine.serve request).answers later

variable {patch : Patch} {roots : List OutputRef} {r : Resolution} {plan : Plan} {config : Config}
  {engine : Engine}

/-! ## What requests leave as it is -/

theorem config_iterate_tick (engine : Engine) (n : Nat) :
    (tick^[n] engine).config = engine.config := by
  induction n with
  | zero => rfl
  | succ n ih => rw [Function.iterate_succ_apply', tick, advance, ih]

theorem ticks_iterate_tick (engine : Engine) (n : Nat) :
    (tick^[n] engine).clock.ticks = n + engine.clock.ticks := by
  induction n with
  | zero => rw [Nat.zero_add, Function.iterate_zero_apply]
  | succ n ih =>
    rw [Function.iterate_succ_apply', tick, advance, Clock.advance, ih, Nat.add_right_comm]

/-- To set a host input leaves all but the values as it is. -/
theorem perform_setInput_cases (engine : Engine) (id : ExternalId) (value : Binary32) :
    ∃ values, engine.perform (.setInput id value) = { engine with values } := by
  rw [perform, setInput?]
  cases engine.plan.externalSlot? id with
  | none => exact ⟨_, rfl⟩
  | some slot => exact ⟨_, rfl⟩

/-- No request changes the settings. -/
theorem config_serve (engine : Engine) (request : Request) :
    (engine.serve request).config = engine.config := by
  cases request with
  | command c =>
    cases c with
    | advance | reset => rfl
    | setInput id value =>
      obtain ⟨values, hvalues⟩ := engine.perform_setInput_cases id value
      rw [serve, hvalues]
  | tick => rfl
  | render buffer => rw [serve, render_eq, config_iterate_tick]

/-- The clock counts the ticks, and a reset sets it back. -/
theorem ticks_serve (engine : Engine) (request : Request) :
    (engine.serve request).clock.ticks =
      if request.isReset then 0 else request.ticks engine.plan + engine.clock.ticks := by
  cases request with
  | command c =>
    cases c with
    | advance globals => exact Nat.add_comm ..
    | reset => rfl
    | setInput id value =>
      obtain ⟨values, hvalues⟩ := engine.perform_setInput_cases id value
      rw [serve, hvalues]
      exact (Nat.zero_add _).symm
  | tick => exact Nat.add_comm ..
  | render buffer =>
    rw [serve, render_eq, ticks_iterate_tick]
    rfl

namespace Running

variable (h : Plan.Compiled patch roots r plan) (hrun : Running plan r engine)
include h hrun

theorem iterate_tick (n : Nat) : Running plan r (Engine.tick^[n] engine) := by
  induction n with
  | zero => exact hrun
  | succ n ih =>
    rw [Function.iterate_succ_apply']
    exact ih.perform h (.advance _)

/-- A request leaves the engine as it should be between ticks. -/
theorem serve (request : Request) : Running plan r (engine.serve request) := by
  cases request with
  | command c => exact hrun.perform h c
  | tick => exact hrun.perform h (.advance _)
  | render buffer =>
    rw [Engine.serve, render_eq]
    exact hrun.iterate_tick h _

end Running

/-- The engine runs the plan with the settings, and the history is what it has been asked for. -/
structure Traces (plan : Plan) (r : Resolution) (config : Config) (history : List Request)
    (engine : Engine) : Prop where
  running : Running plan r engine
  config_eq : engine.config = config
  ticks_eq : engine.clock.ticks = ticksSinceReset plan history

theorem serveAll_concat (engine : Engine) (history : List Request) (request : Request) :
    engine.serveAll (history ++ [request]) = (engine.serveAll history).serve request :=
  List.foldl_concat ..

theorem traces_serveAll (h : Plan.Compiled patch roots r plan) (config : Config)
    (history : List Request) :
    Traces plan r config history ((ofPlan plan config).serveAll history) := by
  induction history using List.reverseRecOn with
  | nil => exact ⟨running_ofPlan h config, rfl, rfl⟩
  | append_singleton history request ih =>
    rw [serveAll_concat]
    refine ⟨ih.running.serve h request, (config_serve ..).trans ih.config_eq, ?_⟩
    rw [ticks_serve, ticksSinceReset_concat, ih.running.plan_eq, ih.ticks_eq]

/-- A fork is a fresh engine of the plan and the settings that no request changes. -/
theorem Traces.fork_eq {history : List Request} (htraces : Traces plan r config history engine) :
    engine.fork = ofPlan plan config := by
  rw [fork, htraces.running.plan_eq, htraces.config_eq]

/-- What is reset is a fork, but for its identity. -/
theorem reset_eq_fork (engine : Engine) : engine.reset = engine.fork := rfl

end Engine

/-! ## Many engines -/

/-- What a host does with the engines that it has, each of which it calls by its number. -/
inductive Action where
  /-- It asks an engine for something. -/
  | request (index : Nat) (request : Request)
  /-- It makes a copy of an engine. -/
  | clone (index : Nat)
  /-- It forks an engine. -/
  | fork (index : Nat)

namespace Engines

/-- The engines after an action. A new one is the last one. -/
def act (engines : List Engine) : Action → List Engine
  | .request i request => engines.modify i (·.serve request)
  | .clone i => engines ++ engines[i]?.toList
  | .fork i => engines ++ (engines[i]?.map Engine.fork).toList

/-- The engines after actions, one after the other. -/
def run (engines : List Engine) (script : List Action) : List Engine := script.foldl act engines

/-- What engines have been asked for since they were created or forked, after an action. A copy
    has the history of what it is a copy of. -/
def note (histories : List (List Request)) : Action → List (List Request)
  | .request i request => histories.modify i (· ++ [request])
  | .clone i => histories ++ histories[i]?.toList
  | .fork i => histories ++ (histories[i]?.map fun _ => []).toList

/-- What each engine has been asked for, with one engine at the beginning. -/
def histories (script : List Action) : List (List Request) := script.foldl note [[]]

variable {patch : Patch} {roots : List OutputRef} {r : Resolution} {plan : Plan} {config : Config}
  {fresh engine : Engine}

theorem act_eq (h : Plan.Compiled patch roots r plan) (histories : List (List Request))
    (action : Action) :
    act (histories.map (Engine.ofPlan plan config).serveAll) action =
      (note histories action).map (Engine.ofPlan plan config).serveAll := by
  cases action with
  | request i request =>
    refine List.ext_getElem? fun j => ?_
    rw [act, note, List.getElem?_modify, List.getElem?_map, List.getElem?_map, List.getElem?_modify]
    cases histories[j]? with
    | none => rfl
    | some history => by_cases hij : i = j <;> simp [hij, Engine.serveAll_concat]
  | clone i =>
    rw [act, note, List.getElem?_map, List.map_append]
    cases histories[i]? <;> rfl
  | fork i =>
    rw [act, note, List.getElem?_map, List.map_append]
    cases histories[i]? with
    | none => rfl
    | some history => exact congrArg (_ ++ [·]) (Engine.traces_serveAll h config history).fork_eq

/-- Each engine is what its own requests have made of a fresh one. -/
theorem run_eq (h : Plan.Compiled patch roots r plan) (script : List Action) :
    run [Engine.ofPlan plan config] script =
      (histories script).map (Engine.ofPlan plan config).serveAll := by
  induction script using List.reverseRecOn with
  | nil => rfl
  | append_singleton script action ih =>
    rw [run, List.foldl_concat, histories, List.foldl_concat]
    exact (congrArg (act · action) ih).trans (act_eq h _ action)

/-- Whatever a host has done with an engine, with its copies and with its forks, each of them has a
    row of as many slots as the plan has, and counts the ticks since it was created, forked or last
    reset. An engine that is reset is the fresh one again, in values, clock and settings, and so is
    a fork of it. No other engine changes when this happens, and all three give the same answers
    from then on. -/
theorem reset_fork_fresh (h : Plan.compile patch roots = .ok plan)
    (hfresh : Engine.ofPlanChecked plan config = .ok fresh) (script : List Action) :
    let engines := run [fresh] script
    engines.length = (histories script).length ∧
    ∀ i engine, engines[i]? = some engine → ∃ history, (histories script)[i]? = some history ∧
      engine.values.size = plan.layout.size ∧ plan.layout.initial.size = plan.layout.size ∧
      engine.clock.ticks = ticksSinceReset plan history ∧
      engine.reset = fresh ∧ act engines (.request i (.command .reset)) = engines.set i fresh ∧
      engine.fork = fresh ∧ act engines (.fork i) = engines ++ [fresh] ∧
      ∀ later, engine.reset.answers later = fresh.answers later ∧
        engine.fork.answers later = fresh.answers later := by
  obtain ⟨r, hc⟩ := Plan.compile_eq_ok h
  obtain ⟨-, -, hfresh⟩ := bind_eq_ok_iff.1 hfresh
  obtain rfl : Engine.ofPlan plan config = fresh := Except.ok.inj hfresh
  intro engines
  have hengines : engines = _ := run_eq hc script
  refine ⟨by rw [hengines, List.length_map], fun i engine hi => ?_⟩
  have hi' := hi
  rw [hengines, List.getElem?_map, Option.map_eq_some_iff] at hi'
  obtain ⟨history, hhistory, rfl⟩ := hi'
  -- The engine has gone through its own history only, which is all that matters from here on.
  have htraces := Engine.traces_serveAll hc config history
  have hfork := htraces.fork_eq
  refine ⟨history, hhistory, htraces.running.settled.size_eq, hc.settled_initial.size_eq,
    htraces.ticks_eq, hfork, ?_, hfork, ?_, fun later => ?_⟩
  · rw [act, List.modify_eq_set_getElem?, hi]
    exact congrArg (engines.set i) hfork
  · rw [act, hi, Option.map_some, hfork]
    rfl
  · rw [Engine.reset_eq_fork, hfork]
    exact ⟨rfl, rfl⟩

/-- A copy of an engine of the loop that has run a tick runs two more for a buffer, and is forked
    then. The copy has run three ticks, and the fork none. -/
theorem reset_fork_fresh_loop : ∃ plan, Plan.compile .loop [⟨⟨2⟩, 0⟩, ⟨⟨1⟩, 0⟩] = .ok plan ∧
    ∃ fresh, Engine.ofPlanChecked plan {} = .ok fresh ∧
      ∃ engine copy fork, run [fresh] [.request 0 .tick, .clone 0,
        .request 1 (.render #[7, 7, 7, 7, 7]), .fork 1] = [engine, copy, fork] ∧
      engine.clock.ticks = 1 ∧ copy.clock.ticks = 3 ∧ fork.clock.ticks = 0 ∧
      copy.reset = fresh ∧ copy.fork = fresh := by
  obtain ⟨plan, hplan⟩ := Plan.exists_compile_eq_ok Patch.resolution_loop_listener
  obtain ⟨r, hc⟩ := Plan.compile_eq_ok hplan
  have hcount : plan.outputSlots.length = 2 := hc.outputSlots.length_eq.symm
  have hfresh : Engine.ofPlanChecked plan {} = .ok (Engine.ofPlan plan) := rfl
  let script : List Action :=
    [.request 0 .tick, .clone 0, .request 1 (.render #[7, 7, 7, 7, 7]), .fork 1]
  obtain ⟨hlength, hengines⟩ := reset_fork_fresh hplan hfresh script
  obtain ⟨engine, copy, fork, hrun⟩ := List.length_eq_three.1 hlength
  rw [hrun] at hengines
  refine ⟨plan, hplan, _, hfresh, engine, copy, fork, hrun, ?_⟩
  obtain ⟨_, hhistory, -, -, hticks, -⟩ := hengines 0 engine rfl
  obtain ⟨_, hhistory', -, -, hticks', hreset, -, hfork, -⟩ := hengines 1 copy rfl
  obtain ⟨_, hhistory'', -, -, hticks'', -⟩ := hengines 2 fork rfl
  cases hhistory
  cases hhistory'
  cases hhistory''
  refine ⟨hticks, hticks'.trans ?_, hticks'', hreset, hfork⟩
  simp [ticksSinceReset, Request.isReset, Request.ticks, hcount]

end Engines

end SignalGraph
