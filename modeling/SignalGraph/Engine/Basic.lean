import SignalGraph.Engine.Clock
import SignalGraph.Engine.Config
import SignalGraph.Plan.Basic

/-!
# Engines

An engine runs a plan on a row of slots of its own, and keeps a clock. Engines of
the same plan have nothing else in common: `Engine.fork` gives a fresh one.
-/

namespace SignalGraph

/-- A plan at work. -/
structure Engine where
  /-- The plan. -/
  plan : Plan
  /-- What the slots hold. -/
  values : Array Binary32
  /-- The ticks so far. -/
  clock : Clock
  /-- The settings. -/
  config : Config

/-- A buffer, and how many of its frames have been filled. -/
structure Rendered extends Array Binary32 where
  /-- The number of frames. -/
  frames : Nat

namespace Engine

/-- A fresh engine. -/
def ofPlan (plan : Plan) (config : Config := {}) : Engine := ⟨plan, plan.layout.initial, {}, config⟩

/-- A fresh engine with settings that are checked first. -/
def ofPlanChecked (plan : Plan) (config : Config) : Except ConfigError Engine := do
  config.check
  pure (ofPlan plan config)

/-- A fresh engine for the roots of a patch. -/
def ofPatch (patch : Patch) (roots : List OutputRef) : Except GraphError Engine :=
  (Plan.compile patch roots).map ofPlan

/-- Runs a tick. -/
def advance (engine : Engine) (globals : Globals) : Engine :=
  { engine with
    values := engine.plan.execute globals engine.values
    clock := engine.clock.advance globals.deltaTime }

/-- Runs a tick of the length that the sample rate says. -/
def tick (engine : Engine) : Engine := engine.advance ⟨engine.config.deltaTime⟩

/-- The number of roots. -/
def outputCount (engine : Engine) : Nat := engine.plan.outputSlots.length

/-- The value of a root. -/
def sample? (engine : Engine) (index : Nat) : Option Binary32 :=
  (engine.plan.outputSlot? index).map (engine.values.getD · 0)

/-- The values of all roots. -/
def samples (engine : Engine) : List Binary32 :=
  engine.plan.outputSlots.map (engine.values.getD · 0)

/-- Runs a number of ticks, adds the values of all roots after each to a buffer as
    a frame, and counts the frames. -/
def fill (engine : Engine) (rendered : Rendered) : Nat → Engine × Rendered
  | 0 => (engine, rendered)
  | left + 1 =>
    let engine := engine.tick
    fill engine ⟨rendered.toArray ++ engine.samples, rendered.frames + 1⟩ left

/-- The number of whole frames in a buffer: none if there are no roots. -/
def frameCount (engine : Engine) (buffer : Array Binary32) : Nat :=
  buffer.size / engine.outputCount

/-- Fills a buffer frame by frame, one tick and one value of each root for a frame,
    and says how many frames it has filled. What is left at the end of the buffer
    and is no whole frame stays as it was. -/
def render (engine : Engine) (buffer : Array Binary32) : Engine × Rendered :=
  let (engine, filled) := engine.fill ⟨#[], 0⟩ (engine.frameCount buffer)
  (engine, { filled with toArray := filled.toArray ++ buffer.extract filled.size })

/-- Sets a host input. None, if it contributes to no root. -/
def setInput? (engine : Engine) (id : ExternalId) (value : Binary32) : Option Engine :=
  (engine.plan.externalSlot? id).map fun slot =>
    { engine with values := engine.values.setIfInBounds slot value }

/-- Goes back to the beginning. -/
def reset (engine : Engine) : Engine :=
  { engine with values := engine.plan.layout.initial, clock := {} }

/-- A fresh engine with the same plan and settings. -/
def fork (engine : Engine) : Engine := ofPlan engine.plan engine.config

/-- The value of anything that has a slot. -/
def value? (engine : Engine) (key : SlotKey) : Option Binary32 :=
  (engine.plan.layout.slot? key).map (engine.values.getD · 0)

end Engine

end SignalGraph
