import SignalGraph.Engine.Basic
import SignalGraph.Proofs.Plan.Tick

/-!
# Scripts

What a host does with an engine: it runs ticks of any length, sets inputs to any
words, and goes back to the beginning, in any order (`Engine.run`).

An engine that has only been used like this stays settled between ticks
(`Engine.Running.run`), and each command does to its values what can be said without
its plan: a tick solves the equations of the patch, setting an input changes one state
of one node, a reset restores the initial values.
-/

namespace SignalGraph

/-- What a host asks of an engine. -/
inductive Command where
  /-- A tick. -/
  | advance (globals : Globals)
  /-- Setting a host input. Nothing happens if it contributes to no root. -/
  | setInput (id : ExternalId) (value : Binary32)
  /-- Going back to the beginning. -/
  | reset

/-- The values after setting a host input. -/
def Patch.setInput (patch : Patch) (id : ExternalId) (value : Binary32) (v : Valuation) :
    Valuation :=
  fun key => if patch.externals[id.index]?.any (key = .state · 0) then value else v key

theorem Patch.setInput_state (patch : Patch) (external : ExternalId) (value : Binary32)
    (v : Valuation) (id : NodeId) :
    patch.setInput external value v (.state id 0) =
      if patch.externals[external.index]? = some id then value else v (.state id 0) := by
  rw [setInput]
  cases patch.externals[external.index]? <;> simp [eq_comm]

namespace Engine

open Evaluator

/-- Does what the host asks. -/
def perform (engine : Engine) : Command → Engine
  | .advance globals => engine.advance globals
  | .setInput id value => (engine.setInput? id value).getD engine
  | .reset => engine.reset

/-- Does all that the host asks, in turn. -/
def run (engine : Engine) (script : List Command) : Engine := script.foldl perform engine

/-- What the outputs and states are; zero, where there is no slot. -/
def valuation (engine : Engine) : Valuation := fun key => (engine.value? key).getD 0

theorem valuation_eq (engine : Engine) :
    engine.valuation = look engine.plan.layout engine.values := rfl

/-- The engine runs the plan, and is between ticks. -/
structure Running (plan : Plan) (r : Resolution) (engine : Engine) : Prop where
  plan_eq : engine.plan = plan
  settled : plan.Settled r engine.values
  silent : engine.clock.ticks = 0 → ∀ source, engine.valuation (.output source) = 0

variable {patch : Patch} {roots : List OutputRef} {r : Resolution} {plan : Plan}
  {engine : Engine} {globals : Globals} {key : SlotKey}

/-- All outputs are zero at the beginning. -/
theorem look_initial_output (h : Plan.Compiled patch roots r plan) (source : OutputRef) :
    look plan.layout plan.layout.initial (.output source) = 0 := by
  cases hslot : plan.layout.slot? (.output source) with
  | none => simp [look, hslot]
  | some slot => exact look_initial h.allocates ⟨slot, hslot⟩

theorem running_ofPlan (h : Plan.Compiled patch roots r plan) (config : Config) :
    Running plan r (ofPlan plan config) where
  plan_eq := rfl
  settled := h.settled_initial
  silent _ := look_initial_output h

namespace Running

variable (h : Plan.Compiled patch roots r plan) (hrun : Running plan r engine)
include hrun

theorem valuation_eq : engine.valuation = look plan.layout engine.values := by
  rw [Engine.valuation_eq, hrun.plan_eq]

theorem exists_slot_of_value? (hkey : (engine.value? key).isSome) :
    ∃ slot, plan.layout.slot? key = some slot := by
  rw [value?, hrun.plan_eq, Option.isSome_map] at hkey
  exact Option.isSome_iff_exists.1 hkey

theorem value?_eq (hkey : ∃ slot, plan.layout.slot? key = some slot) :
    engine.value? key = some (engine.valuation key) := by
  obtain ⟨slot, hslot⟩ := hkey
  simp [valuation, value?, hrun.plan_eq, hslot]

/-- Between ticks, a history is as the output. -/
theorem valuation_history {source : OutputRef} (hsource : source ∈ r.delayed) :
    engine.valuation (.history source) = engine.valuation (.output source) := by
  rw [hrun.valuation_eq]
  exact hrun.settled.history_eq source hsource

include h

/-- A sample is the value of a root. -/
theorem sample?_eq (index : Nat) :
    engine.sample? index = roots[index]?.bind fun root => engine.value? (.output root) := by
  rw [sample?, hrun.plan_eq, h.outputSlot?_eq]
  cases roots[index]? with
  | none => rfl
  | some root => rw [Option.bind_some, Option.bind_some, value?, hrun.plan_eq]

theorem isSome_value?_root {root : OutputRef} (hroot : root ∈ roots) :
    (engine.value? (.output root)).isSome := by
  have hkey := Patch.output_mem_keysOf (h.resolvable.root_exists root hroot)
  rw [hrun.value?_eq (h.exists_slot (.root hroot) hkey), Option.isSome_some]

theorem sample?_of_root {root : OutputRef} {index : Nat} (hroot : roots[index]? = some root) :
    engine.sample? index = some (engine.valuation (.output root)) := by
  have hmem := List.mem_of_getElem? hroot
  have hkey := Patch.output_mem_keysOf (h.resolvable.root_exists root hmem)
  rw [hrun.sample?_eq h, hroot, Option.bind_some]
  exact hrun.value?_eq (h.exists_slot (.root hmem) hkey)

theorem values_advance : (engine.advance globals).values =
    Evaluator.tick patch r plan.layout globals engine.values := by
  rw [advance, hrun.plan_eq, h.execute_eq]

theorem perform_setInput (id : ExternalId) (value : Binary32) :
    engine.perform (.setInput id value) =
      match patch.externals[id.index]? with
      | some node => { engine with values := put plan.layout engine.values (.state node 0) value }
      | none => engine := by
  obtain rfl := hrun.plan_eq
  rw [Engine.perform, setInput?, h.externalSlot?_eq]
  cases patch.externals[id.index]? with
  | none => rfl
  | some node => cases hslot : engine.plan.layout.slot? (.state node 0) <;> simp [put, hslot]

/-- A command leaves the engine as it should be between ticks. -/
theorem perform (command : Command) : Running plan r (engine.perform command) := by
  cases command with
  | advance globals =>
    refine ⟨hrun.plan_eq, ?_, fun hticks => absurd hticks (Nat.succ_ne_zero _)⟩
    rw [Engine.perform, hrun.values_advance h]
    exact h.settled_tick hrun.settled.size_eq
  | setInput id value =>
    rw [hrun.perform_setInput h]
    cases patch.externals[id.index]? with
    | none => exact hrun
    | some node =>
      refine ⟨hrun.plan_eq, h.settled_put hrun.settled, fun hticks source => ?_⟩
      rw [Engine.valuation_eq, hrun.plan_eq, look_put_of_ne h.allocates (by simp),
        ← hrun.valuation_eq]
      exact hrun.silent hticks source
  | reset =>
    refine ⟨hrun.plan_eq, ?_, fun _ source => ?_⟩
    · rw [Engine.perform, Engine.reset, hrun.plan_eq]
      exact h.settled_initial
    · rw [Engine.valuation_eq, Engine.perform, Engine.reset, hrun.plan_eq]
      exact look_initial_output h source

/-- An engine in use is as it should be between ticks. -/
theorem run (script : List Command) : Running plan r (engine.run script) := by
  induction script generalizing engine with
  | nil => exact hrun
  | cons command script ih => exact ih (hrun.perform h command)

/-- A tick solves the equations of all nodes that contribute. -/
theorem advance_updates (globals : Globals) {id : NodeId} (hid : patch.Reachable roots id) :
    patch.Updates globals engine.valuation (engine.advance globals).valuation id := by
  rw [hrun.valuation_eq, Engine.valuation_eq, hrun.values_advance h, advance, hrun.plan_eq]
  exact h.tick_updates hrun.settled hid

/-- Setting an input sets one state of one node. -/
theorem valuation_setInput (id : ExternalId) (value : Binary32)
    (hkey : ∃ slot, plan.layout.slot? key = some slot) :
    (engine.perform (.setInput id value)).valuation key =
      patch.setInput id value engine.valuation key := by
  rw [hrun.perform_setInput h, Patch.setInput]
  cases patch.externals[id.index]? with
  | none => simp
  | some node =>
    rw [Engine.valuation_eq, hrun.valuation_eq, hrun.plan_eq, Option.any_some]
    by_cases hne : key = .state node 0
    · subst hne
      rw [look_put_self h.allocates hrun.settled.size_eq hkey]
      simp
    · rw [look_put_of_ne h.allocates hne]
      simp [hne]

/-- A reset restores the initial values. -/
theorem valuation_reset (hkey : ∃ slot, plan.layout.slot? key = some slot) :
    engine.reset.valuation key = patch.initialWord key := by
  rw [Engine.valuation_eq, Engine.reset, hrun.plan_eq]
  exact look_initial h.allocates hkey

end Running

end Engine

/-! ## A patch with a loop -/

/-- The unit that adds up its input. -/
def Schema.accumulator : Schema where
  unit := "accumulator"
  inputs := [{ name := "input", default := 0 }]
  outputs := [{ name := "output", access := .readWrite }]
  states := []
  arguments := [.input 0, .output 0]
  update := fun frame => frame.set 1 (frame.get 1 + frame.get 0)
  arguments_nodup := by decide
  arguments_length := by decide
  input_mem := by decide
  output_mem := by decide
  state_mem := by decide

/-- Two nodes in a loop with a delay, and a third one that listens to the first. -/
def Patch.loop : Patch where
  nodes := #[
    ⟨.accumulator, #v[.feedback ⟨⟨1⟩, 0⟩], #v[]⟩,
    ⟨.accumulator, #v[.output ⟨⟨0⟩, 0⟩], #v[]⟩,
    ⟨.accumulator, #v[.output ⟨⟨0⟩, 0⟩], #v[]⟩]

/-- The loop, with its nodes added in the opposite order. -/
def Patch.loopReversed : Patch where
  nodes := #[
    ⟨.accumulator, #v[.output ⟨⟨2⟩, 0⟩], #v[]⟩,
    ⟨.accumulator, #v[.output ⟨⟨2⟩, 0⟩], #v[]⟩,
    ⟨.accumulator, #v[.feedback ⟨⟨1⟩, 0⟩], #v[]⟩]

theorem Patch.resolution_loop : Resolution.ofPatch loop [⟨⟨1⟩, 0⟩] =
    .ok ⟨[⟨0⟩, ⟨1⟩], [⟨⟨1⟩, 0⟩]⟩ := by decide +kernel

/-- The listener comes first in the order of discovery, and last in update order. -/
theorem Patch.resolution_loop_listener : Resolution.ofPatch loop [⟨⟨2⟩, 0⟩, ⟨⟨1⟩, 0⟩] =
    .ok ⟨[⟨0⟩, ⟨1⟩, ⟨2⟩], [⟨⟨1⟩, 0⟩]⟩ := by decide +kernel

end SignalGraph
