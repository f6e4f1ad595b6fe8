import SignalGraph.Proofs.Catalog.Oscillator
import SignalGraph.Proofs.Engine.Cells

/-!
# Oscillators in engines

An oscillator in a patch keeps its phase, and puts out what it makes of it. Whatever a host does
with an engine, a tick leaves the phase within a turn as long as no tick goes on by more than
`2²³` turns (`Engine.value?_oscillator_wrapped`).
-/

namespace SignalGraph

open Catalog (Waveform)
open Catalog.Oscillator Binary32

/-- The oscillator of a waveform, checked. -/
def Schema.oscillator (w : Waveform) : Schema where
  unit := w.name
  inputs := [⟨"frequency", 1, .float⟩, ⟨"min", -1, .float⟩, ⟨"max", 1, .float⟩]
  outputs := [{ name := "output" }]
  states := [.float "phase" 0]
  arguments := [.input (0 : Fin 3), .input (1 : Fin 3), .input (2 : Fin 3),
    .state ⟨0, Nat.zero_lt_one⟩, .output ⟨0, Nat.zero_lt_one⟩, .global .deltaTime]
  update := Catalog.Oscillator.update w
  arguments_nodup := by decide
  arguments_length := by decide
  input_mem := by decide
  output_mem := by decide
  state_mem := by decide

theorem Schema.ofDeclaration_oscillator (w : Waveform) :
    ofDeclaration (Catalog.oscillator w) = .ok (oscillator w) := by rfl

/-- An oscillator with the signals that it reads, at a phase to begin with. -/
def Node.oscillator (w : Waveform) (frequency min max : Binding) (phase : Binary32) : Node :=
  ⟨.oscillator w, #v[frequency, min, max], .replicate 1 (.float phase)⟩

theorem Patch.run_oscillator (w : Waveform) (frequency min max : Binding) (patch : Patch) :
    (oscillator w frequency min max).run patch =
      .ok ((⟨patch.nodes.size⟩ : NodeId).output 0)
        (patch.push (.oscillator w frequency min max 0)) :=
  run_wire (Schema.ofDeclaration_oscillator w) Nat.le.refl patch

variable {patch : Patch} {roots : List OutputRef} {plan : Plan} {config : Config}
  {globals : Globals} {old new : Valuation} {id : NodeId} {w : Waveform}
  {frequency min max : Binding} {phase : Binary32}

/-- What an oscillator reads in a tick from old to new values. -/
def Globals.oscillatorTick (globals : Globals) (frequency min max : Binding)
    (old new : Valuation) : Tick :=
  ⟨frequency.read old new, min.read old new, max.read old new, globals.deltaTime⟩

/-- A tick of the patch is a tick of the phase of an oscillator. -/
theorem Node.oscillator_of_updates
    (hnode : patch.node? id = some (.oscillator w frequency min max phase))
    (hupdates : patch.Updates globals old new id) :
    new (.state id 0) =
      tick w (old (.state id 0)) (globals.oscillatorTick frequency min max old new) := by
  let node := oscillator w frequency min max phase
  have harguments : node.schema.arguments = [.input (0 : Fin 3), .input (1 : Fin 3),
      .input (2 : Fin 3), .state (0 : Fin 1), .output (0 : Fin 1), .global .deltaTime] := rfl
  have hstate : new (.state id 0) = (node.answer globals old new id).get 3 :=
    hupdates.eq hnode (congrArg (·[3]?) harguments) rfl
  have hanswer : node.answer globals old new id =
      update w ((globals.oscillatorTick frequency min max old new).frame (old (.state id 0))) := rfl
  rw [hstate, hanswer]
  rfl

theorem Patch.keysOf_oscillator
    (hnode : patch.node? id = some (.oscillator w frequency min max phase)) :
    patch.keysOf id = [.output (id.output 0), .state id 0] := by
  rw [keysOf_of_node hnode]
  rfl

theorem Patch.evolves_oscillator
    (hnode : patch.node? id = some (.oscillator w frequency min max phase)) :
    patch.Evolves id (· (.state id 0)) (tick w) (·.oscillatorTick frequency min max) where
  congr old new hagree := hagree _ (by simp [keysOf_oscillator hnode])
  updates _ _ _ := Node.oscillator_of_updates hnode

theorem Patch.initialWord_phase
    (hnode : patch.node? id = some (.oscillator w frequency min max phase)) :
    patch.initialWord (.state id 0) = phase := by
  rw [initialWord, stateValue?, hnode]
  rfl

/-- An oscillator of a patch has its phase wrapped after each tick, whatever a host does with the
    engine, as long as no tick goes on by more than `2²³` turns, and the phase was not beyond to
    begin with. -/
theorem Engine.value?_oscillator_wrapped (hbuilt : patch.Built)
    (h : Plan.compile patch roots = .ok plan)
    (hnode : patch.node? id = some (.oscillator w frequency min max phase)) (hphase : Near phase)
    (hid : patch.Reachable roots id) (script : List Command) (globals : Globals)
    (hnear : ∀ before globals', before ++ [.advance globals'] <+: script ++ [.advance globals] →
      let engine := (ofPlan plan config).run before
      Near (globals'.deltaTime *
        frequency.read engine.valuation (engine.advance globals').valuation * tau)) :
    ∃ phase', ((ofPlan plan config).run (script ++ [.advance globals])).value? (.state id 0) =
      some phase' ∧ Wrapped phase' := by
  obtain ⟨r, hc⟩ := Plan.compile_eq_ok h
  have hevolves := Patch.evolves_oscillator hnode
  obtain ⟨ticks, hstate, hticks⟩ := exists_steps hc hid
    (hbuilt.listsInputs.external_ne hnode nofun) hevolves config
    (fun t => Near (t.dt * t.frequency * tau)) script fun before globals' hbefore =>
      hnear before globals' (hbefore.trans (List.prefix_append ..))
  rw [Patch.initialWord_phase hnode] at hstate
  let engine := (ofPlan plan config).run script
  let t := globals.oscillatorTick frequency min max engine.valuation
    (engine.advance globals).valuation
  have ht : Near (t.dt * t.frequency * tau) := hnear script globals List.prefix_rfl
  have hbefore : Near (engine.valuation (.state id 0)) := hstate ▸ near_run w hphase hticks
  have hrun := (running_ofPlan hc config).run hc script
  have hlast : (engine.advance globals).valuation (.state id 0) =
      Catalog.Oscillator.tick w (engine.valuation (.state id 0)) t :=
    hevolves.updates globals _ _ (hrun.performs hc (.advance globals) id hid)
  have hkey : .state id 0 ∈ patch.keysOf id := by simp [Patch.keysOf_oscillator hnode]
  refine ⟨_, ?_, tick_wrapped w hbefore ht⟩
  rw [Engine.run, List.foldl_concat]
  exact ((hrun.perform hc (.advance globals)).value?_eq (hc.exists_slot hid hkey)).trans
    (congrArg some hlast)

end SignalGraph
