import SignalGraph.Proofs.Catalog.LowPass
import SignalGraph.Proofs.Engine.Cells

/-!
# Low-pass filters in engines

A low-pass filter in a patch keeps its output and nothing else. So it stays between minus one and
one whatever a host does with the engine, as long as the signal that it filters does
(`Engine.value?_lowpass_within`).
-/

namespace SignalGraph

open Catalog.LowPass Binary32

/-- The low-pass filter, checked. -/
def Schema.lowpass : Schema where
  unit := "lowpass"
  inputs := Catalog.lowpass.inputs
  outputs := Catalog.lowpass.outputs
  states := []
  arguments := [.input ⟨0, Nat.two_pos⟩, .input ⟨1, Nat.one_lt_two⟩, .output ⟨0, Nat.zero_lt_one⟩,
    .global .deltaTime]
  update := Catalog.LowPass.update
  arguments_nodup := by decide
  arguments_length := by decide
  input_mem := by decide
  output_mem := by decide
  state_mem := by decide

theorem Schema.ofDeclaration_lowpass : ofDeclaration Catalog.lowpass = .ok lowpass := by rfl

/-- A low-pass filter with the signals that it reads. -/
def Node.lowpass (input cutoff : Binding) : Node :=
  [input, cutoff].zipIdx.foldl connect (.ofSchema .lowpass)

theorem Patch.run_lowpass (input cutoff : Binding) (patch : Patch) :
    (lowpass input cutoff).run patch =
      .ok ((⟨patch.nodes.size⟩ : NodeId).output 0) (patch.push (.lowpass input cutoff)) :=
  run_wire Schema.ofDeclaration_lowpass Nat.le.refl patch

variable {patch : Patch} {roots : List OutputRef} {plan : Plan} {config : Config}
  {globals : Globals} {v w : Valuation} {id : NodeId} {input cutoff : Binding}

/-- What a filter reads in a tick from old to new values. -/
def Globals.filterTick (globals : Globals) (input cutoff : Binding) (v w : Valuation) : Tick :=
  ⟨input.read v w, cutoff.read v w, globals.deltaTime⟩

/-- A tick of the patch is a tick of the output of a filter. -/
theorem Node.lowpass_of_updates (hnode : patch.node? id = some (.lowpass input cutoff))
    (hupdates : patch.Updates globals v w id) :
    w (.output (id.output 0)) =
      tick (v (.output (id.output 0))) (globals.filterTick input cutoff v w) := by
  have harguments : (lowpass input cutoff).schema.arguments =
      [.input (0 : Fin 2), .input (1 : Fin 2), .output (0 : Fin 1), .global .deltaTime] := rfl
  have houtput : w (.output (id.output 0)) =
      ((lowpass input cutoff).answer globals v w id).get 2 :=
    hupdates.eq hnode (congrArg (·[2]?) harguments) rfl
  have hanswer : (lowpass input cutoff).answer globals v w id =
      update ((globals.filterTick input cutoff v w).frame (v (.output (id.output 0)))) := rfl
  rw [houtput, hanswer]
  rfl

theorem Patch.keysOf_lowpass (hnode : patch.node? id = some (.lowpass input cutoff)) :
    patch.keysOf id = [.output (id.output 0)] := by
  rw [keysOf_of_node hnode]
  rfl

theorem Patch.evolves_lowpass (hnode : patch.node? id = some (.lowpass input cutoff)) :
    patch.Evolves id (· (.output (id.output 0))) tick (·.filterTick input cutoff) where
  congr v w hagree := hagree _ (by simp [keysOf_lowpass hnode])
  updates _ _ _ := Node.lowpass_of_updates hnode

/-- While a filter of a patch reads a signal between minus one and one, that is what it puts out,
    whatever a host does with the engine, and whatever the cutoff and the time between ticks
    are. -/
theorem Engine.value?_lowpass_within (hbuilt : patch.Built)
    (h : Plan.compile patch roots = .ok plan)
    (hnode : patch.node? id = some (.lowpass input cutoff)) (hid : patch.Reachable roots id)
    (script : List Command)
    (hwithin : ∀ before globals, before ++ [.advance globals] <+: script →
      let engine := (ofPlan plan config).run before
      (input.read engine.valuation (engine.advance globals).valuation).Within) :
    ∃ output, ((ofPlan plan config).run script).value? (.output (id.output 0)) = some output ∧
      output.Within := by
  obtain ⟨r, hc⟩ := Plan.compile_eq_ok h
  obtain ⟨ticks, houtput, hticks⟩ := exists_steps hc hid
    (hbuilt.listsInputs.external_ne hnode nofun) (Patch.evolves_lowpass hnode) config
    (·.input.Within) script hwithin
  have hrun := (running_ofPlan hc config).run hc script
  have hkey : .output (id.output 0) ∈ patch.keysOf id := by simp [Patch.keysOf_lowpass hnode]
  refine ⟨Catalog.LowPass.run 0 ticks, ?_, within_run within_zero hticks⟩
  exact (hrun.value?_eq (hc.exists_slot hid hkey)).trans (congrArg some houtput)

end SignalGraph
