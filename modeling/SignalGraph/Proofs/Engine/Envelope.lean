import SignalGraph.Proofs.Catalog.Envelope
import SignalGraph.Proofs.Engine.Cells

/-!
# Envelopes in engines

The cells of an envelope in a patch are its state and its output. Whatever a host does with an
engine, they are what a run of ticks makes of the cells at the beginning
(`Engine.exists_envelope_run`), so that all that holds of such runs is heard: with a `sustain` that
is a number the engine puts out a level between zero and one (`Engine.value?_envelope_bounded`).
-/

namespace SignalGraph

open Catalog.Envelope

/-- The envelope, checked. -/
def Schema.envelope : Schema where
  unit := "adsr"
  inputs := Catalog.adsr.inputs
  outputs := Catalog.adsr.outputs
  states := Catalog.adsr.states
  arguments := [.input (0 : Fin 5), .input (1 : Fin 5), .input (2 : Fin 5), .input (3 : Fin 5),
    .input (4 : Fin 5), .state (0 : Fin 1), .output (0 : Fin 1), .global .deltaTime]
  update := Catalog.Envelope.update
  arguments_nodup := by decide
  arguments_length := by decide
  input_mem := by decide
  output_mem := by decide
  state_mem := by decide

theorem Schema.ofDeclaration_envelope : ofDeclaration Catalog.adsr = .ok envelope := by rfl

/-- An envelope with the signals that it reads, in a stage to begin with. -/
def Node.envelope (gate attack decay sustain release : Binding) (stage : Int32) : Node :=
  ⟨.envelope, #v[gate, attack, decay, sustain, release], #v[.int stage]⟩

theorem Patch.run_adsr (gate attack decay sustain release : Binding) (patch : Patch) :
    (adsr gate attack decay sustain release).run patch =
      .ok ((⟨patch.nodes.size⟩ : NodeId).output 0)
        (patch.push (.envelope gate attack decay sustain release Stage.attack.toInt)) :=
  run_wire Schema.ofDeclaration_envelope Nat.le.refl patch

/-- What the state and the output of an envelope hold. -/
def Valuation.cells (v : Valuation) (id : NodeId) : Cells :=
  ⟨(v (.state id 0)).toInt32, v (.output (id.output 0))⟩

variable {patch : Patch} {roots : List OutputRef} {r : Resolution} {plan : Plan} {config : Config}
  {globals : Globals} {v w : Valuation} {id : NodeId} {stage : Int32}
  {gate attack decay sustain release : Binding}

/-! ## A tick -/

/-- What is read in a tick from old to new values. -/
def Globals.tick (globals : Globals) (gate attack decay sustain release : Binding)
    (v w : Valuation) : Tick :=
  ⟨⟨gate.read v w, attack.read v w, decay.read v w, sustain.read v w, release.read v w⟩,
    globals.deltaTime⟩

/-- A tick of the patch is a tick of the cells of an envelope. -/
theorem Node.envelope_of_updates
    (hnode : patch.node? id = some (.envelope gate attack decay sustain release stage))
    (hupdates : patch.Updates globals v w id) :
    w.cells id = (v.cells id).tick (globals.tick gate attack decay sustain release v w) := by
  let node := envelope gate attack decay sustain release stage
  have harguments : node.schema.arguments = [.input (0 : Fin 5), .input (1 : Fin 5),
      .input (2 : Fin 5), .input (3 : Fin 5), .input (4 : Fin 5), .state (0 : Fin 1),
      .output (0 : Fin 1), .global .deltaTime] := rfl
  have hstate : w (.state id 0) = (node.answer globals v w id).get 5 :=
    hupdates.eq hnode (congrArg (·[5]?) harguments) rfl
  have houtput : w (.output (id.output 0)) = (node.answer globals v w id).get 6 :=
    hupdates.eq hnode (congrArg (·[6]?) harguments) rfl
  have hanswer : node.answer globals v w id =
      update ((globals.tick gate attack decay sustain release v w).frame (v.cells id)) := rfl
  rw [Valuation.cells, hstate, houtput, hanswer]
  rfl

/-! ## A script -/

theorem Patch.keysOf_envelope
    (hnode : patch.node? id = some (.envelope gate attack decay sustain release stage)) :
    patch.keysOf id = [.output (id.output 0), .state id 0] := by
  rw [keysOf_of_node hnode]
  rfl

theorem Patch.evolves_envelope
    (hnode : patch.node? id = some (.envelope gate attack decay sustain release stage)) :
    patch.Evolves id (·.cells id) Cells.tick (·.tick gate attack decay sustain release) where
  congr v w hagree := by
    have hkeys := keysOf_envelope hnode
    rw [Valuation.cells, Valuation.cells, hagree (.state id 0) (by simp [hkeys]),
      hagree (.output (id.output 0)) (by simp [hkeys])]
  updates _ _ _ := Node.envelope_of_updates hnode

theorem Patch.initialWord_cells
    (hnode : patch.node? id = some (.envelope gate attack decay sustain release stage)) :
    Valuation.cells patch.initialWord id = ⟨stage, 0⟩ := by
  rw [Valuation.cells, initialWord, stateValue?, hnode]
  rfl

namespace Engine

/-- The cells of an envelope at any time are what a run of ticks makes of the cells at the
    beginning, and each of the ticks is one that the script has run. -/
theorem exists_envelope_run (h : Plan.Compiled patch roots r plan) (hlists : patch.ListsInputs)
    (hnode : patch.node? id = some (.envelope gate attack decay sustain release stage))
    (hid : patch.Reachable roots id) (p : Tick → Prop) (script : List Command)
    (hp : ∀ before globals, before ++ [.advance globals] <+: script →
      let engine := (ofPlan plan config).run before
      p (globals.tick gate attack decay sustain release engine.valuation
        (engine.advance globals).valuation)) :
    ∃ ticks, ((ofPlan plan config).run script).valuation.cells id = (⟨stage, 0⟩ : Cells).run ticks ∧
      ∀ t ∈ ticks, p t := by
  have hother := hlists.external_ne hnode nofun
  obtain ⟨ticks, hcells, hticks⟩ :=
    exists_steps h hid hother (Patch.evolves_envelope hnode) config p script hp
  rw [Patch.initialWord_cells hnode] at hcells
  exact ⟨ticks, hcells, hticks⟩

/-- While `sustain` is a number and time does not run backwards, an envelope of a patch puts out
    a level between zero and one, whatever a host does with the engine. -/
theorem value?_envelope_bounded (hbuilt : patch.Built) (h : Plan.compile patch roots = .ok plan)
    (hnode : patch.node? id = some (.envelope gate attack decay sustain release stage))
    (hstage : (StateValue.int stage).fits (.enum Stage.count)) (hid : patch.Reachable roots id)
    (script : List Command)
    (hregular : ∀ before globals, before ++ [.advance globals] <+: script →
      let engine := (ofPlan plan config).run before
      (sustain.read engine.valuation (engine.advance globals).valuation).isNaN = false ∧
        globals.deltaTime.isFinite ∧ 0 ≤ globals.deltaTime) :
    ∃ level, ((ofPlan plan config).run script).value? (.output (id.output 0)) = some level ∧
      0 ≤ level ∧ level ≤ 1 := by
  obtain ⟨r, hc⟩ := Plan.compile_eq_ok h
  obtain ⟨ticks, hcells, hticks⟩ := exists_envelope_run hc hbuilt.listsInputs hnode hid
    (fun t => Regular t.controls t.dt) script fun before globals hbefore => by
      obtain ⟨hsustain, hfinite, hdt⟩ := hregular before globals hbefore
      exact ⟨hsustain, hfinite, hdt⟩
  obtain ⟨s, hs, hbounded⟩ := exists_state_run hstage hticks
  have hrun := (running_ofPlan hc config).run hc script
  have hkey : .output (id.output 0) ∈ patch.keysOf id := by simp [Patch.keysOf_envelope hnode]
  have hlevel : ((ofPlan plan config).run script).valuation (.output (id.output 0)) = s.level :=
    congrArg Cells.level (hcells.trans hs)
  exact ⟨s.level, hlevel ▸ hrun.value?_eq (hc.exists_slot hid hkey), hbounded.zero_le,
    hbounded.le_one⟩

end Engine

end SignalGraph
