import Mathlib.Logic.Equiv.Basic
import SignalGraph.Proofs.Engine.Simulation
import SignalGraph.Proofs.Plan.Assignment
import SignalGraph.Proofs.Plan.Renaming

/-!
# Names cannot be heard

Engines of patches that differ in the names of their nodes only hold the same values under
these names, and give the same answers to whatever they are asked
(`Engine.run_indep_names`). Their plans differ in the order of histories, but between ticks
a history is as its output.

Seen under the first names, the engine of the second patch does what commands say to the
first patch (`Patch.RenamedBy.performs`).
-/

namespace SignalGraph

variable {σ : Equiv.Perm NodeId} {patch patch' : Patch} {roots : List OutputRef} {id : NodeId}
  {node : Node} {globals : Globals} {v w old new : Valuation} {command : Command}

/-! ## Values under other names -/

/-- The values that are held under other names. -/
def Valuation.under (σ : NodeId → NodeId) (v : Valuation) : Valuation := fun key => v (key.rename σ)

theorem Node.argument_rename (node : Node) (a : node.Argument) :
    (node.rename σ).argument globals old new (σ id) a =
      node.argument globals (old.under σ) (new.under σ) id a := by
  cases a with
  | input i =>
    have hinput : (node.rename σ).inputs.get i = (node.inputs.get i).rename σ :=
      Vector.getElem_map (Binding.rename σ) i.isLt
    simp only [argument, hinput]
    cases node.inputs.get i <;> rfl
  | output i => rfl
  | state i => rfl
  | global which => rfl

theorem Node.answer_rename (node : Node) :
    (node.rename σ).answer globals old new (σ id) =
      node.answer globals (old.under σ) (new.under σ) id :=
  congrArg (fun arguments => node.schema.update (.ofList arguments))
    (List.map_congr_left fun a _ => node.argument_rename a)

theorem Evaluator.resultKey?_rename {a : node.Argument} :
    resultKey? (σ id) a = (resultKey? id a).map (.rename σ) := by
  cases a <;> rfl

namespace Patch.RenamedBy

variable (h : patch.RenamedBy σ patch')
include h

theorem updates (hupdates : patch'.Updates globals old new (σ id)) :
    patch.Updates globals (old.under σ) (new.under σ) id := by
  obtain ⟨node', hnode', hupdates⟩ := hupdates
  rw [h.node?_eq] at hnode'
  obtain ⟨node, hnode, rfl⟩ := Option.map_eq_some_iff.1 hnode'
  refine ⟨node, hnode, fun a place hplace key hkey => ?_⟩
  have hkey' : Evaluator.resultKey? (σ id) a = some (key.rename σ) := by
    rw [Evaluator.resultKey?_rename, hkey, Option.map_some]
  rw [← node.answer_rename]
  exact hupdates a place hplace _ hkey'

theorem agreeOn (hagree : patch'.AgreeOn (patch'.Reachable (roots.map (·.rename σ))) v w) :
    patch.AgreeOn (patch.Reachable roots) (v.under σ) (w.under σ) := by
  intro id hid key hkey
  refine hagree (σ id) ((h.copies roots).reachable hid) (key.rename σ) ?_
  exact h.keysOf_eq id ▸ List.mem_map_of_mem hkey

theorem initialWord_under : Valuation.under σ patch'.initialWord = patch.initialWord :=
  funext h.initialWord_eq

theorem setInput_under (external : ExternalId) (value : Binary32) (v : Valuation) :
    (patch'.setInput external value v).under σ = patch.setInput external value (v.under σ) := by
  funext key
  have hstate : ∀ node, key.rename σ = .state (σ node) 0 ↔ key = .state node 0 :=
    fun node => @SlotKey.rename_inj σ key (.state node 0)
  simp only [Valuation.under, Patch.setInput, h.externals_eq, Array.getElem?_map]
  cases patch.externals[external.index]? with
  | none => rfl
  | some node => simp only [Option.map_some, Option.any_some, hstate]

/-- What commands do under one names they do under the other ones. -/
theorem performs
    (hperforms : patch'.Performs (patch'.Reachable (roots.map (·.rename σ))) v w command) :
    patch.Performs (patch.Reachable roots) (v.under σ) (w.under σ) command := by
  cases command with
  | advance globals =>
    exact fun id hid => h.updates (hperforms (σ id) ((h.copies roots).reachable hid))
  | setInput external value =>
    have hagree := h.agreeOn hperforms
    rw [h.setInput_under] at hagree
    exact hagree
  | reset =>
    have hagree := h.agreeOn hperforms
    rw [h.initialWord_under] at hagree
    exact hagree

end Patch.RenamedBy

theorem Patch.renamedBy_loopReversed : loop.RenamedBy (Equiv.swap ⟨0⟩ ⟨2⟩) loopReversed where
  node?_eq := by
    rintro ⟨_ | _ | _ | n⟩
    all_goals
      simp [Equiv.swap_apply_def, node?, loop, loopReversed, Node.rename, Binding.rename,
        OutputRef.rename, Schema.accumulator]
  externals_eq := by simp [loop, loopReversed]

/-! ## Engines -/

namespace Engine

variable {r r' : Resolution} {plan plan' : Plan}

section

variable (hrenamed : patch.RenamedBy σ patch') (h : Plan.Compiled patch roots r plan)
  (h' : Plan.Compiled patch' (roots.map (·.rename σ)) r' plan')
include hrenamed h h'

/-- Both engines give the same values to the nodes that contribute, each under its names. -/
theorem agreeOn_run_rename (config config' : Config) (script : List Command) :
    patch.AgreeOn (patch.Reachable roots) ((ofPlan plan config).run script).valuation
      (((ofPlan plan' config').run script).valuation.under σ) := by
  have hinitial : patch.AgreeOn (patch.Reachable roots) (ofPlan plan config).valuation
      ((ofPlan plan' config').valuation.under σ) := by
    have hinitial' := hrenamed.agreeOn (agreeOn_initialWord h' config')
    rw [hrenamed.initialWord_under] at hinitial'
    exact (agreeOn_initialWord h config).trans hinitial'.symm
  refine (running_ofPlan h config).agreeOn_run h h.resolvable.closed (fun _ hid => hid)
    (Running plan' r') (·.valuation.under σ) (fun engine' command hrun' => ?_)
    (running_ofPlan h' config') hinitial script
  exact ⟨hrun'.perform h' command, hrenamed.performs (hrun'.performs h' command)⟩

variable (horder : r'.order = r.order.map σ)
  (hdelayed : r'.delayed.Perm (r.delayed.map (·.rename σ)))
include horder hdelayed

/-- All that has a slot in one plan has one in the other, and the same value. -/
theorem value?_rename (config config' : Config) (script : List Command) (key : SlotKey) :
    ((ofPlan plan' config').run script).value? (key.rename σ) =
      ((ofPlan plan config).run script).value? key := by
  have hrun := (running_ofPlan h config).run h script
  have hrun' := (running_ofPlan h' config').run h' script
  have hslots := (h.allocates.renames h'.allocates hrenamed horder hdelayed).slot?_rename_eq_map key
  cases hslot : plan.layout.slot? key with
  | none => simp [value?, hrun.plan_eq, hrun'.plan_eq, hslots, hslot]
  | some slot =>
    rw [hslot, Option.map_some] at hslots
    rw [hrun.value?_eq ⟨slot, hslot⟩, hrun'.value?_eq ⟨_, hslots⟩]
    have hagree := agreeOn_run_rename hrenamed h h' config config' script
    refine congrArg some (hrun.valuation_eq_of_agreeOn h hagree (fun source hsource => ?_)
      ⟨slot, hslot⟩).symm
    exact hrun'.valuation_history (hdelayed.mem_iff.2 (List.mem_map_of_mem hsource))

end

/-- Names are only names: a patch whose nodes have other names compiles, too, and is
    updated in the same order. All outputs and states lie in the same slots, and histories
    change places among themselves. After each script both engines hold the same values,
    their samples are the same, and the same inputs can be set. -/
theorem run_indep_names (hrenamed : patch.RenamedBy σ patch')
    (h : Plan.compile patch roots = .ok plan) :
    ∃ plan', Plan.compile patch' (roots.map (·.rename σ)) = .ok plan' ∧
      plan'.steps.map (·.node) = plan.steps.map (σ ·.node) ∧
      (∀ key, (∀ source, key ≠ .history source) →
        plan'.layout.slot? (key.rename σ) = plan.layout.slot? key) ∧
      (∃ π : Equiv.Perm Nat,
        (∀ slot, (∀ source, plan.layout.key? slot ≠ some (.history source)) → π slot = slot) ∧
        ∀ key, plan'.layout.slot? (key.rename σ) = (plan.layout.slot? key).map π) ∧
      ∀ config config' script,
        let engine := (ofPlan plan config).run script
        let engine' := (ofPlan plan' config').run script
        (∀ key, engine'.value? (key.rename σ) = engine.value? key) ∧
        (∀ i, engine'.sample? i = engine.sample? i) ∧
        ∀ id value, (engine'.setInput? id value).isSome = (engine.setInput? id value).isSome := by
  obtain ⟨r, hc⟩ := Plan.compile_eq_ok h
  obtain ⟨r', plan', hplan', hc', horder, hdelayed⟩ := Plan.exists_compiled_rename hrenamed hc
  have hlayout := hc.allocates.renames hc'.allocates hrenamed horder hdelayed
  refine ⟨plan', hplan', ?_, fun key hkey => hlayout.slot?_rename key ?_,
    ⟨hlayout.perm, fun _ => hlayout.perm_eq_self, hlayout.slot?_rename_eq_map⟩,
    fun config config' script => ?_⟩
  · rw [hc'.map_node_steps, horder, ← hc.map_node_steps, List.map_map]
    rfl
  · exact SlotKey.isSome_owner?_iff.2 hkey
  · intro engine engine'
    have hrun : Running plan r engine := (running_ofPlan hc config).run hc script
    have hrun' : Running plan' r' engine' := (running_ofPlan hc' config').run hc' script
    have hvalue := value?_rename hrenamed hc hc' horder hdelayed config config' script
    refine ⟨hvalue, fun i => ?_, fun id value => ?_⟩
    · rw [hrun.sample?_eq hc, hrun'.sample?_eq hc', List.getElem?_map]
      cases roots[i]? with
      | none => rfl
      | some root => exact hvalue (.output root)
    · rw [setInput?, setInput?, hrun.plan_eq, hrun'.plan_eq, Option.isSome_map, Option.isSome_map,
        Plan.externalSlot?_rename hrenamed hc hc' hlayout]

/-- The loop sounds the same with its nodes added in the opposite order. -/
theorem run_indep_names_loop : ∃ plan plan',
    Patch.loop.RenamedBy (Equiv.swap ⟨0⟩ ⟨2⟩) .loopReversed ∧
    Plan.compile .loop [⟨⟨1⟩, 0⟩] = .ok plan ∧
    Plan.compile .loopReversed [⟨⟨1⟩, 0⟩] = .ok plan' ∧
    ((ofPlan plan').run [.advance ⟨1⟩, .reset, .advance ⟨0⟩]).sample? 0 =
      ((ofPlan plan).run [.advance ⟨1⟩, .reset, .advance ⟨0⟩]).sample? 0 := by
  obtain ⟨plan, hplan⟩ := Plan.exists_compile_eq_ok Patch.resolution_loop
  obtain ⟨plan', hplan', -, -, -, hrun⟩ := run_indep_names Patch.renamedBy_loopReversed hplan
  exact ⟨plan, plan', Patch.renamedBy_loopReversed, hplan, hplan',
    (hrun {} {} [.advance ⟨1⟩, .reset, .advance ⟨0⟩]).2.1 0⟩

end Engine

end SignalGraph
