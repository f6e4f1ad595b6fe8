import SignalGraph.Proofs.Engine.Script

/-!
# Engines and direct evaluation

Compiling a patch and evaluating it directly are two ways to the same values. They fail
for the same reason or not at all, and whatever a host then asks of both, they hold the
same words in the same slots and give the same answers (`Evaluator.agrees_with_engine`).

The two look for slots at different times and in different ways. That they find the
same ones is part of the invariant, as an engine has been compiled from what its
evaluator still has (`Evaluator.Agrees`).
-/

namespace SignalGraph

namespace Evaluator

/-- Does what the host asks. -/
def perform (e : Evaluator) : Command → Evaluator
  | .advance globals => e.advance globals
  | .setInput id value => (e.setInput? id value).getD e
  | .reset => e.reset

/-- Does all that the host asks, in turn. -/
def run (e : Evaluator) (script : List Command) : Evaluator := script.foldl perform e

/-- The engine runs what the evaluator evaluates, and both hold the same values. -/
structure Agrees (e : Evaluator) (engine : Engine) : Prop where
  compiled : Plan.Compiled e.patch e.roots e.resolution engine.plan
  layout_eq : e.layout = engine.plan.layout
  values_eq : e.values = engine.values

namespace Agrees

variable {e : Evaluator} {engine : Engine} (h : e.Agrees engine)
include h

/-- The slot of a host input, looked up by its node or in the list of the plan. -/
theorem setInput?_eq (id : ExternalId) (value : Binary32) :
    e.setInput? id value = (engine.plan.externalSlot? id).map fun slot =>
      { e with values := e.values.setIfInBounds slot value } := by
  rw [setInput?, h.compiled.externalSlot?_eq, h.layout_eq]
  cases e.patch.externals[id.index]? with
  | none => rfl
  | some node => cases hslot : engine.plan.layout.slot? (.state node 0) <;> simp [hslot]

theorem isSome_setInput? (id : ExternalId) (value : Binary32) :
    (engine.setInput? id value).isSome = (e.setInput? id value).isSome := by
  rw [h.setInput?_eq, Engine.setInput?, Option.isSome_map, Option.isSome_map]

/-- The slot of a root, looked up by its output or in the list of the plan. -/
theorem sample?_eq (index : Nat) : engine.sample? index = e.sample? index := by
  rw [Engine.sample?, sample?, h.compiled.outputSlot?_eq, h.layout_eq, h.values_eq]
  cases e.roots[index]? with
  | none => rfl
  | some root => cases hslot : engine.plan.layout.slot? (.output root) <;> simp [hslot]

/-- A command keeps the values the same. -/
theorem perform (command : Command) : (e.perform command).Agrees (engine.perform command) := by
  cases command with
  | advance globals =>
    refine ⟨h.compiled, h.layout_eq, ?_⟩
    rw [Evaluator.perform, advance_eq, Engine.perform, Engine.advance, h.compiled.execute_eq,
      h.layout_eq, h.values_eq]
  | setInput id value =>
    rw [Evaluator.perform, h.setInput?_eq, Engine.perform, Engine.setInput?]
    cases engine.plan.externalSlot? id with
    | none => exact h
    | some slot => exact ⟨h.compiled, h.layout_eq, by simp [h.values_eq]⟩
  | reset =>
    exact ⟨h.compiled, h.layout_eq, by
      rw [Evaluator.perform, reset, Engine.perform, Engine.reset, h.layout_eq]⟩

theorem run (script : List Command) : (e.run script).Agrees (engine.run script) := by
  induction script generalizing e engine with
  | nil => exact h
  | cons command script ih => exact ih (h.perform command)

end Agrees

variable {patch : Patch} {roots : List OutputRef}

/-- What can be resolved can be compiled and evaluated, with the same layout. -/
theorem exists_agrees {r : Resolution} (h : Resolution.ofPatch patch roots = .ok r) :
    ∃ engine e, Engine.ofPatch patch roots = .ok engine ∧ ofPatch patch roots = .ok e ∧
      e.Agrees engine := by
  obtain ⟨plan, hplan⟩ := Plan.exists_compile_eq_ok h
  obtain ⟨r', hc⟩ := Plan.compile_eq_ok hplan
  refine ⟨.ofPlan plan, ⟨patch, r', plan.layout, roots, plan.layout.initial⟩, ?_, ?_, hc, rfl, rfl⟩
  · rw [Engine.ofPatch, hplan]
    rfl
  · exact bind_eq_ok_iff.2 ⟨r', hc.resolution_eq, bind_eq_ok_iff.2 ⟨_, hc.layout_eq, rfl⟩⟩

/-- Compiling and evaluating fail for the same reason. If they do not, then after each
    script the engine and the evaluator hold the same words in the same slots, and give
    the same answers to whatever is asked next. -/
theorem agrees_with_engine (patch : Patch) (roots : List OutputRef) :
    match Engine.ofPatch patch roots, ofPatch patch roots with
    | .ok engine, .ok e => engine.plan.layout = e.layout ∧ ∀ script,
        (engine.run script).values = (e.run script).values ∧
        (∀ id value, ((engine.run script).setInput? id value).isSome =
          ((e.run script).setInput? id value).isSome) ∧
        ∀ index, (engine.run script).sample? index = (e.run script).sample? index
    | .error fault, .error fault' => fault = fault'
    | _, _ => False := by
  cases hr : Resolution.ofPatch patch roots with
  | error fault =>
    have hengine : Engine.ofPatch patch roots = .error fault := by
      rw [Engine.ofPatch, Plan.compile, hr]
      rfl
    have he : ofPatch patch roots = .error fault := by
      rw [ofPatch, hr]
      rfl
    rw [hengine, he]
  | ok r =>
    -- From here on nothing fails on either side.
    obtain ⟨engine, e, hengine, he, h⟩ := exists_agrees hr
    rw [hengine, he]
    refine ⟨h.layout_eq.symm, fun script => ?_⟩
    have hrun := h.run script
    exact ⟨hrun.values_eq.symm, hrun.isSome_setInput?, hrun.sample?_eq⟩

end Evaluator

end SignalGraph
