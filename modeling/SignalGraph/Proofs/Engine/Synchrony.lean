import SignalGraph.Proofs.Engine.Script

/-!
# Synchrony

The nodes of a patch are updated one after another, in place, in one row of slots. To
the host it looks as if they were updated all at once: whatever it did before, a tick
takes the engine to the one solution of the equations that the patch states for its
nodes, each by itself (`Engine.advance_solves_uniquely`).
-/

namespace SignalGraph

/-- The new values solve the equations of all nodes that contribute to the roots. -/
def Patch.Solves (patch : Patch) (roots : List OutputRef) (globals : Globals)
    (old new : Valuation) : Prop :=
  ∀ id, patch.Reachable roots id → patch.Updates globals old new id

namespace Engine

variable {patch : Patch} {roots : List OutputRef} {plan : Plan}

/-- From each state that a host can bring about, a tick leads to the one solution of the
    equations of the patch. All values that the equations are about have slots, and
    what is recalled is zero if there was no tick since the beginning or a reset. -/
theorem advance_solves_uniquely (h : Plan.compile patch roots = .ok plan) (config : Config)
    (script : List Command) (globals : Globals) :
    let engine := (ofPlan plan config).run script
    let old := engine.valuation
    let new := (engine.advance globals).valuation
    (∀ id, patch.Reachable roots id → ∀ key ∈ patch.keysOf id,
      engine.value? key = some (old key) ∧
        (engine.advance globals).value? key = some (new key)) ∧
    patch.Solves roots globals old new ∧
    (∀ other, patch.Solves roots globals old other →
      patch.AgreeOn (patch.Reachable roots) other new) ∧
    (engine.clock.ticks = 0 → ∀ source, old (.output source) = 0) := by
  intro engine old new
  obtain ⟨r, hc⟩ := Plan.compile_eq_ok h
  have hrun : Running plan r engine := (running_ofPlan hc config).run hc script
  have hsolves : patch.Solves roots globals old new := fun id => hrun.advance_updates hc globals
  refine ⟨fun id hid key hkey => ?_, hsolves, fun other hother => ?_, hrun.silent⟩
  · have hslot := hc.exists_slot hid hkey
    exact ⟨hrun.value?_eq hslot, (hrun.perform hc (.advance globals)).value?_eq hslot⟩
  · -- Any other solution starts from the same old values.
    exact .of_updates hc.resolves.order_inOrder (fun id => (hc.resolves.mem_order_iff id).2)
      hc.resolvable.closed (fun _ _ _ _ => rfl) hother hsolves

theorem advance_solves_uniquely_loop : ∃ plan, Plan.compile .loop [⟨⟨1⟩, 0⟩] = .ok plan ∧
    let engine := (ofPlan plan).run [.advance ⟨1⟩, .reset, .advance ⟨0⟩]
    let new := (engine.advance ⟨1⟩).valuation
    Patch.loop.Solves [⟨⟨1⟩, 0⟩] ⟨1⟩ engine.valuation new ∧
      ∀ other, Patch.loop.Solves [⟨⟨1⟩, 0⟩] ⟨1⟩ engine.valuation other →
        Patch.loop.AgreeOn (Patch.loop.Reachable [⟨⟨1⟩, 0⟩]) other new := by
  obtain ⟨plan, hplan⟩ := Plan.exists_compile_eq_ok Patch.resolution_loop
  obtain ⟨_, hsolves, hunique, _⟩ :=
    advance_solves_uniquely hplan {} [.advance ⟨1⟩, .reset, .advance ⟨0⟩] ⟨1⟩
  exact ⟨plan, hplan, hsolves, hunique⟩

end Engine

end SignalGraph
