import SignalGraph.Proofs.Engine.Script

/-!
# What goes along with an engine

What a command does to the values of nodes can be said without a plan
(`Patch.Performs`). For nodes that have all that they refer to, it depends on nothing but
the values of these nodes (`Patch.AgreeOn.of_performs`).

So an engine tells what anything holds that does the same from the same beginning, as
long as it can be seen as values of nodes of the patch of the engine
(`Engine.Running.agreeOn_run`): another plan of the patch, or a plan of another patch.
-/

namespace SignalGraph

namespace Patch

variable {patch : Patch} {s t : NodeId → Prop} {v v' w w' : Valuation} {command : Command}

/-- What a command does to the values of the nodes of `s`. -/
def Performs (patch : Patch) (s : NodeId → Prop) (v w : Valuation) : Command → Prop
  | .advance globals => ∀ id, s id → patch.Updates globals v w id
  | .setInput external value => patch.AgreeOn s w (patch.setInput external value v)
  | .reset => patch.AgreeOn s w patch.initialWord

theorem AgreeOn.mono (h : patch.AgreeOn s v w) (hts : ∀ id, t id → s id) : patch.AgreeOn t v w :=
  fun id hid => h id (hts id hid)

theorem AgreeOn.symm (h : patch.AgreeOn s v w) : patch.AgreeOn s w v :=
  fun id hid key hkey => (h id hid key hkey).symm

theorem AgreeOn.trans (h : patch.AgreeOn s v v') (h' : patch.AgreeOn s v' w) :
    patch.AgreeOn s v w :=
  fun id hid key hkey => (h id hid key hkey).trans (h' id hid key hkey)

theorem Performs.mono (h : patch.Performs s v w command) (hts : ∀ id, t id → s id) :
    patch.Performs t v w command := by
  cases command with
  | advance globals => exact fun id hid => h id (hts id hid)
  | setInput external value => exact AgreeOn.mono h hts
  | reset => exact AgreeOn.mono h hts

/-- A command does the same to the same values. -/
theorem AgreeOn.of_performs {order : List NodeId} (horder : InOrder patch.Awaits order)
    (hmem : ∀ id, s id → id ∈ order) (hs : patch.Closed s) (hagree : patch.AgreeOn s v v')
    (h : patch.Performs s v w command) (h' : patch.Performs s v' w' command) :
    patch.AgreeOn s w w' := by
  cases command with
  | advance globals => exact hagree.of_updates horder hmem hs h h'
  | setInput external value =>
    refine AgreeOn.trans h (.trans (fun id hid key hkey => ?_) (AgreeOn.symm h'))
    rw [setInput, setInput, hagree id hid key hkey]
  | reset => exact AgreeOn.trans h (AgreeOn.symm h')

end Patch

namespace Engine.Running

variable {patch : Patch} {roots : List OutputRef} {r : Resolution} {plan : Plan} {engine : Engine}
  {s : NodeId → Prop} (h : Plan.Compiled patch roots r plan) (hrun : Running plan r engine)
include h hrun

/-- An engine does to the nodes that contribute what a command says. -/
theorem performs (command : Command) :
    patch.Performs (patch.Reachable roots) engine.valuation (engine.perform command).valuation
      command := by
  cases command with
  | advance globals => exact fun id hid => hrun.advance_updates h globals hid
  | setInput external value =>
    exact fun id hid key hkey => hrun.valuation_setInput h external value (h.exists_slot hid hkey)
  | reset => exact fun id hid key hkey => hrun.valuation_reset h (h.exists_slot hid hkey)

/-- What does to the nodes of `s` what commands say, and begins with the values of the
    engine, holds the values of the engine after each script. -/
theorem agreeOn_run (hs : patch.Closed s) (hreach : ∀ id, s id → patch.Reachable roots id)
    (Inv : Engine → Prop) (view : Engine → Valuation)
    (hstep : ∀ engine' command, Inv engine' → Inv (engine'.perform command) ∧
      patch.Performs s (view engine') (view (engine'.perform command)) command)
    {engine' : Engine} (hinv : Inv engine')
    (hagree : patch.AgreeOn s engine.valuation (view engine')) (script : List Command) :
    patch.AgreeOn s (engine.run script).valuation (view (engine'.run script)) := by
  induction script generalizing engine engine' with
  | nil => exact hagree
  | cons command script ih =>
    obtain ⟨hinv', hperforms⟩ := hstep engine' command hinv
    refine ih (hrun.perform h command) hinv' ?_
    exact hagree.of_performs h.resolves.order_inOrder
      (fun id hid => (h.resolves.mem_order_iff id).2 (hreach id hid)) hs
      ((hrun.performs h command).mono hreach) hperforms

/-- If the nodes that contribute have the values `v`, so has all that has a slot: a history
    is as its output. -/
theorem valuation_eq_of_agreeOn {v : Valuation}
    (hagree : patch.AgreeOn (patch.Reachable roots) engine.valuation v)
    (hhistory : ∀ source ∈ r.delayed, v (.history source) = v (.output source)) {key : SlotKey}
    (hkey : ∃ slot, plan.layout.slot? key = some slot) : engine.valuation key = v key := by
  obtain ⟨slot, hslot⟩ := hkey
  rcases h.reachable_of_slot? hslot with ⟨id, hid, hkey⟩ | ⟨source, hsource, rfl⟩
  · exact hagree id hid key hkey
  · obtain ⟨hreach, houtput⟩ := h.source_of_mem_delayed hsource
    rw [hrun.valuation_history hsource, hagree _ hreach _ houtput, hhistory source hsource]

end Engine.Running

namespace Engine

variable {patch : Patch} {roots : List OutputRef} {r : Resolution} {plan : Plan}

/-- A fresh engine holds the initial values. -/
theorem agreeOn_initialWord (h : Plan.Compiled patch roots r plan) (config : Config) :
    patch.AgreeOn (patch.Reachable roots) (ofPlan plan config).valuation patch.initialWord :=
  fun _ hid _ hkey => Evaluator.look_initial h.allocates (h.exists_slot hid hkey)

end Engine

end SignalGraph
