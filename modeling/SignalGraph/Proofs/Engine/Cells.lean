import SignalGraph.Proofs.Engine.HostInputs

/-!
# What a node keeps

Whatever a host does with an engine, what a node of a patch keeps goes its own way: each tick makes
a step of it, with what the node reads at the tick, and nothing else changes it but a reset. So it
is at any time what a run of such steps makes of what it was to begin with
(`Engine.exists_steps`), and all that holds of runs of a unit by itself is heard.
-/

namespace SignalGraph

variable {α β : Type} {observe : Valuation → α} {step : α → β → α}
  {read : Globals → Valuation → Valuation → β}
  {patch : Patch} {roots : List OutputRef} {r : Resolution} {plan : Plan}
  {id : NodeId} {node : Node} {key : SlotKey}

namespace Patch

/-- What is observed of a node is about what the node keeps, and a tick makes a step of it, with
    what is read in the tick. -/
structure Evolves (patch : Patch) (id : NodeId) (observe : Valuation → α) (step : α → β → α)
    (read : Globals → Valuation → Valuation → β) : Prop where
  congr : ∀ v w : Valuation, (∀ key ∈ patch.keysOf id, v key = w key) → observe v = observe w
  updates : ∀ globals v w, patch.Updates globals v w id →
    observe w = step (observe v) (read globals v w)

/-- A node that reads anything is no host input. -/
theorem ListsInputs.external_ne (h : patch.ListsInputs) (hnode : patch.node? id = some node)
    (hreads : node.schema.inputs ≠ []) (external : ExternalId) :
    patch.externals[external.index]? ≠ some id := by
  intro hexternal
  obtain ⟨word, rfl⟩ := (h.isExternal _ id hexternal).exists_eq hnode
  exact hreads rfl

/-- Setting a host input changes what the node of the host input keeps, and nothing else. -/
theorem setInput_eq (external : ExternalId) (hother : patch.externals[external.index]? ≠ some id)
    (hkey : key ∈ patch.keysOf id) (value : Binary32) (v : Valuation) :
    patch.setInput external value v key = v key := by
  rw [setInput, if_neg]
  cases hexternal : patch.externals[external.index]? with
  | none => simp
  | some id' =>
    rw [Option.any_some, decide_eq_true_eq]
    rintro rfl
    have howner : some id' = some id := Layout.owner?_of_mem_keysOf hkey
    exact hother (hexternal.trans howner)

end Patch

namespace Engine

/-- What a node keeps is at any time what a run of steps makes of what it is to begin with, and
    each of the steps is a tick that the script has run. -/
theorem exists_steps (h : Plan.Compiled patch roots r plan) (hid : patch.Reachable roots id)
    (hother : ∀ external : ExternalId, patch.externals[external.index]? ≠ some id)
    (hevolves : patch.Evolves id observe step read) (config : Config) (p : β → Prop)
    (script : List Command)
    (hp : ∀ before globals, before ++ [.advance globals] <+: script →
      let engine := (ofPlan plan config).run before
      p (read globals engine.valuation (engine.advance globals).valuation)) :
    ∃ ticks : List β, observe ((ofPlan plan config).run script).valuation =
      ticks.foldl step (observe patch.initialWord) ∧ ∀ t ∈ ticks, p t := by
  induction script using List.reverseRecOn with
  | nil =>
    exact ⟨[], hevolves.congr _ _ (agreeOn_initialWord h config id hid), List.forall_mem_nil _⟩
  | append_singleton script command ih =>
    obtain ⟨ticks, hobserve, hticks⟩ :=
      ih fun before globals hbefore => hp before globals (hbefore.trans (List.prefix_append ..))
    let engine := (ofPlan plan config).run script
    have hperforms := ((running_ofPlan h config).run h script).performs h command
    rw [run, List.foldl_concat]
    cases command with
    | advance globals =>
      let t := read globals engine.valuation (engine.advance globals).valuation
      have hstep : observe (engine.advance globals).valuation = step (observe engine.valuation) t :=
        hevolves.updates globals _ _ (hperforms id hid)
      refine ⟨ticks ++ [t], ?_, List.forall_mem_append.2 ⟨hticks, ?_⟩⟩
      · rw [List.foldl_concat]
        exact hstep.trans (congrArg (step · t) hobserve)
      · rw [List.forall_mem_singleton]
        exact hp script globals List.prefix_rfl
    | setInput external value =>
      refine ⟨ticks, (hevolves.congr _ engine.valuation fun key hkey => ?_).trans hobserve, hticks⟩
      exact (hperforms id hid key hkey).trans
        (Patch.setInput_eq external (hother external) hkey value _)
    | reset =>
      -- The run starts over, and what was read before does not count.
      exact ⟨[], hevolves.congr _ _ (hperforms id hid), List.forall_mem_nil _⟩

end Engine

end SignalGraph
