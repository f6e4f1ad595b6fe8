import SignalGraph.Proofs.Engine.Simulation
import SignalGraph.Proofs.Patch.HostInputs
import SignalGraph.Proofs.Patch.StateValues
import SignalGraph.Proofs.Plan.Catalog

/-!
# Setting host inputs

A host input that contributes to a root has a slot of its own, in which the host writes
between ticks and from which the node of the input takes its output (`Engine.setInput?`). It
is a slot for state like others: each tick the node stores again what it has found there.

So the slot keeps what was last written into it (`Engine.Running.state_perform`), and after
each tick a host input puts out what the host has last set it to since the beginning or the
last reset, or else what it starts from, whatever else goes on
(`Engine.setInput?_lastWriteWins`).
-/

namespace SignalGraph

namespace Command

/-- The word that a command sets a host input to. -/
def set? (id : ExternalId) : Command → Option Binary32
  | setInput id' value => if id' = id then some value else none
  | advance _ | reset => none

/-- Does the command go back to the beginning? -/
def isReset : Command → Bool
  | reset => true
  | advance _ | setInput .. => false

end Command

/-- What the host has last set an input to, since the beginning or the last reset. -/
def lastSet? (id : ExternalId) (script : List Command) : Option Binary32 :=
  (script.reverse.takeWhile (!·.isReset)).findSome? (·.set? id)

theorem lastSet?_concat (id : ExternalId) (script : List Command) (command : Command) :
    lastSet? id (script ++ [command]) =
      if command.isReset then none else (command.set? id).or (lastSet? id script) := by
  rw [lastSet?, List.reverse_concat, List.takeWhile_cons]
  cases command.isReset with
  | true => rfl
  | false =>
    rw [Bool.not_false, if_pos rfl, List.findSome?_cons, lastSet?]
    cases command.set? id <;> rfl

variable {patch : Patch} {roots : List OutputRef} {r : Resolution} {plan : Plan}
  {engine : Engine} {script : List Command} {i j : ExternalId} {id : NodeId} {slot : Nat}

/-! ## Slots of host inputs -/

namespace Plan.Compiled

variable (h : Compiled patch roots r plan)
include h

theorem externalSlot_lt (hi : plan.externalSlot? i = some slot) : slot < plan.layout.size := by
  rw [h.externalSlot?_eq, Option.bind_eq_some_iff] at hi
  obtain ⟨id, -, hslot⟩ := hi
  exact h.allocates.slot_lt hslot

variable (hlists : patch.ListsInputs)
include hlists

/-- The host inputs that contribute to a root have slots. -/
theorem exists_externalSlot_iff : (∃ slot, plan.externalSlot? i = some slot) ↔
    ∃ id, patch.externals[i.index]? = some id ∧ patch.Reachable roots id := by
  simp only [h.externalSlot?_eq, Option.bind_eq_some_iff]
  constructor
  · rintro ⟨slot, id, hi, hslot⟩
    have hmem := (h.allocates.exists_state_slot_iff.1 ⟨slot, hslot⟩).1
    exact ⟨id, hi, (h.resolves.mem_order_iff id).1 hmem⟩
  · rintro ⟨id, hi, hid⟩
    obtain ⟨_, hnode⟩ := hlists.isExternal _ id hi
    obtain ⟨slot, hslot⟩ := h.exists_slot hid (Patch.state_mem_keysOf_holder hnode)
    exact ⟨slot, id, hi, hslot⟩

/-- Host inputs do not share slots. -/
theorem externalSlot?_inj (hi : plan.externalSlot? i = some slot)
    (hj : plan.externalSlot? j = some slot) : i = j := by
  rw [h.externalSlot?_eq, Option.bind_eq_some_iff] at hi hj
  obtain ⟨id, hi, hslot⟩ := hi
  obtain ⟨id', hj, hslot'⟩ := hj
  obtain ⟨rfl, -⟩ := SlotKey.state.inj (h.allocates.slot?_inj hslot hslot')
  exact congrArg ExternalId.mk (hlists.external_inj _ _ id hi hj)

end Plan.Compiled

/-! ## What host inputs hold -/

namespace Engine

open Patch

namespace Running

variable (h : Plan.Compiled patch roots r plan) (hlists : patch.ListsInputs)
  (hi : patch.externals[i.index]? = some id) (hid : patch.Reachable roots id)
include h hlists hi hid

/-- A host input holds what it has last been set to after each command, if it did before. -/
theorem state_perform (hrun : Running plan r engine) (command : Command)
    (hstate : engine.valuation (.state id 0) =
      (lastSet? i script).getD (patch.initialWord (.state id 0))) :
    (engine.perform command).valuation (.state id 0) =
      (lastSet? i (script ++ [command])).getD (patch.initialWord (.state id 0)) := by
  obtain ⟨_, hnode⟩ := hlists.isExternal _ id hi
  have hkey := Patch.state_mem_keysOf_holder hnode
  have hperforms := hrun.performs h command
  rw [lastSet?_concat]
  cases command with
  | advance globals => exact (Node.holder_of_updates hnode (hperforms id hid)).1.trans hstate
  | setInput j value =>
    rw [hperforms id hid _ hkey, Patch.setInput_state, hstate, Command.set?]
    by_cases hset : j = i
    · subst hset
      rw [if_pos hi, if_pos rfl]
      rfl
    · have hother : patch.externals[j.index]? ≠ some id := fun hj =>
        hset (congrArg ExternalId.mk (hlists.external_inj _ _ id hj hi))
      rw [if_neg hother, if_neg hset]
      rfl
  | reset => exact hperforms id hid _ hkey

/-- After each script, a host input holds what it has last been set to. -/
theorem state_run (config : Config) (script : List Command) :
    ((ofPlan plan config).run script).valuation (.state id 0) =
      (lastSet? i script).getD (patch.initialWord (.state id 0)) := by
  induction script using List.reverseRecOn with
  | nil =>
    obtain ⟨_, hnode⟩ := hlists.isExternal _ id hi
    exact agreeOn_initialWord h config id hid _ (Patch.state_mem_keysOf_holder hnode)
  | append_singleton script command ih =>
    rw [Engine.run, List.foldl_concat]
    exact state_perform h hlists hi hid ((running_ofPlan h config).run h script) command ih

end Running

theorem setInput?_eq_some_iff {value : Binary32} {engine' : Engine} :
    engine.setInput? i value = some engine' ↔
      ∃ slot, engine.plan.externalSlot? i = some slot ∧
        { engine with values := engine.values.setIfInBounds slot value } = engine' := by
  rw [setInput?, Option.map_eq_some_iff]

/-- Host inputs are cells of their own. Those that contribute to a root can be set, which
    changes one slot that no other host input has; to set another one has no effect. After
    each tick, output and state of a host input that contributes are what the host has last
    set it to since the beginning or the last reset, or else what its state starts from,
    whatever other host inputs have been set to and other nodes have computed. -/
theorem setInput?_lastWriteWins (hbuilt : patch.Built) (h : Plan.compile patch roots = .ok plan)
    (config : Config) (script : List Command) :
    let engine := (ofPlan plan config).run script
    (∀ i value, (∃ engine', engine.setInput? i value = some engine') ↔
      ∃ id, patch.externals[i.index]? = some id ∧ patch.Reachable roots id) ∧
    (∀ i value engine', engine.setInput? i value = some engine' →
      ∃ slot, plan.externalSlot? i = some slot ∧ slot < engine.values.size ∧
        engine' = { engine with values := engine.values.setIfInBounds slot value }) ∧
    (∀ i value, engine.setInput? i value = none → engine.perform (.setInput i value) = engine) ∧
    (∀ i j slot, plan.externalSlot? i = some slot → plan.externalSlot? j = some slot → i = j) ∧
    ∀ globals (i : ExternalId) id,
      patch.externals[i.index]? = some id → patch.Reachable roots id →
      ∃ initial, patch.stateValue? id 0 = some initial ∧
        let word := (lastSet? i script).getD initial.toWord
        (engine.advance globals).value? (.output (id.output 0)) = some word ∧
        (engine.advance globals).value? (.state id 0) = some word := by
  intro engine
  obtain ⟨r, hc⟩ := Plan.compile_eq_ok h
  have hlists := hbuilt.listsInputs
  have hrun : Running plan r engine := (running_ofPlan hc config).run hc script
  refine ⟨fun i value => ?_, fun i value engine' hset => ?_, fun i value hset => ?_,
    fun i j slot => hc.externalSlot?_inj hlists, fun globals i id hi hid => ?_⟩
  · rw [← hc.exists_externalSlot_iff hlists, ← hrun.plan_eq]
    simp [setInput?_eq_some_iff]
  · obtain ⟨slot, hslot, rfl⟩ := setInput?_eq_some_iff.1 hset
    rw [hrun.plan_eq] at hslot
    exact ⟨slot, hslot, hrun.settled.size_eq ▸ hc.externalSlot_lt hslot, rfl⟩
  · rw [perform, hset, Option.getD_none]
  · obtain ⟨word, hnode⟩ := hlists.isExternal _ id hi
    have hvalue : patch.stateValue? id 0 = some (.float word) := by
      rw [Patch.stateValue?, hnode]
      rfl
    have hstate := Running.state_run hc hlists hi hid config script
    rw [Patch.initialWord_state hvalue] at hstate
    -- The tick stores what it has found in the slot, and puts it out.
    obtain ⟨hkept, houtput⟩ := Node.holder_of_updates hnode (hrun.advance_updates hc globals hid)
    have hnext := hrun.perform hc (.advance globals)
    refine ⟨_, hvalue, ?_, ?_⟩
    · exact (hnext.value?_eq (hc.exists_slot hid (Patch.output_mem_keysOf_holder hnode))).trans
        (congrArg some (houtput.trans hstate))
    · exact (hnext.value?_eq (hc.exists_slot hid (Patch.state_mem_keysOf_holder hnode))).trans
        (congrArg some (hkept.trans hstate))

/-- Of two host inputs the second one contributes to nothing and cannot be set. The first one
    goes back to one in a reset, and keeps the five that comes after it. -/
theorem setInput?_lastWriteWins_pair :
    let patch : Patch := withExternal (withExternal {} 1) 2
    patch.Built ∧ ∃ plan, Plan.compile patch [⟨⟨0⟩, 0⟩] = .ok plan ∧
      let engine := (ofPlan plan).run [.setInput ⟨0⟩ 3, .reset]
      engine.setInput? ⟨1⟩ 7 = none ∧
      (engine.advance ⟨1⟩).value? (.output ⟨⟨0⟩, 0⟩) = some 1 ∧
      ((engine.run [.setInput ⟨0⟩ 5, .advance ⟨1⟩]).advance ⟨1⟩).value? (.output ⟨⟨0⟩, 0⟩) =
        some 5 := by
  intro patch
  have hempty : Built {} := .refl
  have hbuilt : patch.Built := (hempty.withExternal 1).withExternal 2
  have hresolution : Resolution.ofPatch patch [⟨⟨0⟩, 0⟩] = .ok ⟨[⟨0⟩], []⟩ := by decide +kernel
  obtain ⟨plan, hplan⟩ := Plan.exists_compile_eq_ok hresolution
  have hreach (id : NodeId) : patch.Reachable [⟨⟨0⟩, 0⟩] id ↔ id ∈ [⟨0⟩] :=
    ((Resolution.ofPatch_eq_ok hresolution).1.mem_order_iff id).symm
  obtain ⟨hset, -, -, -, hreset⟩ :=
    setInput?_lastWriteWins hbuilt hplan {} [.setInput ⟨0⟩ 3, .reset]
  obtain ⟨-, -, -, -, hagain⟩ := setInput?_lastWriteWins hbuilt hplan {}
    [.setInput ⟨0⟩ 3, .reset, .setInput ⟨0⟩ 5, .advance ⟨1⟩]
  have hfirst : patch.Reachable [⟨⟨0⟩, 0⟩] ⟨0⟩ := (hreach _).2 List.mem_cons_self
  refine ⟨hbuilt, plan, hplan, ?_, ?_, ?_⟩
  · refine Option.eq_none_iff_forall_ne_some.2 fun engine' hengine' => ?_
    obtain ⟨id, hi, hid⟩ := (hset ⟨1⟩ 7).1 ⟨engine', hengine'⟩
    obtain rfl : ⟨1⟩ = id := Option.some.inj hi
    exact absurd ((hreach _).1 hid) (by decide)
  · obtain ⟨initial, hinitial, houtput, -⟩ := hreset ⟨1⟩ ⟨0⟩ ⟨0⟩ rfl hfirst
    obtain rfl : .float 1 = initial := Option.some.inj hinitial
    exact houtput
  · obtain ⟨_, -, houtput, -⟩ := hagain ⟨1⟩ ⟨0⟩ ⟨0⟩ rfl hfirst
    exact houtput

end Engine

end SignalGraph
