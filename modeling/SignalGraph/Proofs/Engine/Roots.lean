import SignalGraph.Proofs.Engine.Simulation

/-!
# The choice of roots

Plans of one patch for different roots differ in what they update, in which order, and
where the values lie. None of this can be heard: engines that are asked the same hold
the same values, wherever both hold a value at all (`Engine.run_indep_roots`).

The nodes that contribute to both lists of roots have all that they refer to, so commands
determine them in both engines alike (`Engine.agreeOn_run`).
-/

namespace SignalGraph

namespace Engine

variable {patch : Patch} {roots roots' : List OutputRef} {r r' : Resolution} {plan plan' : Plan}
  {engine engine' : Engine}

/-- The node contributes to both lists of roots. -/
def Shared (patch : Patch) (roots roots' : List OutputRef) (id : NodeId) : Prop :=
  patch.Reachable roots id ∧ patch.Reachable roots' id

section

variable (h : Plan.Compiled patch roots r plan) (h' : Plan.Compiled patch roots' r' plan')
include h h'

/-- What has a slot in both plans is a value of a node that contributes to both lists of
    roots, or the history of one. -/
theorem shared_of_slot? {key : SlotKey} {slot slot' : Nat}
    (hslot : plan.layout.slot? key = some slot) (hslot' : plan'.layout.slot? key = some slot') :
    (∃ id, Shared patch roots roots' id ∧ key ∈ patch.keysOf id) ∨
      ∃ source, source ∈ r.delayed ∧ source ∈ r'.delayed ∧ key = .history source := by
  rcases h.reachable_of_slot? hslot with ⟨id, hid, hkey⟩ | ⟨source, hsource, rfl⟩
  · rcases h'.reachable_of_slot? hslot' with ⟨id', hid', hkey'⟩ | ⟨source, _, rfl⟩
    · have howner := Layout.owner?_of_mem_keysOf hkey
      obtain rfl : id = id' :=
        Option.some.inj (howner.symm.trans (Layout.owner?_of_mem_keysOf hkey'))
      exact .inl ⟨id, ⟨hid, hid'⟩, hkey⟩
    · cases Layout.owner?_of_mem_keysOf hkey
  · exact .inr ⟨source, hsource,
      h'.allocates.exists_history_slot_iff.1 ⟨slot', hslot'⟩, rfl⟩

/-- Either engine does to shared nodes what commands say. -/
theorem agreeOn_run (hrun : Running plan r engine) (hrun' : Running plan' r' engine')
    (hagree : patch.AgreeOn (Shared patch roots roots') engine.valuation engine'.valuation)
    (script : List Command) :
    patch.AgreeOn (Shared patch roots roots') (engine.run script).valuation
      (engine'.run script).valuation := by
  refine hrun.agreeOn_run h (h.resolvable.closed.inter h'.resolvable.closed) (fun _ => And.left)
    (Running plan' r') valuation (fun engine' command hrun' => ⟨hrun'.perform h' command, ?_⟩)
    hrun' hagree script
  exact (hrun'.performs h' command).mono fun _ => And.right

/-- Fresh engines hold the same initial values. -/
theorem agreeOn_ofPlan (config config' : Config) :
    patch.AgreeOn (Shared patch roots roots') (ofPlan plan config).valuation
      (ofPlan plan' config').valuation :=
  ((agreeOn_initialWord h config).mono fun _ => And.left).trans
    ((agreeOn_initialWord h' config').mono fun _ => And.right).symm

/-- If shared nodes hold the same values, so does all that has a slot in both plans. -/
theorem valuation_eq_valuation (hrun : Running plan r engine) (hrun' : Running plan' r' engine')
    (hagree : patch.AgreeOn (Shared patch roots roots') engine.valuation engine'.valuation)
    {key : SlotKey} (hkey : (engine.value? key).isSome) (hkey' : (engine'.value? key).isSome) :
    engine.valuation key = engine'.valuation key := by
  obtain ⟨slot, hslot⟩ := hrun.exists_slot_of_value? hkey
  obtain ⟨slot', hslot'⟩ := hrun'.exists_slot_of_value? hkey'
  rcases shared_of_slot? h h' hslot hslot' with ⟨id, hid, hmem⟩ | ⟨source, hmem, hmem', rfl⟩
  · exact hagree id hid key hmem
  · -- A history is its output, which is shared.
    obtain ⟨hreach, houtput⟩ := h.source_of_mem_delayed hmem
    have hreach' := (h'.source_of_mem_delayed hmem').1
    rw [hrun.valuation_history hmem, hrun'.valuation_history hmem']
    exact hagree _ ⟨hreach, hreach'⟩ _ houtput

end

/-- Whatever roots a patch is compiled for, each value that has a slot in both plans is
    the same after each script, and so are the samples of a root that is in both lists. -/
theorem run_indep_roots (h : Plan.compile patch roots = .ok plan)
    (h' : Plan.compile patch roots' = .ok plan') (config config' : Config)
    (script : List Command) :
    let engine := (ofPlan plan config).run script
    let engine' := (ofPlan plan' config').run script
    (∀ key, (engine.value? key).isSome → (engine'.value? key).isSome →
      engine.value? key = engine'.value? key) ∧
    ∀ i j, roots[i]? = roots'[j]? → engine.sample? i = engine'.sample? j := by
  intro engine engine'
  obtain ⟨r, hc⟩ := Plan.compile_eq_ok h
  obtain ⟨r', hc'⟩ := Plan.compile_eq_ok h'
  have hrun : Running plan r engine := (running_ofPlan hc config).run hc script
  have hrun' : Running plan' r' engine' := (running_ofPlan hc' config').run hc' script
  have hagree : patch.AgreeOn (Shared patch roots roots') engine.valuation engine'.valuation :=
    agreeOn_run hc hc' (running_ofPlan hc config) (running_ofPlan hc' config')
      (agreeOn_ofPlan hc hc' config config') script
  have hvalue : ∀ key, (engine.value? key).isSome → (engine'.value? key).isSome →
      engine.value? key = engine'.value? key := by
    intro key hkey hkey'
    rw [hrun.value?_eq (hrun.exists_slot_of_value? hkey),
      hrun'.value?_eq (hrun'.exists_slot_of_value? hkey'),
      valuation_eq_valuation hc hc' hrun hrun' hagree hkey hkey']
  refine ⟨hvalue, fun i j hij => ?_⟩
  rw [hrun.sample?_eq hc, hrun'.sample?_eq hc', ← hij]
  cases hroot : roots[i]? with
  | none => rfl
  | some root =>
    have hmem := List.mem_of_getElem? hroot
    have hmem' := List.mem_of_getElem? (hij ▸ hroot)
    exact hvalue _ (hrun.isSome_value?_root hc hmem) (hrun'.isSome_value?_root hc' hmem')

/-- The second root of the loop sounds the same without the listener. -/
theorem run_indep_roots_loop : ∃ plan plan',
    Plan.compile .loop [⟨⟨1⟩, 0⟩] = .ok plan ∧
    Plan.compile .loop [⟨⟨2⟩, 0⟩, ⟨⟨1⟩, 0⟩] = .ok plan' ∧
    ([⟨⟨1⟩, 0⟩] : List OutputRef)[0]? = ([⟨⟨2⟩, 0⟩, ⟨⟨1⟩, 0⟩] : List OutputRef)[1]? ∧
    ((ofPlan plan).run [.advance ⟨1⟩, .reset, .advance ⟨0⟩]).sample? 0 =
      ((ofPlan plan').run [.advance ⟨1⟩, .reset, .advance ⟨0⟩]).sample? 1 := by
  obtain ⟨plan, hplan⟩ := Plan.exists_compile_eq_ok Patch.resolution_loop
  obtain ⟨plan', hplan'⟩ := Plan.exists_compile_eq_ok Patch.resolution_loop_listener
  refine ⟨plan, plan', hplan, hplan', rfl, ?_⟩
  exact (run_indep_roots hplan hplan' {} {} [.advance ⟨1⟩, .reset, .advance ⟨0⟩]).2 0 1 rfl

end Engine

end SignalGraph
