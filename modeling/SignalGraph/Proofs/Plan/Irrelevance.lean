import SignalGraph.Proofs.Patch.Editing
import SignalGraph.Proofs.Plan.Assignment
import SignalGraph.Proofs.Resolution.Renaming

/-!
# Nodes that do not contribute

A plan is made from the nodes that contribute to the roots, and from nothing else of the
patch. So a patch may be edited after it has been compiled: as long as no call changes a
node that contributes, the patch still compiles, and to the same plan
(`Plan.compile_of_edited`). What is added, or changed elsewhere, may be as wrong as it
likes.

Resolution does not notice the edits, as the patch is a copy of itself in which all that
contributes has kept its name (`Patch.Spares.copies`); all that comes after it looks at
the nodes of the resolution only.
-/

namespace SignalGraph

variable {patch patch' : Patch} {roots : List OutputRef} {r : Resolution} {layout layout' : Layout}
  {plan plan' : Plan} {id : NodeId} {key : SlotKey}

/-! ## Resolutions -/

theorem Binding.rename_self (b : Binding) : b.rename (fun id => id) = b := by
  cases b <;> rfl

theorem Node.rename_self (node : Node) : node.rename (fun id => id) = node := by
  have hinputs : node.inputs.map (Binding.rename fun id => id) = node.inputs := by
    simp [funext Binding.rename_self]
  rw [Node.rename, hinputs]

theorem Patch.Spares.copies (h : patch.Spares (patch.Reachable roots) patch') :
    patch.Copies (fun id => id) roots patch' where
  node?_eq id hid := by
    rw [h.node?_eq id hid]
    cases patch.node? id with
    | none => rfl
    | some node => rw [Option.map_some, Node.rename_self]
  inj _ _ _ _ h := h

/-- Resolution looks at nothing but what contributes. -/
theorem Resolution.ofPatch_of_spares (h : patch.Spares (patch.Reachable roots) patch')
    (hr : ofPatch patch roots = .ok r) : ofPatch patch' roots = .ok r := by
  obtain ⟨delayed, h', hperm⟩ := exists_ofPatch_of_copies h.copies hr
  have hroots : roots.map (·.rename fun id => id) = roots := List.map_id roots
  have horder : r.order.map (fun id => id) = r.order := List.map_id r.order
  have hdelayed : r.delayed.map (·.rename fun id => id) = r.delayed := List.map_id r.delayed
  rw [hroots, horder] at h'
  rw [hdelayed] at hperm
  -- Both lists of delayed outputs are in the same order.
  have heq : delayed = r.delayed := by
    refine hperm.eq_of_pairwise ?_ (ofPatch_eq_ok h').1.delayed_pairwise
      (ofPatch_eq_ok hr).1.delayed_pairwise
    rintro ⟨⟨m⟩, i⟩ ⟨⟨n⟩, j⟩ _ _ hab hba
    simp only [NodeId.mk.injEq] at hab hba
    omega
  rw [h', heq]

/-! ## Layouts -/

theorem Patch.initialWord_congr
    (h : ∀ id, key.owner? = some id → patch'.node? id = patch.node? id) :
    patch'.initialWord key = patch.initialWord key := by
  cases key with
  | state id index => rw [initialWord, initialWord, stateValue?, stateValue?, h id rfl]
  | output source => rfl
  | history source => rfl

namespace Layout.Allocates

theorem owner_mem (h : layout.Allocates patch r) (hkey : key ∈ layout.keys)
    (howner : key.owner? = some id) : id ∈ r.order := by
  rcases h.mem_keys_iff.1 hkey with ⟨id', hid', hkey⟩ | ⟨source, _, rfl⟩
  · exact Option.some.inj (howner.symm.trans (owner?_of_mem_keysOf hkey)) ▸ hid'
  · cases howner

variable (h : layout.Allocates patch r) (h' : layout'.Allocates patch' r)
include h h'

theorem keys_congr (hnodes : ∀ id ∈ r.order, patch'.node? id = patch.node? id) :
    layout'.keys = layout.keys := by
  have hkeysOf : ∀ id ∈ r.order, patch'.keysOf id = patch.keysOf id := by
    intro id hid
    rw [Patch.keysOf, Patch.keysOf, hnodes id hid]
  refine Array.toList_inj.1 ?_
  rw [h'.keys_eq, h.keys_eq, List.flatMap_congr hkeysOf]

theorem initial_congr (hnodes : ∀ id ∈ r.order, patch'.node? id = patch.node? id) :
    layout'.initial = layout.initial := by
  refine Array.toList_inj.1 ?_
  rw [h'.initial_eq, h.initial_eq, keys_congr h h' hnodes]
  refine List.map_congr_left fun key hkey => Patch.initialWord_congr fun id howner => ?_
  exact hnodes id (h.owner_mem (Array.mem_toList_iff.1 hkey) howner)

theorem slot?_congr (hnodes : ∀ id ∈ r.order, patch'.node? id = patch.node? id)
    (key : SlotKey) : layout'.slot? key = layout.slot? key := by
  refine Option.ext fun slot => ?_
  rw [h'.slot?_eq_some_iff, h.slot?_eq_some_iff, key?, key?, keys_congr h h' hnodes]

end Layout.Allocates

/-! ## Steps -/

section

variable (hslot : ∀ key, layout'.slot? key = layout.slot? key)
include hslot

theorem Step.wire_congr (node : Node) (a : node.Argument) :
    wire layout' id node a = wire layout id node a := by
  have hslotOr : layout'.slotOr = layout.slotOr := by
    funext key error
    rw [Layout.slotOr, Layout.slotOr, hslot]
  cases a <;> simp only [wire, hslotOr]

theorem Step.ofNode_congr (hnode : patch'.node? id = patch.node? id) :
    ofNode patch' layout' id = ofNode patch layout id := by
  rw [ofNode, ofNode, hnode]
  cases patch.node? id with
  | none => rfl
  | some node => simp only [funext (wire_congr hslot node)]

theorem Plan.latchesFor_congr (outputs : List OutputRef) :
    latchesFor layout' outputs = latchesFor layout outputs := by
  simp only [latchesFor, hslot]

end

/-! ## Plans -/

namespace Plan.Compiled

theorem slot?_eq_none (h : Compiled patch roots r plan) (hid : id ∉ r.order) (index : Nat) :
    plan.layout.slot? (.state id index) = none := by
  refine Option.eq_none_iff_forall_ne_some.2 fun slot hslot => hid ?_
  exact (h.allocates.exists_state_slot_iff.1 ⟨slot, hslot⟩).1

variable (h : Compiled patch roots r plan) (h' : Compiled patch' roots r plan')
  (hnodes : ∀ id ∈ r.order, patch'.node? id = patch.node? id)
include h h' hnodes

theorem slot?_congr (key : SlotKey) : plan'.layout.slot? key = plan.layout.slot? key :=
  h.allocates.slot?_congr h'.allocates hnodes key

theorem steps_congr : plan'.steps = plan.steps := by
  have hsteps := mapM_congr fun id hid =>
    Step.ofNode_congr (h.slot?_congr h' hnodes) (hnodes id hid)
  rw [mapM_eq_ok_iff.2 h.steps, mapM_eq_ok_iff.2 h'.steps] at hsteps
  exact Except.ok.inj hsteps

theorem latches_congr : plan'.latches = plan.latches := by
  rw [h'.latches_eq, h.latches_eq, latchesFor_congr (h.slot?_congr h' hnodes)]

theorem outputSlots_congr : plan'.outputSlots = plan.outputSlots := by
  have hslots := h.outputSlots.imp fun root _ hslot =>
    (h.slot?_congr h' hnodes (.output root)).trans hslot
  exact List.right_unique_forall₂' (fun _ _ _ hslot hslot' =>
    Option.some.inj (hslot.symm.trans hslot')) h'.outputSlots hslots

/-- Host inputs that have been added have no slots. -/
theorem externalSlot?_congr (hspares : patch.Spares (patch.Reachable roots) patch')
    (external : ExternalId) : plan'.externalSlot? external = plan.externalSlot? external := by
  rw [h'.externalSlot?_eq, h.externalSlot?_eq]
  rcases hspares.external_cases external.index with hsame | ⟨hold, node, hnew, hunreachable⟩
  · simp only [hsame, h.slot?_congr h' hnodes]
  · have hnode : node ∉ r.order := fun hnode => hunreachable ((h.resolves.mem_order_iff node).1 hnode)
    rw [hold, hnew, Option.bind_some, h'.slot?_eq_none hnode, Option.bind_none]

end Plan.Compiled

/-- The echo after two more calls: a node has been added, and lets its input read an output
    that does not exist. -/
def Patch.overheard : Patch :=
  (Call.connectAt ⟨2⟩ 0 (.output ⟨⟨5⟩, 0⟩)).edit.after
    ((insert .hold : Edit GraphError NodeId).after echo)

theorem Patch.edited_overheard : echo.Edited (echo.Reachable [⟨⟨0⟩, 0⟩]) overheard := by
  refine .call _ (.insert .hold .refl) fun id hid hreach => ?_
  obtain rfl : (⟨2⟩ : NodeId) = id := Option.some.inj hid
  exact absurd (((Resolution.ofPatch_eq_ok resolution_echo).1.mem_order_iff _).2 hreach)
    (by decide)

namespace Plan

/-- What is added to a patch, or changed where it does not contribute to the roots, makes
    no difference to a plan, and contributes as little as before. A host input has the slot
    that it had before, which is none if it does not contribute. -/
theorem compile_of_edited (h : compile patch roots = .ok plan)
    (hedit : patch.Edited (patch.Reachable roots) patch') :
    ∃ plan', compile patch' roots = .ok plan' ∧
      plan'.steps = plan.steps ∧
      plan'.latches = plan.latches ∧
      plan'.layout.keys = plan.layout.keys ∧
      plan'.layout.initial = plan.layout.initial ∧
      (∀ key, plan'.layout.slot? key = plan.layout.slot? key) ∧
      plan'.roots = plan.roots ∧
      plan'.outputSlots = plan.outputSlots ∧
      (∀ id, plan'.externalSlot? id = plan.externalSlot? id) ∧
      (∀ id, patch'.Reachable roots id ↔ patch.Reachable roots id) ∧
      ∀ (id : ExternalId) (node : NodeId), patch'.externals[id.index]? = some node →
        ¬patch.Reachable roots node → plan'.externalSlot? id = none := by
  obtain ⟨r, hc⟩ := compile_eq_ok h
  have hspares : patch.Spares (patch.Reachable roots) patch' := hedit.spares fun id hid => by
    obtain ⟨node, hnode⟩ := hc.resolvable.exists_node hid
    exact (Array.getElem?_eq_some_iff.1 hnode).1
  have hr := Resolution.ofPatch_of_spares hspares hc.resolution_eq
  obtain ⟨plan', h'⟩ := exists_compile_eq_ok hr
  obtain ⟨r', hc'⟩ := compile_eq_ok h'
  obtain rfl : r = r' := Except.ok.inj (hr.symm.trans hc'.resolution_eq)
  have hnodes : ∀ id ∈ r.order, patch'.node? id = patch.node? id :=
    fun id hid => hspares.node?_eq id ((hc.resolves.mem_order_iff id).1 hid)
  refine ⟨plan', h', hc.steps_congr hc' hnodes, hc.latches_congr hc' hnodes,
    hc.allocates.keys_congr hc'.allocates hnodes, hc.allocates.initial_congr hc'.allocates hnodes,
    hc.slot?_congr hc' hnodes, hc'.roots_eq.trans hc.roots_eq.symm,
    hc.outputSlots_congr hc' hnodes, hc.externalSlot?_congr hc' hnodes hspares, fun id => ?_,
    fun id node hnode hunreachable => ?_⟩
  · rw [← hc'.resolves.mem_order_iff, hc.resolves.mem_order_iff]
  · have hnot : node ∉ r.order := fun hmem => hunreachable ((hc.resolves.mem_order_iff node).1 hmem)
    rw [hc'.externalSlot?_eq, hnode, Option.bind_some, hc'.slot?_eq_none hnot]

/-- The echo does not hear a third node, though this one refers to an output that does not
    exist. -/
theorem compile_of_edited_echo : ∃ plan plan',
    compile .echo [⟨⟨0⟩, 0⟩] = .ok plan ∧
    Patch.echo.Edited (Patch.echo.Reachable [⟨⟨0⟩, 0⟩]) .overheard ∧
    compile .overheard [⟨⟨0⟩, 0⟩] = .ok plan' ∧
    plan'.steps = plan.steps := by
  obtain ⟨plan, h⟩ := exists_compile_eq_ok Patch.resolution_echo
  obtain ⟨plan', h', hsteps, _⟩ := compile_of_edited h Patch.edited_overheard
  exact ⟨plan, plan', h, Patch.edited_overheard, h', hsteps⟩

end Plan

end SignalGraph
