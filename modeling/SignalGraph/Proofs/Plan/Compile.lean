import SignalGraph.Plan.Basic
import SignalGraph.Proofs.Plan.Equations
import SignalGraph.Proofs.Resolution.Order

/-!
# Compiling what has been resolved

Nothing fails after resolution (`Plan.exists_compile_eq_ok`): all that a step looks up has
a slot, as it belongs to a node that contributes (`Step.exists_wire`).

A compiled step does to the slots what direct evaluation of its node does
(`Step.run_eq_updateNode`), and a plan does what going through the nodes and the
delayed outputs does (`Plan.Compiled.execute_eq`).
-/

namespace SignalGraph

variable {patch : Patch} {roots : List OutputRef} {r : Resolution} {layout : Layout}
  {id : NodeId} {node : Node} {globals : Globals} {values : Array Binary32}

theorem Layout.slotOr_eq_ok_iff {key : SlotKey} {e : GraphError} {slot : Nat} :
    layout.slotOr key e = .ok slot ↔ layout.slot? key = some slot := by
  rw [slotOr]
  cases layout.slot? key <;> simp

/-! ## Steps -/

namespace Step

/-- An operand stands for what direct evaluation looks up, and a result goes where
    direct evaluation puts it. -/
theorem wire_eq_ok {a : node.Argument} {w : Operand × Option Nat}
    (h : wire layout id node a = .ok w) :
    (∀ globals values, w.1.read values globals
      = Evaluator.argument layout globals values id node a) ∧
    w.2 = (Evaluator.resultKey? id a).bind layout.slot? := by
  cases a with
  | input i =>
    cases hb : node.inputs.get i with
    | constant value =>
      simp only [wire, hb] at h
      obtain rfl := Except.ok.inj h
      simp [Operand.read, Evaluator.argument, Evaluator.resultKey?, hb]
    | output source =>
      simp only [wire, hb] at h
      obtain ⟨slot, hslot, h⟩ := bind_eq_ok_iff.1 h
      obtain rfl := Except.ok.inj h
      have hslot := Layout.slotOr_eq_ok_iff.1 hslot
      simp [Operand.read, Evaluator.argument, Evaluator.look, Evaluator.resultKey?, hb, hslot]
    | feedback source =>
      simp only [wire, hb] at h
      obtain ⟨slot, hslot, h⟩ := bind_eq_ok_iff.1 h
      obtain rfl := Except.ok.inj h
      have hslot := Layout.slotOr_eq_ok_iff.1 hslot
      simp [Operand.read, Evaluator.argument, Evaluator.look, Evaluator.resultKey?, hb, hslot]
  | output i =>
    obtain ⟨slot, hslot, h⟩ := bind_eq_ok_iff.1 h
    have hslot := Layout.slotOr_eq_ok_iff.1 hslot
    cases hacc : (node.schema.outputs.get i).access with
    | write =>
      simp only [hacc] at h
      obtain rfl := Except.ok.inj h
      refine ⟨fun globals values => ?_, by simp [Evaluator.resultKey?, hslot]⟩
      simp only [Operand.read, Evaluator.argument, hacc]
    | readWrite =>
      simp only [hacc] at h
      obtain rfl := Except.ok.inj h
      refine ⟨fun globals values => ?_, by simp [Evaluator.resultKey?, hslot]⟩
      simp [Operand.read, Evaluator.argument, Evaluator.look, hslot, -List.get_eq_getElem, hacc]
  | state i =>
    obtain ⟨slot, hslot, h⟩ := bind_eq_ok_iff.1 h
    obtain rfl := Except.ok.inj h
    have hslot := Layout.slotOr_eq_ok_iff.1 hslot
    simp [Operand.read, Evaluator.argument, Evaluator.look, Evaluator.resultKey?, hslot]
  | global which =>
    obtain rfl := Except.ok.inj h
    simp [Operand.read, Evaluator.argument, Evaluator.resultKey?]

/-- All that a contributing node refers to has a slot. -/
theorem exists_wire (hr : r.Resolves patch roots) (hp : patch.Resolvable roots)
    (ha : layout.Allocates patch r) (hid : id ∈ r.order) (hnode : patch.node? id = some node)
    (a : node.Argument) : ∃ w, wire layout id node a = .ok w := by
  have hreach := (hr.mem_order_iff id).1 hid
  cases a with
  | input i =>
    have hbinds := Patch.binds_get hnode i
    cases hb : node.inputs.get i with
    | constant value => exact ⟨(.constant value, none), by simp only [wire, hb]⟩
    | output source =>
      rw [hb] at hbinds
      have hsource := (hr.mem_order_iff source.node).2 (hreach.of_reads hbinds)
      obtain ⟨slot, hslot⟩ := ha.exists_output_slot_iff.2
        ⟨hsource, hp.source_exists id hreach _ source hbinds rfl⟩
      simp only [wire, hb]
      exact ⟨_, bind_eq_ok_iff.2 ⟨slot, Layout.slotOr_eq_ok_iff.2 hslot, rfl⟩⟩
    | feedback source =>
      rw [hb] at hbinds
      obtain ⟨slot, hslot⟩ := ha.exists_history_slot_iff.2
        ((hr.mem_delayed_iff source).2 ⟨id, hreach, hbinds⟩)
      simp only [wire, hb]
      exact ⟨_, bind_eq_ok_iff.2 ⟨slot, Layout.slotOr_eq_ok_iff.2 hslot, rfl⟩⟩
  | output i =>
    have hexists : patch.containsOutput (id.output i) :=
      Patch.containsOutput_iff.2 ⟨node, hnode, i.isLt⟩
    obtain ⟨slot, hslot⟩ := ha.exists_output_slot_iff.2 ⟨hid, hexists⟩
    cases hacc : (node.schema.outputs.get i).access with
    | write =>
      exact ⟨_, bind_eq_ok_iff.2 ⟨slot, Layout.slotOr_eq_ok_iff.2 hslot, by rw [hacc]; rfl⟩⟩
    | readWrite =>
      exact ⟨_, bind_eq_ok_iff.2 ⟨slot, Layout.slotOr_eq_ok_iff.2 hslot, by rw [hacc]; rfl⟩⟩
  | state i =>
    obtain ⟨slot, hslot⟩ := ha.exists_state_slot_iff.2 ⟨hid, node, hnode, i.isLt⟩
    exact ⟨_, bind_eq_ok_iff.2 ⟨slot, Layout.slotOr_eq_ok_iff.2 hslot, rfl⟩⟩
  | global which => exact ⟨_, rfl⟩

theorem ofNode_eq_ok_iff {step : Step} : ofNode patch layout id = .ok step ↔
    ∃ node wires, patch.node? id = some node ∧
      List.Forall₂ (fun a w => wire layout id node a = .ok w) node.schema.arguments wires ∧
      step = ⟨id, node.schema.update, wires.map (·.1), writesOf wires⟩ := by
  rw [ofNode]
  cases hnode : patch.node? id with
  | none => simp
  | some node =>
    simp only [bind_eq_ok_iff, mapM_eq_ok_iff]
    constructor
    · rintro ⟨wires, hwires, h⟩
      exact ⟨node, wires, rfl, hwires, (Except.ok.inj h).symm⟩
    · rintro ⟨node', wires, hnode', hwires, rfl⟩
      obtain rfl := Option.some.inj hnode'
      exact ⟨wires, hwires, rfl⟩

/-- Each contributing node has a step. -/
theorem exists_ofNode (hr : r.Resolves patch roots) (hp : patch.Resolvable roots)
    (ha : layout.Allocates patch r) (hid : id ∈ r.order) :
    ∃ step, ofNode patch layout id = .ok step := by
  obtain ⟨node, hnode⟩ := ha.node_exists id hid
  obtain ⟨wires, hwires⟩ := exists_mapM_eq_ok fun a _ => exists_wire hr hp ha hid hnode a
  exact ⟨_, ofNode_eq_ok_iff.2 ⟨node, wires, hnode, mapM_eq_ok_iff.1 hwires, rfl⟩⟩

/-- The operands stand for what direct evaluation looks up, one by one. -/
theorem map_read {arguments : List node.Argument} {wires : List (Operand × Option Nat)}
    (h : List.Forall₂ (fun a w => wire layout id node a = .ok w) arguments wires) :
    (wires.map (·.1)).map (·.read values globals) =
      arguments.map (Evaluator.argument layout globals values id node) := by
  induction h with
  | nil => rfl
  | cons haw _ ih => rw [List.map_cons, List.map_cons, List.map_cons, ih, (wire_eq_ok haw).1]

/-- The results are stored as direct evaluation stores them, one by one. -/
theorem foldl_writesOf {arguments : List node.Argument} {wires : List (Operand × Option Nat)}
    (h : List.Forall₂ (fun a w => wire layout id node a = .ok w) arguments wires)
    (frame : Frame) (place : Nat) (values : Array Binary32) :
    ((wires.zipIdx place).filterMap fun (wire, argument) =>
        wire.2.map fun slot => (⟨argument, slot⟩ : Write)).foldl
      (fun values w => values.setIfInBounds w.slot (frame.get w.argument)) values =
    (arguments.zipIdx place).foldl
      (fun values (a, place) =>
        match Evaluator.resultKey? id a with
        | some key => Evaluator.put layout values key (frame.get place)
        | none => values) values := by
  induction h generalizing place values with
  | nil => rfl
  | @cons a w arguments wires haw _ ih =>
    have hw := (wire_eq_ok haw).2
    -- The place counts on, also where there is nothing to store.
    rw [List.zipIdx_cons, List.zipIdx_cons, List.foldl_cons, List.filterMap_cons, ← ih]
    cases hkey : Evaluator.resultKey? id a with
    | none =>
      rw [hkey, Option.bind_none] at hw
      simp [hw, hkey]
    | some key =>
      rw [hkey, Option.bind_some] at hw
      cases hslot : layout.slot? key <;> simp [hw, hkey, hslot, Evaluator.put]

/-- A step does to the slots what direct evaluation of its node does. -/
theorem run_eq_updateNode {step : Step} (h : ofNode patch layout id = .ok step) :
    step.run globals values = Evaluator.updateNode patch layout globals values id := by
  obtain ⟨node, wires, hnode, hwires, rfl⟩ := ofNode_eq_ok_iff.1 h
  simp only [run, frame, map_read hwires, Evaluator.updateNode, hnode]
  exact foldl_writesOf hwires _ 0 values

end Step

/-! ## Plans -/

namespace Plan

/-- The plan is one of the patch for the roots, made from the resolution. -/
structure Compiled (patch : Patch) (roots : List OutputRef) (r : Resolution) (plan : Plan) :
    Prop where
  resolution_eq : Resolution.ofPatch patch roots = .ok r
  layout_eq : Layout.ofResolution patch r = .ok plan.layout
  steps : List.Forall₂ (fun id step => Step.ofNode patch plan.layout id = .ok step)
    r.order plan.steps
  latches_eq : plan.latches = latchesFor plan.layout r.delayed
  roots_eq : plan.roots = roots
  outputSlots : List.Forall₂ (fun root slot => plan.layout.slot? (.output root) = some slot)
    roots plan.outputSlots
  externalSlots_eq : plan.externalSlots =
    patch.externals.toList.map fun id => plan.layout.slot? (.state id 0)

variable {plan : Plan}

theorem compiled_of_assemble (hr : Resolution.ofPatch patch roots = .ok r)
    (hlayout : Layout.ofResolution patch r = .ok layout)
    (h : assemble patch roots r layout = .ok plan) : Compiled patch roots r plan := by
  obtain ⟨steps, hsteps, h⟩ := bind_eq_ok_iff.1 h
  obtain ⟨slots, hslots, h⟩ := bind_eq_ok_iff.1 h
  obtain rfl := Except.ok.inj h
  have hslots : List.Forall₂ (fun root slot => layout.slot? (.output root) = some slot)
      (roots.zipIdx.map Prod.fst) slots :=
    List.forall₂_map_left_iff.2 <|
      (mapM_eq_ok_iff.1 hslots).imp fun _ _ => Layout.slotOr_eq_ok_iff.1
  rw [List.zipIdx_map_fst] at hslots
  exact ⟨hr, hlayout, mapM_eq_ok_iff.1 hsteps, rfl, rfl, hslots, rfl⟩

theorem compile_eq_ok (h : compile patch roots = .ok plan) : ∃ r, Compiled patch roots r plan := by
  obtain ⟨r, hr, h⟩ := bind_eq_ok_iff.1 h
  obtain ⟨layout, hlayout, h⟩ := bind_eq_ok_iff.1 h
  exact ⟨r, compiled_of_assemble hr hlayout h⟩

/-- A layout has all the slots that a plan needs. -/
theorem exists_assemble_eq_ok (hr : r.Resolves patch roots) (hp : patch.Resolvable roots)
    (ha : layout.Allocates patch r) : ∃ plan, assemble patch roots r layout = .ok plan := by
  obtain ⟨steps, hsteps⟩ := exists_mapM_eq_ok fun id hid => Step.exists_ofNode hr hp ha hid
  have hroot : ∀ x ∈ roots.zipIdx, ∃ slot,
      layout.slotOr (.output x.1) (.invalidReference x.1 (.root x.2)) = .ok slot := by
    intro x hx
    have hx := List.fst_mem_of_mem_zipIdx hx
    obtain ⟨slot, hslot⟩ := ha.exists_output_slot_iff.2
      ⟨(hr.mem_order_iff _).2 (.root hx), hp.root_exists _ hx⟩
    exact ⟨slot, Layout.slotOr_eq_ok_iff.2 hslot⟩
  obtain ⟨slots, hslots⟩ := exists_mapM_eq_ok hroot
  let plan : Plan := {
    steps
    latches := latchesFor layout r.delayed
    layout
    roots
    outputSlots := slots
    externalSlots := patch.externals.toList.map fun id => layout.slot? (.state id 0) }
  exact ⟨plan, bind_eq_ok_iff.2 ⟨steps, hsteps, bind_eq_ok_iff.2 ⟨slots, hslots, rfl⟩⟩⟩

/-- Nothing fails after resolution. -/
theorem exists_compile_eq_ok (h : Resolution.ofPatch patch roots = .ok r) :
    ∃ plan, compile patch roots = .ok plan := by
  obtain ⟨hr, hp⟩ := Resolution.ofPatch_eq_ok h
  obtain ⟨layout, hlayout⟩ := Layout.exists_ofResolution_eq_ok fun id hid =>
    Patch.Resolvable.exists_node hp ((hr.mem_order_iff id).1 hid)
  have ha := Layout.ofResolution_allocates hr.order_nodup hr.delayed_nodup hlayout
  obtain ⟨plan, hplan⟩ := exists_assemble_eq_ok hr hp ha
  exact ⟨plan, bind_eq_ok_iff.2 ⟨r, h, bind_eq_ok_iff.2 ⟨layout, hlayout, hplan⟩⟩⟩

namespace Compiled

variable (h : Compiled patch roots r plan)
include h

theorem resolves : r.Resolves patch roots := (Resolution.ofPatch_eq_ok h.resolution_eq).1

theorem resolvable : patch.Resolvable roots := (Resolution.ofPatch_eq_ok h.resolution_eq).2

theorem allocates : plan.layout.Allocates patch r :=
  Layout.ofResolution_allocates h.resolves.order_nodup h.resolves.delayed_nodup h.layout_eq

/-- The slot of a root is where its output lies. -/
theorem outputSlot?_eq (index : Nat) :
    plan.outputSlot? index = roots[index]?.bind fun root => plan.layout.slot? (.output root) := by
  rw [outputSlot?]
  by_cases hlt : index < roots.length
  · have hlt' : index < plan.outputSlots.length := h.outputSlots.length_eq ▸ hlt
    rw [List.getElem?_eq_getElem hlt, List.getElem?_eq_getElem hlt', Option.bind_some]
    exact (h.outputSlots.get hlt hlt').symm
  · have hlt' : ¬index < plan.outputSlots.length := h.outputSlots.length_eq ▸ hlt
    rw [List.getElem?_eq_none (not_lt.1 hlt), List.getElem?_eq_none (not_lt.1 hlt'),
      Option.bind_none]

/-- The slot of a host input is where the first state of its node lies. -/
theorem externalSlot?_eq (id : ExternalId) : plan.externalSlot? id =
    patch.externals[id.index]?.bind fun node => plan.layout.slot? (.state node 0) := by
  rw [externalSlot?, h.externalSlots_eq, List.getElem?_map, Array.getElem?_toList]
  cases patch.externals[id.index]? <;> rfl

end Compiled

end Plan

/-! ## Ticks -/

namespace Evaluator

/-- The slots after a tick. -/
def tick (patch : Patch) (r : Resolution) (layout : Layout) (globals : Globals)
    (values : Array Binary32) : Array Binary32 :=
  r.delayed.foldl (remember layout) (r.order.foldl (updateNode patch layout globals) values)

theorem advance_eq (e : Evaluator) (globals : Globals) :
    e.advance globals =
      { e with values := tick e.patch e.resolution e.layout globals e.values } := rfl

end Evaluator

namespace Plan

theorem foldl_latchesFor (layout : Layout) (outputs : List OutputRef) (values : Array Binary32) :
    (latchesFor layout outputs).foldl Latch.run values =
      outputs.foldl (Evaluator.remember layout) values := by
  induction outputs generalizing values with
  | nil => rfl
  | cons output outputs ih =>
    rw [List.foldl_cons, ← ih, latchesFor, List.filterMap_cons, Evaluator.remember]
    cases hs : layout.slot? (.output output) with
    | none => simp [latchesFor]
    | some source => cases ht : layout.slot? (.history output) <;> simp [latchesFor, Latch.run]

theorem foldl_steps {ids : List NodeId} {steps : List Step}
    (h : List.Forall₂ (fun id step => Step.ofNode patch layout id = .ok step) ids steps)
    (values : Array Binary32) :
    steps.foldl (Step.run globals) values =
      ids.foldl (Evaluator.updateNode patch layout globals) values := by
  induction h generalizing values with
  | nil => rfl
  | cons hstep _ ih => rw [List.foldl_cons, List.foldl_cons, Step.run_eq_updateNode hstep, ih]

/-- Running a plan is going through the nodes and the delayed outputs. -/
theorem Compiled.execute_eq {plan : Plan} (h : Compiled patch roots r plan) :
    plan.execute globals values = Evaluator.tick patch r plan.layout globals values := by
  rw [execute, foldl_steps h.steps, h.latches_eq, foldl_latchesFor, Evaluator.tick]

end Plan

end SignalGraph
