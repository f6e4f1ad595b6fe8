import Mathlib.Data.List.Perm.Basic
import SignalGraph.Proofs.Plan.Tick

/-!
# Single assignment

A plan is a straight-line program on a row of slots: a step for each node, in update
order, and then the latches. It assigns each slot once (`Plan.SingleAssignment`), as the
results of a node are its values, each once (`Patch.results_perm`), and the slots of all
values and histories make up the row (`Layout.Allocates.map_slot?_keys`).

Two things follow. A plan that refuses to look or to store outside of the row
(`Plan.execute?`) is never refused, so that it does not matter what `Plan.execute` does
there. And a step changes the values of its own node only, whatever its update leaves in
the frame.
-/

namespace SignalGraph

variable {patch : Patch} {roots : List OutputRef} {r : Resolution} {layout : Layout}
  {id : NodeId} {node : Node} {globals : Globals} {values : Array Binary32} {step : Step}
  {key : SlotKey} {slot : Nat}

/-! ## Slots of results -/

/-- What the update of a node answers, in the order of its arguments. -/
def Node.results (id : NodeId) (node : Node) : List SlotKey :=
  node.schema.arguments.filterMap (Evaluator.resultKey? id)

theorem Layout.nodup_nodeKeys (id : NodeId) (node : Node) : (nodeKeys id node).Nodup := by
  rw [List.nodup_iff_getElem?_ne_getElem?]
  intro i j hij hj heq
  have hi := getElem?_nodeKeys_eq_some_iff.1 (List.getElem?_eq_getElem (hij.trans hj))
  have hj := getElem?_nodeKeys_eq_some_iff.1 (heq ▸ List.getElem?_eq_getElem (hij.trans hj))
  have := Option.some.inj (hi.2.symm.trans hj.2)
  omega

/-- A node answers its values, each once. -/
theorem Patch.results_perm (hnode : patch.node? id = some node) :
    (node.results id).Perm (patch.keysOf id) := by
  have hresults : (node.results id).Nodup :=
    node.schema.arguments_nodup.filterMap fun _ _ _ ha hb => Evaluator.resultKey?_inj ha hb
  have hkeys : (patch.keysOf id).Nodup := keysOf_of_node hnode ▸ Layout.nodup_nodeKeys id node
  refine (List.perm_ext_iff_of_nodup hresults hkeys).2 fun key => ?_
  rw [Node.results, List.mem_filterMap]
  constructor
  · rintro ⟨a, -, ha⟩
    exact mem_keysOf_of_resultKey? hnode ha
  · intro hkey
    obtain ⟨node', hnode', a, place, hplace, ha⟩ := exists_result_of_mem_keysOf hkey
    obtain rfl : node' = node := Option.some.inj (hnode'.symm.trans hnode)
    exact ⟨a, List.mem_of_getElem? hplace, ha⟩

theorem Layout.Allocates.slot?_getElem (h : layout.Allocates patch r) (hlt : slot < layout.size) :
    layout.slot? layout.keys[slot] = some slot :=
  (h.slot?_eq_some_iff _ _).2 (Array.getElem?_eq_getElem hlt)

/-- The keys lie in the slots one after the other. -/
theorem Layout.Allocates.map_slot?_keys (h : layout.Allocates patch r) :
    layout.keys.toList.map layout.slot? = (List.range layout.size).map some := by
  refine List.ext_getElem? fun slot => ?_
  rw [List.getElem?_map, List.getElem?_map, Array.getElem?_toList]
  by_cases hlt : slot < layout.size
  · rw [List.getElem?_range hlt, Array.getElem?_eq_getElem hlt, Option.map_some, Option.map_some,
      h.slot?_getElem hlt]
  · rw [List.getElem?_eq_none (by simpa using hlt),
      Array.getElem?_eq_none (by simpa [size] using hlt), Option.map_none, Option.map_none]

namespace Step

theorem mem_writesOf {wires : List (Operand × Option Nat)} {w : Write} :
    w ∈ writesOf wires ↔ ∃ operand, wires[w.argument]? = some (operand, some w.slot) := by
  obtain ⟨argument, slot⟩ := w
  simp only [writesOf, List.mem_filterMap, List.mem_zipIdx_iff_getElem?, Option.map_eq_some_iff,
    Write.mk.injEq, Prod.exists]
  constructor
  · rintro ⟨operand, _, _, hwire, _, rfl, rfl, rfl⟩
    exact ⟨operand, hwire⟩
  · rintro ⟨operand, hwire⟩
    exact ⟨operand, some slot, argument, hwire, slot, rfl, rfl, rfl⟩

theorem map_slot_writesOf (wires : List (Operand × Option Nat)) :
    (writesOf wires).map (·.slot) = wires.filterMap (·.2) := by
  rw [writesOf, List.map_filterMap]
  conv_rhs => rw [← List.zipIdx_map_fst 0 wires, List.filterMap_map]
  refine List.filterMap_congr fun wire _ => ?_
  rw [Option.map_map]
  exact Option.map_id'

theorem exists_key_of_slotOr {e : GraphError} {target : Nat → Option Nat}
    {w : Operand × Option Nat}
    (h : (layout.slotOr key e >>= fun slot => pure (.slot slot, target slot)) = .ok w)
    (hw : w.1 = .slot slot) : ∃ key, layout.slot? key = some slot := by
  obtain ⟨slot', hslot, h⟩ := bind_eq_ok_iff.1 h
  obtain rfl := Except.ok.inj h
  obtain rfl := Operand.slot.inj hw
  exact ⟨key, Layout.slotOr_eq_ok_iff.1 hslot⟩

/-- An operand looks up a slot that is found in the layout. -/
theorem exists_key_of_wire {a : node.Argument} {w : Operand × Option Nat}
    (h : wire layout id node a = .ok w) (hw : w.1 = .slot slot) :
    ∃ key, layout.slot? key = some slot := by
  cases a with
  | input i =>
    cases hb : node.inputs.get i with
    | constant value =>
      simp only [wire, hb] at h
      obtain rfl := Except.ok.inj h
      cases hw
    | output source | feedback source =>
      simp only [wire, hb] at h
      exact exists_key_of_slotOr h hw
  | output i =>
    cases hacc : (node.schema.outputs.get i).access with
    | write =>
      simp only [wire, hacc] at h
      obtain ⟨_, _, h⟩ := bind_eq_ok_iff.1 h
      obtain rfl := Except.ok.inj h
      cases hw
    | readWrite =>
      simp only [wire, hacc] at h
      exact exists_key_of_slotOr h hw
  | state i => exact exists_key_of_slotOr h hw
  | global which =>
    obtain rfl := Except.ok.inj h
    cases hw

/-- The results go where they lie, one by one. -/
theorem map_some_filterMap (hl : layout.Allocates patch r) (hid : id ∈ r.order)
    (hnode : patch.node? id = some node) {arguments : List node.Argument}
    {wires : List (Operand × Option Nat)}
    (h : List.Forall₂ (fun a w => wire layout id node a = .ok w) arguments wires) :
    (wires.filterMap (·.2)).map some =
      (arguments.filterMap (Evaluator.resultKey? id)).map layout.slot? := by
  induction h with
  | nil => rfl
  | @cons a w arguments wires haw _ ih =>
    have hw := (wire_eq_ok haw).2
    cases ha : Evaluator.resultKey? id a with
    | none =>
      rw [ha, Option.bind_none] at hw
      rw [List.filterMap_cons_none hw, List.filterMap_cons_none ha, ih]
    | some key =>
      obtain ⟨slot, hslot⟩ := hl.exists_slot_iff.2 <|
        hl.mem_keys_iff.2 (.inl ⟨id, hid, Patch.mem_keysOf_of_resultKey? hnode ha⟩)
      rw [ha, Option.bind_some, hslot] at hw
      rw [List.filterMap_cons_some hw, List.filterMap_cons_some ha, List.map_cons, List.map_cons,
        hslot, ih]

/-- The results of a step go where the values of its node lie, each once. -/
theorem slots_perm (hl : layout.Allocates patch r) (hid : id ∈ r.order)
    (h : ofNode patch layout id = .ok step) :
    ((step.writes.map (·.slot)).map some).Perm ((patch.keysOf id).map layout.slot?) := by
  obtain ⟨node, wires, hnode, hwires, rfl⟩ := ofNode_eq_ok_iff.1 h
  rw [map_slot_writesOf, map_some_filterMap hl hid hnode hwires]
  exact (Patch.results_perm hnode).map _

theorem node_eq (h : ofNode patch layout id = .ok step) : step.node = id := by
  obtain ⟨_, _, _, _, rfl⟩ := ofNode_eq_ok_iff.1 h
  rfl

/-- A result goes into a slot of the node. -/
theorem exists_key_of_mem_writes (hl : layout.Allocates patch r) (hid : id ∈ r.order)
    (h : ofNode patch layout id = .ok step) {w : Write} (hw : w ∈ step.writes) :
    ∃ key, layout.key? w.slot = some key ∧ key.owner? = some id := by
  have hmem : some w.slot ∈ (step.writes.map (·.slot)).map some :=
    List.mem_map_of_mem (List.mem_map_of_mem hw)
  obtain ⟨key, hkey, hslot⟩ := List.mem_map.1 ((slots_perm hl hid h).mem_iff.1 hmem)
  exact ⟨key, (hl.slot?_eq_some_iff key w.slot).1 hslot, Layout.owner?_of_mem_keysOf hkey⟩

theorem length_operands (h : ofNode patch layout id = .ok step) :
    step.operands.length ≤ maxArguments := by
  obtain ⟨node, wires, _, hwires, rfl⟩ := ofNode_eq_ok_iff.1 h
  rw [List.length_map, ← hwires.length_eq]
  exact node.schema.arguments_length

theorem argument_lt (h : ofNode patch layout id = .ok step) {w : Write} (hw : w ∈ step.writes) :
    w.argument < step.operands.length := by
  obtain ⟨node, wires, _, _, rfl⟩ := ofNode_eq_ok_iff.1 h
  obtain ⟨operand, hwire⟩ := mem_writesOf.1 hw
  rw [List.length_map]
  exact (List.getElem?_eq_some_iff.1 hwire).1

theorem operand_lt (hl : layout.Allocates patch r) (h : ofNode patch layout id = .ok step)
    (hslot : .slot slot ∈ step.operands) : slot < layout.size := by
  obtain ⟨node, wires, _, hwires, rfl⟩ := ofNode_eq_ok_iff.1 h
  obtain ⟨w, hw, hoperand⟩ := List.mem_map.1 hslot
  obtain ⟨i, hi, rfl⟩ := List.getElem_of_mem hw
  obtain ⟨key, hkey⟩ := exists_key_of_wire (hwires.get (hwires.length_eq ▸ hi) hi) hoperand
  exact hl.slot_lt hkey

end Step

/-! ## Single assignment -/

namespace Plan

variable {plan : Plan}

/-- The slots that a tick assigns, in turn. -/
def assigned (plan : Plan) : List Nat :=
  plan.steps.flatMap (·.writes.map (·.slot)) ++ plan.latches.map (·.target)

/-- The plan goes through the nodes in the given order, and assigns each slot once. The
    steps assign outputs and state of their own nodes, the latches assign histories from
    outputs. Nothing is looked up out of range. -/
structure SingleAssignment (plan : Plan) (order : List NodeId) : Prop where
  nodes_eq : plan.steps.map (·.node) = order
  assigned_perm : plan.assigned.Perm (List.range plan.layout.size)
  exists_key_of_write : ∀ step ∈ plan.steps, ∀ w ∈ step.writes,
    ∃ key, plan.layout.key? w.slot = some key ∧ key.owner? = some step.node
  argument_lt : ∀ step ∈ plan.steps, ∀ w ∈ step.writes, w.argument < step.operands.length
  length_operands : ∀ step ∈ plan.steps, step.operands.length ≤ maxArguments
  operand_lt : ∀ step ∈ plan.steps, ∀ slot, .slot slot ∈ step.operands → slot < plan.layout.size
  exists_source_of_latch : ∀ latch ∈ plan.latches, ∃ source,
    plan.layout.key? latch.source = some (.output source) ∧
      plan.layout.key? latch.target = some (.history source)

/-- Each output that has a slot and a history is copied. -/
theorem forall₂_latchesFor {outputs : List OutputRef}
    (h : ∀ source ∈ outputs, (∃ slot, layout.slot? (.output source) = some slot) ∧
      ∃ slot, layout.slot? (.history source) = some slot) :
    List.Forall₂ (fun source latch => layout.slot? (.output source) = some latch.source ∧
      layout.slot? (.history source) = some latch.target) outputs (latchesFor layout outputs) := by
  induction outputs with
  | nil => exact .nil
  | cons output outputs ih =>
    obtain ⟨⟨source, hsource⟩, target, htarget⟩ := h output List.mem_cons_self
    have hlatches : latchesFor layout (output :: outputs) =
        ⟨source, target⟩ :: latchesFor layout outputs := by
      simp [latchesFor, hsource, htarget]
    rw [hlatches]
    exact .cons ⟨hsource, htarget⟩ (ih fun o ho => h o (List.mem_cons_of_mem output ho))

namespace Compiled

variable (h : Compiled patch roots r plan)
include h

theorem exists_ofNode_of_mem (hstep : step ∈ plan.steps) :
    ∃ id ∈ r.order, Step.ofNode patch plan.layout id = .ok step := by
  obtain ⟨i, hi, rfl⟩ := List.getElem_of_mem hstep
  have hi' : i < r.order.length := h.steps.length_eq ▸ hi
  exact ⟨r.order[i], List.getElem_mem hi', h.steps.get hi' hi⟩

theorem exists_latch_slots {source : OutputRef} (hsource : source ∈ r.delayed) :
    (∃ slot, plan.layout.slot? (.output source) = some slot) ∧
      ∃ slot, plan.layout.slot? (.history source) = some slot :=
  ⟨h.exists_output_slot_of_mem_delayed hsource, h.allocates.exists_history_slot_iff.2 hsource⟩

/-- Each output read with a delay is copied into its history. -/
theorem latches : List.Forall₂ (fun source latch =>
    plan.layout.slot? (.output source) = some latch.source ∧
      plan.layout.slot? (.history source) = some latch.target) r.delayed plan.latches :=
  h.latches_eq ▸ forall₂_latchesFor fun _ => h.exists_latch_slots

theorem map_node_steps : plan.steps.map (·.node) = r.order := by
  have hsteps := h.steps
  generalize r.order = order, plan.steps = steps at hsteps
  induction hsteps with
  | nil => rfl
  | cons hstep _ ih => rw [List.map_cons, Step.node_eq hstep, ih]

/-- The steps assign the values of the nodes, each once. -/
theorem slots_steps_perm : ((plan.steps.flatMap (·.writes.map (·.slot))).map some).Perm
    ((r.order.flatMap patch.keysOf).map plan.layout.slot?) := by
  have hsteps : List.Forall₂ (fun id (step : Step) =>
      ((step.writes.map (·.slot)).map some).Perm ((patch.keysOf id).map plan.layout.slot?))
      r.order plan.steps :=
    ((List.forall₂_and_left _ _).2 ⟨fun _ hid => hid, h.steps⟩).imp fun id step hstep =>
      Step.slots_perm h.allocates hstep.1 hstep.2
  generalize r.order = order, plan.steps = steps at hsteps
  induction hsteps with
  | nil => rfl
  | cons hstep _ ih =>
    rw [List.flatMap_cons, List.flatMap_cons, List.map_append, List.map_append]
    exact hstep.append ih

/-- The latches assign the histories, in order. -/
theorem map_target_latches :
    (plan.latches.map (·.target)).map some = (r.delayed.map .history).map plan.layout.slot? := by
  have hlatches := h.latches
  generalize r.delayed = delayed, plan.latches = latches at hlatches
  induction hlatches with
  | nil => rfl
  | cons hlatch _ ih =>
    rw [List.map_cons, List.map_cons, List.map_cons, List.map_cons, ih, hlatch.2]

/-- Outputs, state and histories make up the row. -/
theorem assigned_perm : plan.assigned.Perm (List.range plan.layout.size) := by
  have hall := h.slots_steps_perm.append (.of_eq h.map_target_latches)
  rw [← List.map_append, ← List.map_append, ← h.allocates.keys_eq,
    h.allocates.map_slot?_keys] at hall
  exact (List.map_perm_map_iff (Option.some_injective Nat)).1 hall

theorem singleAssignment : plan.SingleAssignment r.order where
  nodes_eq := h.map_node_steps
  assigned_perm := h.assigned_perm
  exists_key_of_write step hstep w hw := by
    obtain ⟨id, hid, hnode⟩ := h.exists_ofNode_of_mem hstep
    rw [Step.node_eq hnode]
    exact Step.exists_key_of_mem_writes h.allocates hid hnode hw
  argument_lt step hstep w hw := by
    obtain ⟨id, _, hnode⟩ := h.exists_ofNode_of_mem hstep
    exact Step.argument_lt hnode hw
  length_operands step hstep := by
    obtain ⟨id, _, hnode⟩ := h.exists_ofNode_of_mem hstep
    exact Step.length_operands hnode
  operand_lt step hstep slot hslot := by
    obtain ⟨id, _, hnode⟩ := h.exists_ofNode_of_mem hstep
    exact Step.operand_lt h.allocates hnode hslot
  exists_source_of_latch latch hlatch := by
    obtain ⟨i, hi, rfl⟩ := List.getElem_of_mem hlatch
    obtain ⟨hsource, htarget⟩ := h.latches.get (h.latches.length_eq ▸ hi) hi
    exact ⟨_, (h.allocates.slot?_eq_some_iff _ _).1 hsource,
      (h.allocates.slot?_eq_some_iff _ _).1 htarget⟩

end Compiled

end Plan

/-! ## Runs that may be refused -/

/-- Puts a word into a slot. None, if there is no such slot. -/
def store? (values : Array Binary32) (slot : Nat) (word : Binary32) : Option (Array Binary32) :=
  if slot < values.size then some (values.setIfInBounds slot word) else none

theorem store?_eq {word : Binary32} (h : slot < values.size) :
    store? values slot word = some (values.setIfInBounds slot word) := if_pos h

/-- The word that an operand stands for. None, if it is a slot that does not exist. -/
def Operand.read? (values : Array Binary32) (globals : Globals) : Operand → Option Binary32
  | .constant value => some value
  | .slot index => values[index]?
  | .global which => some (globals.value which)

/-- Runs a step. None, if it has more arguments than a frame has room for, or if it looks
    or stores out of range. -/
def Step.run? (globals : Globals) (values : Array Binary32) (step : Step) :
    Option (Array Binary32) := do
  let arguments ← step.operands.mapM (·.read? values globals)
  guard (arguments.length ≤ maxArguments)
  let frame := step.update (.ofList arguments)
  step.writes.foldlM (fun values w => do store? values w.slot (← frame.cells[w.argument]?)) values

/-- Copies an output into its history. None, if it looks or stores out of range. -/
def Latch.run? (values : Array Binary32) (latch : Latch) : Option (Array Binary32) := do
  store? values latch.target (← values[latch.source]?)

/-- Runs a tick. None, if anything in it looks or stores out of range. -/
def Plan.execute? (plan : Plan) (globals : Globals) (values : Array Binary32) :
    Option (Array Binary32) := do
  let values ← plan.steps.foldlM (Step.run? globals) values
  plan.latches.foldlM Latch.run? values

theorem Operand.read?_eq {operand : Operand}
    (h : ∀ slot, operand = .slot slot → slot < values.size) :
    operand.read? values globals = some (operand.read values globals) := by
  cases operand with
  | constant value => rfl
  | slot index => simp [read?, read, h index rfl]
  | global which => rfl

theorem Frame.getElem?_cells (frame : Frame) {i : Nat} (h : i < maxArguments) :
    frame.cells[i]? = some (frame.get i) := by
  simp [get, h]

namespace Step

/-- A step leaves alone the slots that it does not assign. -/
theorem getElem?_run_of_not_mem (h : ∀ w ∈ step.writes, w.slot ≠ slot) :
    (step.run globals values)[slot]? = values[slot]? := by
  rw [run]
  generalize step.update (step.frame globals values) = frame
  generalize step.writes = writes at h
  induction writes generalizing values with
  | nil => rfl
  | cons w writes ih =>
    rw [List.foldl_cons, ih fun w' hw' => h w' (List.mem_cons_of_mem w hw'),
      Array.getElem?_setIfInBounds_ne (h w List.mem_cons_self)]

theorem size_run : (step.run globals values).size = values.size := by
  rw [run]
  generalize step.update (step.frame globals values) = frame
  induction step.writes generalizing values with
  | nil => rfl
  | cons w writes ih => rw [List.foldl_cons, ih, Array.size_setIfInBounds]

theorem run?_eq (hread : ∀ slot, .slot slot ∈ step.operands → slot < values.size)
    (hlength : step.operands.length ≤ maxArguments)
    (hwrite : ∀ w ∈ step.writes, w.slot < values.size ∧ w.argument < step.operands.length) :
    step.run? globals values = some (step.run globals values) := by
  have harguments : step.operands.mapM (·.read? values globals) =
      some (step.operands.map (·.read values globals)) :=
    mapM_eq_some fun operand hmem => Operand.read?_eq fun slot hslot => hread slot (hslot ▸ hmem)
  rw [run?, harguments]
  simp only [Option.bind_eq_bind, Option.bind_some, List.length_map, guard, if_pos hlength]
  refine (foldlM_eq_some (·.size = values.size) (fun w hw t ht => ?_) rfl).1
  obtain ⟨hslot, hargument⟩ := hwrite w hw
  rw [Frame.getElem?_cells _ (hargument.trans_le hlength), Option.bind_some,
    store?_eq (ht ▸ hslot)]
  exact ⟨rfl, by rw [Array.size_setIfInBounds, ht]⟩

end Step

theorem Latch.run?_eq {latch : Latch} (hsource : latch.source < values.size)
    (htarget : latch.target < values.size) : latch.run? values = some (latch.run values) := by
  rw [run?, run, Array.getElem?_eq_getElem hsource]
  simp [store?_eq htarget, hsource]

namespace Plan

variable {plan : Plan} {order : List NodeId}

namespace SingleAssignment

variable (h : plan.SingleAssignment order)
include h

/-- No step looks or stores out of range. -/
theorem run?_eq (globals : Globals) (hsize : values.size = plan.layout.size)
    (hstep : step ∈ plan.steps) : step.run? globals values = some (step.run globals values) := by
  refine Step.run?_eq (fun slot hslot => hsize ▸ h.operand_lt step hstep slot hslot)
    (h.length_operands step hstep) fun w hw => ⟨?_, h.argument_lt step hstep w hw⟩
  obtain ⟨key, hkey, _⟩ := h.exists_key_of_write step hstep w hw
  exact hsize ▸ (Array.getElem?_eq_some_iff.1 hkey).1

/-- A tick looks and stores within the row. -/
theorem execute?_eq (globals : Globals) (hsize : values.size = plan.layout.size) :
    plan.execute? globals values = some (plan.execute globals values) := by
  obtain ⟨hsteps, hsize⟩ := foldlM_eq_some (·.size = plan.layout.size)
    (fun step hstep _ ht => ⟨h.run?_eq globals ht hstep, Step.size_run.trans ht⟩) hsize
  rw [execute?, hsteps, Option.bind_eq_bind, Option.bind_some, execute]
  refine (foldlM_eq_some (·.size = plan.layout.size) (fun latch hlatch t ht => ?_) hsize).1
  obtain ⟨source, hsource, htarget⟩ := h.exists_source_of_latch latch hlatch
  refine ⟨Latch.run?_eq (ht ▸ (Array.getElem?_eq_some_iff.1 hsource).1)
    (ht ▸ (Array.getElem?_eq_some_iff.1 htarget).1), ?_⟩
  rw [Latch.run, Array.size_setIfInBounds, ht]

/-- A step changes the values of its own node only, whatever it is that it computes. -/
theorem getElem?_run_of_owner?_ne (hstep : step ∈ plan.steps) (update : Frame → Frame)
    (hslot : ∀ key, plan.layout.key? slot = some key → key.owner? ≠ some step.node) :
    ({ step with update }.run globals values)[slot]? = values[slot]? := by
  refine Step.getElem?_run_of_not_mem fun w hw heq => ?_
  obtain ⟨key, hkey, howner⟩ := h.exists_key_of_write step hstep w hw
  exact hslot key (heq ▸ hkey) howner

end SingleAssignment

end Plan

/-! ## A patch with an echo -/

/-- The unit that holds a signal for a tick. -/
def Schema.hold : Schema where
  unit := "hold"
  inputs := [{ name := "signal", default := 0 }]
  outputs := [{ name := "held" }]
  states := [.float "next" 0]
  arguments := [.input 0, .output 0, .state 0]
  update := fun frame => (frame.set 1 (frame.get 2)).set 2 (frame.get 0)
  arguments_nodup := by decide
  arguments_length := by decide
  input_mem := by decide
  output_mem := by decide
  state_mem := by decide

/-- Two nodes that hold what the other one says, the second with a delay. -/
def Patch.echo : Patch where
  nodes := #[
    ⟨.hold, #v[.output ⟨⟨1⟩, 0⟩], #v[.float 1]⟩,
    ⟨.hold, #v[.feedback ⟨⟨0⟩, 0⟩], #v[.float 0]⟩]

theorem Patch.resolution_echo : Resolution.ofPatch echo [⟨⟨0⟩, 0⟩] =
    .ok ⟨[⟨1⟩, ⟨0⟩], [⟨⟨0⟩, 0⟩]⟩ := by decide +kernel

namespace Plan

variable {plan : Plan}

/-- A compiled plan assigns each slot once, in the order of the resolution. So a tick on
    a row of the right size looks and stores within the row, and a step changes nothing
    but the values of its own node, whatever its update leaves in the frame. -/
theorem compile_singleAssignment (h : compile patch roots = .ok plan) :
    (∃ r, Resolution.ofPatch patch roots = .ok r ∧ plan.SingleAssignment r.order) ∧
    (∀ globals values, values.size = plan.layout.size →
      plan.execute? globals values = some (plan.execute globals values)) ∧
    ∀ step ∈ plan.steps, ∀ update globals (values : Array Binary32) slot,
      (∀ key, plan.layout.key? slot = some key → key.owner? ≠ some step.node) →
      ({ step with update }.run globals values)[slot]? = values[slot]? := by
  obtain ⟨r, hc⟩ := compile_eq_ok h
  have hassign := hc.singleAssignment
  exact ⟨⟨r, hc.resolution_eq, hassign⟩, fun globals _ hsize => hassign.execute?_eq globals hsize,
    fun step hstep update _ _ _ hslot => hassign.getElem?_run_of_owner?_ne hstep update hslot⟩

/-- A plan for the echo goes through the second node first. -/
theorem compile_singleAssignment_echo : ∃ plan, compile .echo [⟨⟨0⟩, 0⟩] = .ok plan ∧
    plan.SingleAssignment [⟨1⟩, ⟨0⟩] ∧
    plan.execute? ⟨1⟩ plan.layout.initial = some (plan.execute ⟨1⟩ plan.layout.initial) := by
  obtain ⟨plan, hplan⟩ := exists_compile_eq_ok Patch.resolution_echo
  obtain ⟨r, hc⟩ := compile_eq_ok hplan
  obtain ⟨⟨r', hr', hassign⟩, hexecute, _⟩ := compile_singleAssignment hplan
  obtain rfl := Except.ok.inj (hr'.symm.trans Patch.resolution_echo)
  exact ⟨plan, hplan, hassign, hexecute ⟨1⟩ _ hc.allocates.initial_size⟩

end Plan

end SignalGraph
