import SignalGraph.Proofs.Plan.Assignment

/-!
# What lasts

A row of slots holds more than the next tick needs to know: state, histories and the
outputs that are read before they are written (`Patch.Persistent`). All other outputs are
written before anybody reads them, as nodes are updated in the order of a resolution. So
whatever a tick finds there, it leaves the same row (`Plan.execute_eq_of_persistent`): an
ordinary edge never delays a signal.

The proof compares two ticks node by node. They agree on what lasts and on the values of
all nodes updated so far (`Patch.Known`), which is all that the next node looks up.
-/

namespace SignalGraph

namespace Patch

/-- A value that a tick may find as the previous one left it. -/
def Persistent (patch : Patch) : SlotKey → Prop
  | .output source => ∃ node port, patch.node? source.node = some node ∧
      node.schema.outputs[source.index]? = some port ∧ port.access = .readWrite
  | .state _ _ | .history _ => True

/-- A value that a tick has made sure of once the nodes listed have been updated. -/
def Known (patch : Patch) (updated : List NodeId) (key : SlotKey) : Prop :=
  patch.Persistent key ∨ ∃ id ∈ updated, key.owner? = some id

end Patch

/-- Two rows of the size of the layout hold the same words under some keys. -/
structure Layout.SameUnder (layout : Layout) (s : SlotKey → Prop)
    (values values' : Array Binary32) : Prop where
  size_eq : values.size = layout.size
  size_eq' : values'.size = layout.size
  look_eq : ∀ key, s key → Evaluator.look layout values key = Evaluator.look layout values' key

open Evaluator

variable {patch : Patch} {roots : List OutputRef} {r : Resolution} {layout : Layout} {plan : Plan}
  {globals : Globals} {values values' : Array Binary32} {key : SlotKey} {id : NodeId}
  {before after : List NodeId}

theorem Evaluator.look_of_slot?_eq_none (h : layout.slot? key = none) :
    look layout values key = 0 := by
  rw [look, h]
  rfl

theorem Evaluator.look_eq_iff_getElem?_eq {slot : Nat} (hslot : layout.slot? key = some slot)
    (hlt : slot < values.size) (hlt' : slot < values'.size) :
    look layout values key = look layout values' key ↔ values[slot]? = values'[slot]? := by
  simp [look, hslot, hlt, hlt']

namespace Layout

/-- What lies in a slot and belongs to a node is one of its values. -/
theorem Allocates.mem_keysOf (h : layout.Allocates patch r) {slot : Nat}
    (hslot : layout.slot? key = some slot) (howner : key.owner? = some id) :
    key ∈ patch.keysOf id := by
  rcases h.mem_keys_iff.1 (h.exists_slot_iff.1 ⟨slot, hslot⟩) with
    ⟨id', _, hkey⟩ | ⟨source, _, rfl⟩
  · obtain rfl : id' = id := Option.some.inj ((owner?_of_mem_keysOf hkey).symm.trans howner)
    exact hkey
  · cases howner

/-- All that has a slot is known in the end. -/
theorem Allocates.known (h : layout.Allocates patch r) (hkey : key ∈ layout.keys) :
    patch.Known r.order key := by
  rcases h.mem_keys_iff.1 hkey with ⟨id, hid, hkey⟩ | ⟨source, _, rfl⟩
  · exact .inr ⟨id, hid, owner?_of_mem_keysOf hkey⟩
  · exact .inl trivial

/-- Rows hold the same under some keys if they do so in the slots of these. -/
theorem Allocates.sameUnder {s : SlotKey → Prop} (h : layout.Allocates patch r)
    (hsize : values.size = layout.size) (hsize' : values'.size = layout.size)
    (hslots : ∀ slot key, layout.key? slot = some key → s key → values[slot]? = values'[slot]?) :
    layout.SameUnder s values values' := by
  refine ⟨hsize, hsize', fun key hkey => ?_⟩
  cases hslot : layout.slot? key with
  | none => rw [look_of_slot?_eq_none hslot, look_of_slot?_eq_none hslot]
  | some slot =>
    have hlt := h.slot_lt hslot
    rw [look_eq_iff_getElem?_eq hslot (hsize ▸ hlt) (hsize' ▸ hlt)]
    exact hslots slot key ((h.slot?_eq_some_iff key slot).1 hslot) hkey

/-- Rows that hold the same under all keys with a slot are the same. -/
theorem SameUnder.eq {s : SlotKey → Prop} (h : layout.SameUnder s values values')
    (hl : layout.Allocates patch r) (hall : ∀ key ∈ layout.keys, s key) : values = values' := by
  refine Array.ext_getElem? fun slot => ?_
  by_cases hlt : slot < layout.size
  · rw [← look_eq_iff_getElem?_eq (hl.slot?_getElem hlt) (h.size_eq ▸ hlt) (h.size_eq' ▸ hlt)]
    exact h.look_eq _ (hall _ (Array.getElem_mem hlt))
  · rw [Array.getElem?_eq_none (h.size_eq ▸ not_lt.1 hlt),
      Array.getElem?_eq_none (h.size_eq' ▸ not_lt.1 hlt)]

end Layout

namespace Plan

namespace Compiled

variable (h : Compiled patch roots r plan)
include h

/-- A node whose turn it is finds the same arguments. -/
theorem argument_congr {node : Node} (horder : r.order = before ++ id :: after)
    (hsame : plan.layout.SameUnder (patch.Known before) values values')
    (hnode : patch.node? id = some node) (a : node.Argument) :
    argument plan.layout globals values id node a =
      argument plan.layout globals values' id node a := by
  cases a with
  | input i =>
    have hbinds := Patch.binds_get hnode i
    cases hb : node.inputs.get i with
    | constant value => simp only [argument, hb]
    | output source =>
      rw [hb] at hbinds
      simp only [argument, hb]
      -- Its node has had its turn.
      have hsource := h.resolves.order_inOrder before id after horder _ ⟨source, hbinds, rfl⟩
      exact hsame.look_eq _ (.inr ⟨source.node, hsource, rfl⟩)
    | feedback source =>
      simp only [argument, hb]
      exact hsame.look_eq _ (.inl trivial)
  | output i =>
    cases hacc : (node.schema.outputs.get i).access with
    | write => simp only [argument, hacc]
    | readWrite =>
      simp only [argument, hacc]
      exact hsame.look_eq _ (.inl ⟨node, _, hnode, List.getElem?_eq_getElem i.isLt, hacc⟩)
  | state i => exact hsame.look_eq _ (.inl trivial)
  | global which => rfl

/-- Once it has been updated, its values are the same as well. -/
theorem sameUnder_updateNode (horder : r.order = before ++ id :: after)
    (hsame : plan.layout.SameUnder (patch.Known before) values values') :
    plan.layout.SameUnder (patch.Known (before ++ [id]))
      (updateNode patch plan.layout globals values id)
      (updateNode patch plan.layout globals values' id) := by
  refine ⟨size_updateNode.trans hsame.size_eq, size_updateNode.trans hsame.size_eq',
    fun key hkey => ?_⟩
  by_cases howner : key.owner? = some id
  · cases hslot : plan.layout.slot? key with
    | none => rw [look_of_slot?_eq_none hslot, look_of_slot?_eq_none hslot]
    | some slot =>
      have hid : id ∈ r.order := by simp [horder]
      obtain ⟨node, hnode, a, place, hplace, ha⟩ :=
        Patch.exists_result_of_mem_keysOf (h.allocates.mem_keysOf hslot howner)
      rw [look_updateNode h.allocates hsame.size_eq hid hnode hplace ha,
        look_updateNode h.allocates hsame.size_eq' hid hnode hplace ha,
        List.map_congr_left fun a _ => h.argument_congr horder hsame hnode a]
  · rw [look_updateNode_of_owner?_ne h.allocates howner,
      look_updateNode_of_owner?_ne h.allocates howner]
    refine hsame.look_eq key (hkey.imp_right ?_)
    rintro ⟨id', hid', howner'⟩
    rcases List.mem_append.1 hid' with hid' | hid'
    · exact ⟨id', hid', howner'⟩
    · exact absurd (List.mem_singleton.1 hid' ▸ howner') howner

theorem sameUnder_foldl_updateNode (globals : Globals) (horder : r.order = before ++ after)
    (hsame : plan.layout.SameUnder (patch.Known before) values values') :
    plan.layout.SameUnder (patch.Known r.order)
      (after.foldl (updateNode patch plan.layout globals) values)
      (after.foldl (updateNode patch plan.layout globals) values') := by
  induction after generalizing before values values' with
  | nil => simpa [horder] using hsame
  | cons id after ih =>
    exact ih (by simp [horder]) (h.sameUnder_updateNode horder hsame)

end Compiled

/-- Only what lasts matters to a tick: on rows that differ in no state, no history, and
    no output that is read before it is written, it has the same result in all slots. -/
theorem execute_eq_of_persistent (h : compile patch roots = .ok plan) (globals : Globals)
    (hsize : values.size = plan.layout.size) (hsize' : values'.size = plan.layout.size)
    (hslots : ∀ slot key, plan.layout.key? slot = some key → patch.Persistent key →
      values[slot]? = values'[slot]?) :
    plan.execute globals values = plan.execute globals values' := by
  obtain ⟨r, hc⟩ := compile_eq_ok h
  have hsame : plan.layout.SameUnder (patch.Known []) values values' :=
    hc.allocates.sameUnder hsize hsize' fun slot key hkey hknown =>
      hslots slot key hkey (hknown.resolve_right (by simp))
  -- The rows are the same before anything is put into a history.
  have hnodes := (hc.sameUnder_foldl_updateNode globals rfl hsame).eq hc.allocates
    fun key hkey => hc.allocates.known hkey
  rw [hc.execute_eq, hc.execute_eq, tick, tick, hnodes]

/-- Neither node of the echo reads its output. -/
theorem not_persistent_echo (id : NodeId) : ¬Patch.echo.Persistent (.output ⟨id, 0⟩) := by
  obtain ⟨_ | _ | n⟩ := id
  all_goals
    rintro ⟨node, port, hnode, hport, haccess⟩
    cases hnode
  all_goals
    cases hport
    cases haccess

/-- The outputs of the echo may hold anything before a tick. -/
theorem execute_eq_of_persistent_echo : ∃ plan, compile .echo [⟨⟨0⟩, 0⟩] = .ok plan ∧
    let values : Array Binary32 := #[.signedInfinity false, 1, 2, 3, 4]
    let values' : Array Binary32 := #[0, 1, 0, 3, 4]
    values.size = plan.layout.size ∧ values'.size = plan.layout.size ∧
    (∀ slot key, plan.layout.key? slot = some key → Patch.echo.Persistent key →
      values[slot]? = values'[slot]?) ∧
    plan.execute ⟨1⟩ values = plan.execute ⟨1⟩ values' := by
  obtain ⟨plan, hplan⟩ := exists_compile_eq_ok Patch.resolution_echo
  obtain ⟨r, hc⟩ := compile_eq_ok hplan
  obtain rfl := Except.ok.inj (hc.resolution_eq.symm.trans Patch.resolution_echo)
  have hkeys : plan.layout.keys.toList = [.output ⟨⟨1⟩, 0⟩, .state ⟨1⟩ 0, .output ⟨⟨0⟩, 0⟩,
    .state ⟨0⟩ 0, .history ⟨⟨0⟩, 0⟩] := hc.allocates.keys_eq.trans (by decide)
  have hsize : plan.layout.size = 5 := congrArg List.length hkeys
  have hslots : ∀ slot key, plan.layout.key? slot = some key → Patch.echo.Persistent key →
      (#[.signedInfinity false, 1, 2, 3, 4] : Array Binary32)[slot]? =
        (#[0, 1, 0, 3, 4] : Array Binary32)[slot]? := by
    intro slot key hkey hpersistent
    rw [Layout.key?, ← Array.getElem?_toList, hkeys] at hkey
    rcases slot with _ | _ | _ | _ | _ | slot
    · exact absurd (Option.some.inj hkey ▸ hpersistent) (not_persistent_echo ⟨1⟩)
    · rfl
    · exact absurd (Option.some.inj hkey ▸ hpersistent) (not_persistent_echo ⟨0⟩)
    · rfl
    · rfl
    · cases hkey
  exact ⟨plan, hplan, hsize.symm, hsize.symm, hslots,
    execute_eq_of_persistent hplan ⟨1⟩ hsize.symm hsize.symm hslots⟩

end Plan

end SignalGraph
