import Mathlib.Algebra.Ring.Nat
import SignalGraph.Proofs.Patch.StateValues
import SignalGraph.Proofs.Plan.Assignment

/-!
# The row of slots

A resolution may be laid out for a patch other than the one that it comes from. All that can
go wrong is that a node is missing, and the first one that is missing is named
(`Layout.ofResolution_eq_error_iff`).

If none is, the row is made up of the values of each node in update order, its outputs
before its state, and then of the histories. As a resolution lists nothing twice, nothing
has two slots. So what lies in a slot and where something lies are inverse to each other,
and there are no slots but these (`Layout.ofResolution_bijective`).
-/

namespace SignalGraph

variable {patch other : Patch} {roots : List OutputRef} {r : Resolution} {layout : Layout}
  {id : NodeId} {index slot : Nat} {key : SlotKey} {e : GraphError}

/-- The number of values that a node of the patch keeps. -/
def Patch.valueCount (patch : Patch) (id : NodeId) : Nat :=
  ((patch.schema? id).map Schema.valueCount).getD 0

theorem Patch.length_keysOf (patch : Patch) (id : NodeId) :
    (patch.keysOf id).length = patch.valueCount id := by
  rw [keysOf, valueCount, schema?]
  cases patch.node? id <;> simp [Layout.nodeKeys, Schema.valueCount]

/-- State that has a slot has an initial value. -/
theorem Patch.exists_stateValue_of_key? (h : layout.Allocates patch r)
    (hkey : layout.key? slot = some (.state id index)) :
    ∃ value, patch.stateValue? id index = some value := by
  obtain ⟨-, node, hnode, hindex⟩ :=
    h.exists_state_slot_iff.1 ⟨slot, (h.slot?_eq_some_iff _ slot).2 hkey⟩
  exact ⟨node.states[index], by simp [stateValue?, hnode, hindex]⟩

namespace Layout

/-! ## Missing nodes -/

/-- The fault of a node that the patch does not have. -/
def missing? (patch : Patch) (id : NodeId) : Option GraphError :=
  if (patch.node? id).isNone then some (.unknownNode id) else none

theorem missing?_eq_none_iff : missing? patch id = none ↔ patch.node? id ≠ none := by
  simp [missing?]

theorem missing?_eq_some_iff :
    missing? patch id = some e ↔ patch.node? id = none ∧ e = .unknownNode id := by
  rw [missing?, Option.ite_none_right_eq_some, Option.isNone_iff_eq_none, Option.some_inj,
    eq_comm (b := e)]

/-- Adds the slots of the node of a name, if there is one. -/
def addNodeIfAny (patch : Patch) (layout : Layout) (id : NodeId) : Layout :=
  ((patch.node? id).map (layout.addNode id)).getD layout

theorem addNodeOf_eq_barring (layout : Layout) (id : NodeId) :
    addNodeOf patch layout id = barring (missing? patch id) (addNodeIfAny patch layout id) := by
  rw [addNodeOf, missing?, addNodeIfAny]
  cases patch.node? id <;> rfl

theorem ofResolution_eq_barring : ofResolution patch r =
    barring (r.order.findSome? (missing? patch))
      ((r.order.foldl (addNodeIfAny patch) (empty patch.nodes.size)).addHistories r.delayed) := by
  have hfold : r.order.foldlM (addNodeOf patch) (empty patch.nodes.size) =
      barring (r.order.findSome? (missing? patch))
        (r.order.foldl (addNodeIfAny patch) (empty patch.nodes.size)) :=
    foldlM_eq_barring (g := fun layout id => .ok (addNodeIfAny patch layout id))
      (fun id _ layout layout' h => Except.ok.inj h ▸ addNodeOf_eq_barring layout id)
      List.foldlM_pure
  rw [ofResolution, hfold]
  cases r.order.findSome? (missing? patch) <;> rfl

/-- A layout is refused for the first node that is missing. -/
theorem ofResolution_eq_error_iff : ofResolution patch r = .error e ↔
    ∃ before id after, r.order = before ++ id :: after ∧
      (∀ earlier ∈ before, patch.node? earlier ≠ none) ∧ patch.node? id = none ∧
      e = .unknownNode id := by
  have hfirst : ofResolution patch r = .error e ↔
      r.order.findSome? (missing? patch) = some e := by
    rw [ofResolution_eq_barring]
    cases r.order.findSome? (missing? patch) <;> simp
  simp only [hfirst, List.findSome?_eq_some_iff, missing?_eq_some_iff, missing?_eq_none_iff]
  refine exists_congr fun before => exists_congr fun id => exists_congr fun after => ?_
  rw [and_comm (b := ∀ earlier ∈ before, _)]

/-! ## Rows -/

/-- The layout is the row of the values of the nodes, node by node, and of the histories. -/
structure IsRow (patch : Patch) (r : Resolution) (layout : Layout) : Prop where
  /-- What lies in a slot and where something lies are inverse to each other. -/
  slot?_eq_some_iff : ∀ key slot, layout.slot? key = some slot ↔ layout.key? slot = some key
  /-- There are no gaps. -/
  isSome_key?_iff : ∀ slot, (layout.key? slot).isSome ↔ slot < layout.size
  /-- Nothing has two slots. -/
  keys_nodup : layout.keys.toList.Nodup
  /-- The nodes come in update order, with their outputs before their states, and then come
      the histories. -/
  keys_eq : layout.keys.toList = r.order.flatMap patch.keysOf ++ r.delayed.map .history
  /-- Histories are in ascending order of what they recall. -/
  delayed_pairwise : r.delayed.Pairwise fun a b =>
    a.node.index < b.node.index ∨ a.node = b.node ∧ a.index < b.index
  size_eq : layout.size = (r.order.map patch.valueCount).sum + r.delayed.length
  initial_size : layout.initial.size = layout.size
  /-- State starts from the bits of what the node gives it. -/
  initial_state : ∀ slot id index, layout.key? slot = some (.state id index) →
    ∃ value, patch.stateValue? id index = some value ∧
      layout.initial[slot]? = some value.toWord
  /-- All else starts from zero. -/
  initial_zero : ∀ slot key, layout.key? slot = some key →
    (∀ id index, key ≠ .state id index) → layout.initial[slot]? = some 0

theorem Allocates.nodup_keys (h : layout.Allocates patch r) : layout.keys.toList.Nodup := by
  have hslots : (layout.keys.toList.map layout.slot?).Nodup := by
    rw [h.map_slot?_keys]
    exact List.nodup_range.map (Option.some_injective Nat)
  exact hslots.of_map _

theorem Allocates.isRow (h : layout.Allocates patch r) (hr : r.Resolves other roots) :
    layout.IsRow patch r where
  slot?_eq_some_iff := h.slot?_eq_some_iff
  isSome_key?_iff slot := by simp [key?, size]
  keys_nodup := h.nodup_keys
  keys_eq := h.keys_eq
  delayed_pairwise := hr.delayed_pairwise
  size_eq := by
    rw [size, ← Array.length_toList, h.keys_eq, List.length_append, List.length_flatMap,
      List.length_map]
    simp only [Patch.length_keysOf]
  initial_size := h.initial_size
  initial_state slot id index hkey := by
    obtain ⟨value, hvalue⟩ := Patch.exists_stateValue_of_key? h hkey
    exact ⟨value, hvalue, Patch.initialWord_state hvalue ▸ h.getElem?_initial hkey⟩
  initial_zero slot key hkey hne := by
    rw [h.getElem?_initial hkey]
    cases key with
    | state id index => exact absurd rfl (hne id index)
    | output source => rfl
    | history source => rfl

end Layout

/-! ## Rows of any patch -/

/-- The unit that counts ticks, with a carry whenever it is back at zero. -/
def Schema.counter : Schema where
  unit := "counter"
  inputs := []
  outputs := [{ name := "count" }, { name := "carry" }]
  states := [.int "total" 5]
  arguments := [.output 0, .output 1, .state 0]
  update := fun frame =>
    let total := (frame.get 2).toInt32 + 1
    ((frame.set 0 (Binary.ofInt total.toInt)).set 1 (if total = 0 then 1 else 0)).set 2
      (.ofInt32 total)
  arguments_nodup := by decide
  arguments_length := by decide
  input_mem := by decide
  output_mem := by decide
  state_mem := by decide

/-- Two counters, the first of which starts from another number than counters do. -/
def Patch.counters : Patch where
  nodes := #[
    { Node.ofSchema .counter with states := #v[.int 0x7fc00001] },
    .ofSchema .counter]

namespace Layout

/-- A resolution can be laid out for any patch, be it the one that has been resolved or
    another one, unless this patch does not have all nodes of the resolution: then the first
    one that is missing is named. What is laid out is the row of all values of these nodes
    and of the histories. -/
theorem ofResolution_bijective (h : Resolution.ofPatch other roots = .ok r) (patch : Patch) :
    (∀ e, ofResolution patch r = .error e ↔
      ∃ before id after, r.order = before ++ id :: after ∧
        (∀ earlier ∈ before, patch.node? earlier ≠ none) ∧ patch.node? id = none ∧
        e = .unknownNode id) ∧
    ∀ layout, ofResolution patch r = .ok layout → layout.IsRow patch r := by
  have hr := (Resolution.ofPatch_eq_ok h).1
  refine ⟨fun e => ofResolution_eq_error_iff, fun layout hlayout => ?_⟩
  exact (ofResolution_allocates hr.order_nodup hr.delayed_nodup hlayout).isRow hr

/-- The echo's resolution, laid out for two counters instead: the whole number that the first
    one starts from is kept as it is, though its bits are no number as a signal. The empty
    patch has neither of the nodes, and is refused for the one that would be updated first. -/
theorem ofResolution_bijective_counters :
    ∃ r, Resolution.ofPatch .echo [⟨⟨0⟩, 0⟩] = .ok r ∧
      ofResolution {} r = .error (.unknownNode ⟨1⟩) ∧
      ∃ layout, ofResolution .counters r = .ok layout ∧ layout.size = 7 ∧
        layout.slot? (.history ⟨⟨0⟩, 0⟩) = some 6 ∧
        ∃ word : Binary32, layout.initial[5]? = some word ∧ word.isNaN ∧
          word.toInt32 = 0x7fc00001 := by
  have hrows := ofResolution_bijective Patch.resolution_echo
  obtain ⟨layout, hlayout⟩ :
      ∃ layout, ofResolution .counters ⟨[⟨1⟩, ⟨0⟩], [⟨⟨0⟩, 0⟩]⟩ = .ok layout :=
    exists_ofResolution_eq_ok (by simp [Patch.node?, Patch.counters])
  have hrow := (hrows .counters).2 layout hlayout
  have hkeys : layout.keys.toList = [.output ⟨⟨1⟩, 0⟩, .output ⟨⟨1⟩, 1⟩, .state ⟨1⟩ 0,
      .output ⟨⟨0⟩, 0⟩, .output ⟨⟨0⟩, 1⟩, .state ⟨0⟩ 0, .history ⟨⟨0⟩, 0⟩] := hrow.keys_eq
  have hkey (slot : Nat) : layout.key? slot = layout.keys.toList[slot]? :=
    Array.getElem?_toList.symm
  refine ⟨_, Patch.resolution_echo, ((hrows {}).1 _).2 ⟨[], ⟨1⟩, [⟨0⟩], rfl, by simp, rfl, rfl⟩,
    layout, hlayout, hrow.size_eq, ?_, ?_⟩
  · rw [hrow.slot?_eq_some_iff, hkey, hkeys]
    rfl
  · obtain ⟨value, hvalue, hword⟩ := hrow.initial_state 5 ⟨0⟩ 0 (by rw [hkey, hkeys]; rfl)
    obtain rfl : .int 0x7fc00001 = value := Option.some.inj hvalue
    exact ⟨_, hword, by decide, by decide⟩

end Layout

end SignalGraph
