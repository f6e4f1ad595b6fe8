import Mathlib.Data.List.Nodup
import SignalGraph.Plan.Layout
import SignalGraph.Proofs.Outcome
import SignalGraph.Proofs.Resolution.Dependency

/-!
# What lies where

A layout of a resolution that lists nothing twice has a slot for each value of each
node and for each history, and for nothing else (`Layout.Allocates.keys_eq`). What
lies in a slot and where something lies are inverse to each other
(`Layout.Allocates.slot?_eq_some_iff`), so that no two things share a slot.

The slots of a node are found through its block, which is written down once: adding
a node keeps all this as long as the node is new (`Layout.AllocatesNodes.addNode`).
-/

namespace SignalGraph

/-! ## Keys -/

/-- The node that a value belongs to. Histories belong to none. -/
def SlotKey.owner? : SlotKey → Option NodeId
  | .output source => some source.node
  | .state id _ => some id
  | .history _ => none

theorem SlotKey.owner?_eq_none_iff {key : SlotKey} :
    key.owner? = none ↔ ∃ source, key = .history source := by
  cases key <;> simp [owner?]

namespace Patch

/-- The values that a node of the patch keeps. -/
def keysOf (patch : Patch) (id : NodeId) : List SlotKey :=
  match patch.node? id with
  | none => []
  | some node => Layout.nodeKeys id node

/-- What a value starts from: state from the value the node gives it, all else from
    zero. -/
def initialWord (patch : Patch) : SlotKey → Binary32
  | .state id index => ((patch.stateValue? id index).map (·.toWord)).getD 0
  | .output _ | .history _ => 0

variable {patch : Patch} {id : NodeId} {node : Node} {key : SlotKey}

theorem keysOf_of_node (h : patch.node? id = some node) :
    patch.keysOf id = Layout.nodeKeys id node := by
  rw [keysOf, h]

end Patch

namespace Layout

variable {patch : Patch} {id : NodeId} {node : Node} {key : SlotKey} {layout : Layout}
  {order : List NodeId} {source : OutputRef} {index slot : Nat}

/-- Where a value lies among those of its node. -/
def offset? (node : Node) : SlotKey → Option Nat
  | .output source =>
    if source.index < node.schema.outputs.length then some source.index else none
  | .state _ index =>
    if index < node.schema.states.length then some (node.schema.outputs.length + index) else none
  | .history _ => none

theorem getElem?_nodeKeys_eq_some_iff : (nodeKeys id node)[slot]? = some key ↔
    key.owner? = some id ∧ offset? node key = some slot := by
  simp only [nodeKeys, List.getElem?_append, List.getElem?_map, List.length_map, List.length_range]
  rcases key with ⟨⟨n, k⟩⟩ | ⟨n, k⟩ | _
  · split <;> simp [SlotKey.owner?, offset?, NodeId.output] <;> grind
  · split <;> simp [SlotKey.owner?, offset?] <;> grind
  · split <;> simp [SlotKey.owner?]

theorem mem_nodeKeys : key ∈ nodeKeys id node ↔
    key.owner? = some id ∧ (offset? node key).isSome := by
  simp [List.mem_iff_getElem?, getElem?_nodeKeys_eq_some_iff, Option.isSome_iff_exists]

theorem mem_keysOf_iff : key ∈ patch.keysOf id ↔
    ∃ node, patch.node? id = some node ∧ key.owner? = some id ∧ (offset? node key).isSome := by
  rw [Patch.keysOf]
  cases patch.node? id <;> simp [mem_nodeKeys]

theorem owner?_of_mem_keysOf (h : key ∈ patch.keysOf id) : key.owner? = some id := by
  obtain ⟨_, _, howner, _⟩ := mem_keysOf_iff.1 h
  exact howner

theorem map_initialWord_nodeKeys (h : patch.node? id = some node) :
    (nodeKeys id node).map patch.initialWord = nodeInitial node := by
  refine List.ext_getElem? fun i => ?_
  simp only [nodeKeys, nodeInitial, List.map_append, List.map_map, List.getElem?_append,
    List.length_map, List.length_range, List.length_replicate]
  split
  · next hi => simp [hi, Patch.initialWord]
  · next hi =>
    by_cases hj : i - node.schema.outputs.length < node.schema.states.length
    · simp [hj, Patch.initialWord, Patch.stateValue?, h]
    · simp [hj]

/-! ## The slots of nodes -/

/-- The layout has the slots of the nodes listed, and no others. -/
structure AllocatesNodes (patch : Patch) (order : List NodeId) (layout : Layout) : Prop where
  node_exists : ∀ id ∈ order, ∃ node, patch.node? id = some node
  blocks_size : layout.blocks.size = patch.nodes.size
  histories_eq : layout.histories = []
  keys_eq : layout.keys.toList = order.flatMap patch.keysOf
  initial_eq : layout.initial.toList = layout.keys.toList.map patch.initialWord
  slot?_eq_some_iff : ∀ key slot, layout.slot? key = some slot ↔ layout.key? slot = some key

theorem allocatesNodes_empty (patch : Patch) :
    AllocatesNodes patch [] (empty patch.nodes.size) where
  node_exists := by simp
  blocks_size := by simp [empty]
  histories_eq := rfl
  keys_eq := rfl
  initial_eq := rfl
  slot?_eq_some_iff key slot := by
    have hblock : ∀ i : Nat, (empty patch.nodes.size).blocks[i]?.join = none := by
      intro i
      by_cases hi : i < patch.nodes.size <;> simp [empty, hi]
    cases key <;> simp [slot?, key?, hblock] <;> simp [empty]

theorem key?_addNode : (layout.addNode id node).key? slot =
    if slot < layout.keys.size then layout.key? slot
    else (nodeKeys id node)[slot - layout.keys.size]? := by
  rw [key?, key?, ← Array.getElem?_toList, ← Array.getElem?_toList]
  simp [addNode, List.getElem?_append]

/-- Adding a node gives its values the slots from the first free one on, and moves no
    other value. -/
theorem slot?_addNode (hid : id.index < layout.blocks.size) (hh : layout.histories = []) :
    (layout.addNode id node).slot? key =
      if key.owner? = some id then (offset? node key).map (layout.keys.size + ·)
      else layout.slot? key := by
  have hblock : ∀ id' : NodeId, (layout.addNode id node).blocks[id'.index]?.join =
      if id' = id then
        some ⟨layout.keys.size, node.schema.outputs.length, node.schema.states.length⟩
      else layout.blocks[id'.index]?.join := by
    intro id'
    obtain ⟨n⟩ := id
    obtain ⟨n'⟩ := id'
    by_cases h : n' = n
    · subst h
      simp [addNode, hid]
    · simp [addNode, Ne.symm h, h]
  rcases key with ⟨⟨n, k⟩⟩ | ⟨n, k⟩ | _
  · simp only [slot?, hblock, SlotKey.owner?, offset?]
    split <;> simp_all
  · simp only [slot?, hblock, SlotKey.owner?, offset?]
    split <;> simp_all [Nat.add_assoc]
  · simp [slot?, SlotKey.owner?, addNode, hh]

theorem AllocatesNodes.owner?_of_slot? (h : AllocatesNodes patch order layout)
    (hk : layout.slot? key = some slot) : ∃ id ∈ order, key.owner? = some id := by
  have hmem : key ∈ layout.keys := Array.mem_of_getElem? ((h.slot?_eq_some_iff key slot).1 hk)
  rw [← Array.mem_toList_iff, h.keys_eq, List.mem_flatMap] at hmem
  obtain ⟨id, hid, hkey⟩ := hmem
  exact ⟨id, hid, owner?_of_mem_keysOf hkey⟩

/-- A new node may be added. -/
theorem AllocatesNodes.addNode (h : AllocatesNodes patch order layout)
    (hnode : patch.node? id = some node) (hnew : id ∉ order) :
    AllocatesNodes patch (order ++ [id]) (layout.addNode id node) where
  node_exists id' hid' := by
    rcases List.mem_append.1 hid' with hid' | hid'
    · exact h.node_exists id' hid'
    · exact ⟨node, List.mem_singleton.1 hid' ▸ hnode⟩
  blocks_size := by simp [Layout.addNode, h.blocks_size]
  histories_eq := h.histories_eq
  keys_eq := by simp [Layout.addNode, h.keys_eq, Patch.keysOf_of_node hnode]
  initial_eq := by
    simp [Layout.addNode, h.initial_eq, ← map_initialWord_nodeKeys hnode]
  slot?_eq_some_iff key slot := by
    have hid : id.index < layout.blocks.size :=
      h.blocks_size ▸ (Array.getElem?_eq_some_iff.1 hnode).1
    rw [slot?_addNode hid h.histories_eq, key?_addNode]
    have hold := h.slot?_eq_some_iff key slot
    have hlt : layout.key? slot = some key → slot < layout.keys.size :=
      fun hk => (Array.getElem?_eq_some_iff.1 hk).1
    split
    · next howner =>
      -- A value of the new node had no slot before.
      have hnone : layout.key? slot ≠ some key := by
        intro hk
        obtain ⟨id', hid', howner'⟩ := h.owner?_of_slot? (hold.2 hk)
        exact hnew (Option.some.inj (howner.symm.trans howner') ▸ hid')
      rw [Option.map_eq_some_iff]
      split
      · next hslot =>
        refine iff_of_false ?_ hnone
        rintro ⟨i, _, rfl⟩
        omega
      · next hslot =>
        rw [getElem?_nodeKeys_eq_some_iff]
        constructor
        · rintro ⟨i, hi, rfl⟩
          exact ⟨howner, by simpa using hi⟩
        · rintro ⟨_, hi⟩
          exact ⟨_, hi, by omega⟩
    · next howner =>
      rw [hold]
      split
      · rfl
      · next hslot =>
        rw [getElem?_nodeKeys_eq_some_iff]
        exact iff_of_false (fun hk => hslot (hlt hk)) fun hk => howner hk.1

/-! ## All slots -/

/-- The layout has the slots of a resolution, and no others. -/
structure Allocates (patch : Patch) (r : Resolution) (layout : Layout) : Prop where
  node_exists : ∀ id ∈ r.order, ∃ node, patch.node? id = some node
  keys_eq : layout.keys.toList = r.order.flatMap patch.keysOf ++ r.delayed.map .history
  initial_eq : layout.initial.toList = layout.keys.toList.map patch.initialWord
  slot?_eq_some_iff : ∀ key slot, layout.slot? key = some slot ↔ layout.key? slot = some key

theorem key?_addHistories {outputs : List OutputRef} : (layout.addHistories outputs).key? slot =
    if slot < layout.keys.size then layout.key? slot
    else (outputs[slot - layout.keys.size]?).map .history := by
  rw [key?, key?, ← Array.getElem?_toList, ← Array.getElem?_toList]
  simp [addHistories, List.getElem?_append]

/-- Histories move no value of a node. -/
theorem slot?_addHistories_of_owner? {outputs : List OutputRef} (hkey : key.owner? = some id) :
    (layout.addHistories outputs).slot? key = layout.slot? key := by
  cases key with
  | output source => rfl
  | state id index => rfl
  | history source => cases hkey

theorem idxOf?_eq_some_iff_of_nodup {l : List OutputRef} (hl : l.Nodup) {i : Nat} :
    l.idxOf? source = some i ↔ l[i]? = some source := by
  rw [List.idxOf?_eq_some_iff, List.getElem?_eq_some_iff]
  refine exists_congr fun hi => ⟨And.left, fun h => ⟨h, fun j hj hji => ?_⟩⟩
  have := (hl.getElem_inj_iff).1 (hji.trans h.symm)
  omega

/-- Once all nodes have their slots, histories may be added. -/
theorem AllocatesNodes.addHistories {r : Resolution} (h : AllocatesNodes patch r.order layout)
    (hdelayed : r.delayed.Nodup) : Allocates patch r (layout.addHistories r.delayed) where
  node_exists := h.node_exists
  keys_eq := by simp [Layout.addHistories, h.keys_eq]
  initial_eq := by
    have : r.delayed.map (patch.initialWord ∘ .history) = List.replicate r.delayed.length 0 :=
      List.map_const' ..
    simp [Layout.addHistories, h.initial_eq, this]
  slot?_eq_some_iff key slot := by
    have hold := h.slot?_eq_some_iff key slot
    have hlt : layout.key? slot = some key → slot < layout.keys.size :=
      fun hk => (Array.getElem?_eq_some_iff.1 hk).1
    rw [key?_addHistories]
    cases howner : key.owner? with
    | some id =>
      rw [slot?_addHistories_of_owner? howner, hold]
      split
      · rfl
      · next hslot =>
        refine iff_of_false (fun hk => hslot (hlt hk)) fun hk => ?_
        obtain ⟨source, _, rfl⟩ := Option.map_eq_some_iff.1 hk
        cases howner
    | none =>
      obtain ⟨source, rfl⟩ := SlotKey.owner?_eq_none_iff.1 howner
      -- So far there are values of nodes only.
      have hnone : layout.key? slot ≠ some (.history source) := by
        intro hk
        obtain ⟨_, _, howner'⟩ := h.owner?_of_slot? (hold.2 hk)
        cases howner'
      change (r.delayed.idxOf? source).map (layout.keys.size + ·) = _ ↔ _
      rw [Option.map_eq_some_iff]
      split
      · next hslot =>
        refine iff_of_false ?_ hnone
        rintro ⟨i, _, rfl⟩
        omega
      · next hslot =>
        rw [Option.map_eq_some_iff]
        constructor
        · rintro ⟨i, hi, rfl⟩
          rw [idxOf?_eq_some_iff_of_nodup hdelayed] at hi
          exact ⟨source, by simpa using hi, rfl⟩
        · rintro ⟨s, hs, hss⟩
          obtain rfl := SlotKey.history.inj hss
          exact ⟨_, (idxOf?_eq_some_iff_of_nodup hdelayed).2 hs, by omega⟩

theorem addNodeOf_eq_ok_iff {layout' : Layout} : layout.addNodeOf patch id = .ok layout' ↔
    ∃ node, patch.node? id = some node ∧ layout.addNode id node = layout' := by
  rw [addNodeOf]
  cases patch.node? id <;> simp

theorem AllocatesNodes.foldlM {rest : List NodeId} {layout' : Layout}
    (h : AllocatesNodes patch order layout) (hnodup : (order ++ rest).Nodup)
    (hfold : rest.foldlM (addNodeOf patch) layout = .ok layout') :
    AllocatesNodes patch (order ++ rest) layout' := by
  induction rest generalizing order layout with
  | nil =>
    obtain rfl : layout = layout' := by simpa [pure, Except.pure] using hfold
    simpa using h
  | cons id rest ih =>
    rw [List.foldlM_cons, bind_eq_ok_iff] at hfold
    obtain ⟨_, h₁, hfold⟩ := hfold
    obtain ⟨node, hnode, rfl⟩ := addNodeOf_eq_ok_iff.1 h₁
    have hsplit : order ++ id :: rest = order ++ [id] ++ rest := by simp
    rw [hsplit] at hnodup ⊢
    have hnew : id ∉ order := fun hid =>
      (List.nodup_append.1 (List.nodup_append.1 hnodup).1).2.2 id hid id (by simp) rfl
    exact ih (h.addNode hnode hnew) hnodup hfold

/-- The layout of a resolution that lists nothing twice, be it of this patch or of
    another one. -/
theorem ofResolution_allocates {r : Resolution} (horder : r.order.Nodup)
    (hdelayed : r.delayed.Nodup) (h : ofResolution patch r = .ok layout) :
    Allocates patch r layout := by
  obtain ⟨layout₁, h₁, h⟩ := bind_eq_ok_iff.1 h
  obtain rfl := Except.ok.inj h
  have hnodes := (allocatesNodes_empty patch).foldlM (by simpa using horder) h₁
  exact AllocatesNodes.addHistories (by simpa using hnodes) hdelayed

/-- A resolution is laid out if the patch has its nodes. -/
theorem exists_ofResolution_eq_ok {r : Resolution}
    (h : ∀ id ∈ r.order, ∃ node, patch.node? id = some node) :
    ∃ layout, ofResolution patch r = .ok layout := by
  cases hfold : r.order.foldlM (addNodeOf patch) (empty patch.nodes.size) with
  | ok layout => exact ⟨_, bind_eq_ok_iff.2 ⟨layout, hfold, rfl⟩⟩
  | error e =>
    obtain ⟨id, hid, layout, he⟩ := exists_of_foldlM_eq_error hfold
    obtain ⟨node, hnode⟩ := h id hid
    simp [addNodeOf, hnode] at he

/-! ## Slots of a resolution -/

namespace Allocates

variable {r : Resolution} (h : Allocates patch r layout)
include h

/-- A slot belongs to one thing. -/
theorem slot?_inj {key key' : SlotKey} (hk : layout.slot? key = some slot)
    (hk' : layout.slot? key' = some slot) : key = key' := by
  have hk := (h.slot?_eq_some_iff key slot).1 hk
  have hk' := (h.slot?_eq_some_iff key' slot).1 hk'
  exact Option.some.inj (hk.symm.trans hk')

theorem slot_lt (hk : layout.slot? key = some slot) : slot < layout.size :=
  (Array.getElem?_eq_some_iff.1 ((h.slot?_eq_some_iff key slot).1 hk)).1

theorem initial_size : layout.initial.size = layout.size := by
  simpa [size] using congrArg List.length h.initial_eq

/-- Each slot starts from the initial word of what lies in it. -/
theorem getElem?_initial (hkey : layout.key? slot = some key) :
    layout.initial[slot]? = some (patch.initialWord key) := by
  rw [key?, ← Array.getElem?_toList] at hkey
  rw [← Array.getElem?_toList, h.initial_eq, List.getElem?_map, hkey, Option.map_some]

theorem exists_slot_iff : (∃ slot, layout.slot? key = some slot) ↔ key ∈ layout.keys := by
  simp only [h.slot?_eq_some_iff, key?, Array.mem_iff_getElem?]

theorem mem_keys_iff : key ∈ layout.keys ↔
    (∃ id ∈ r.order, key ∈ patch.keysOf id) ∨ ∃ source ∈ r.delayed, .history source = key := by
  rw [← Array.mem_toList_iff, h.keys_eq, List.mem_append, List.mem_flatMap, List.mem_map]

/-- The outputs of the nodes listed have slots, if they exist. -/
theorem exists_output_slot_iff : (∃ slot, layout.slot? (.output source) = some slot) ↔
    source.node ∈ r.order ∧ patch.containsOutput source := by
  rw [h.exists_slot_iff, h.mem_keys_iff, Patch.containsOutput_iff]
  constructor
  · rintro (⟨id, hid, hk⟩ | ⟨_, _, hk⟩)
    · obtain ⟨node, hnode, howner, hoff⟩ := mem_keysOf_iff.1 hk
      obtain rfl : source.node = id := Option.some.inj howner
      exact ⟨hid, node, hnode, by simpa [offset?] using hoff⟩
    · cases hk
  · rintro ⟨hid, node, hnode, hlt⟩
    exact .inl ⟨_, hid, mem_keysOf_iff.2 ⟨node, hnode, rfl, by simp [offset?, hlt]⟩⟩

/-- The state cells of the nodes listed have slots. -/
theorem exists_state_slot_iff : (∃ slot, layout.slot? (.state id index) = some slot) ↔
    id ∈ r.order ∧ ∃ node, patch.node? id = some node ∧ index < node.schema.states.length := by
  rw [h.exists_slot_iff, h.mem_keys_iff]
  constructor
  · rintro (⟨id', hid, hk⟩ | ⟨_, _, hk⟩)
    · obtain ⟨node, hnode, howner, hoff⟩ := mem_keysOf_iff.1 hk
      obtain rfl : id = id' := Option.some.inj howner
      exact ⟨hid, node, hnode, by simpa [offset?] using hoff⟩
    · cases hk
  · rintro ⟨hid, node, hnode, hlt⟩
    exact .inl ⟨id, hid, mem_keysOf_iff.2 ⟨node, hnode, rfl, by simp [offset?, hlt]⟩⟩

/-- The outputs read as of the previous tick have histories. -/
theorem exists_history_slot_iff : (∃ slot, layout.slot? (.history source) = some slot) ↔
    source ∈ r.delayed := by
  rw [h.exists_slot_iff, h.mem_keys_iff]
  constructor
  · rintro (⟨id, _, hk⟩ | ⟨s, hs, hk⟩)
    · cases owner?_of_mem_keysOf hk
    · exact SlotKey.history.inj hk ▸ hs
  · exact fun hs => .inr ⟨source, hs, rfl⟩

end Allocates

end Layout

end SignalGraph
