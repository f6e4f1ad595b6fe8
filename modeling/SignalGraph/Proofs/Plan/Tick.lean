import SignalGraph.Proofs.Plan.Compile

/-!
# Ticks

A tick goes through the nodes one by one and changes slots in place. Each key has a
slot of its own, so this can be said in keys: a node changes nothing but its own
values (`Evaluator.look_updateNode_of_owner?_ne`), and in the order of a resolution it
finds the final values of what it reads, the old ones of what it keeps, and histories
as they were before the tick.

Histories are the outputs of the tick before, as long as they are so to begin with
(`Plan.Settled`). Hence the values before and after a tick solve the equations of the
patch, for all nodes listed (`Plan.Compiled.tick_updates`).
-/

namespace SignalGraph

namespace Evaluator

variable {patch : Patch} {r : Resolution} {layout : Layout} {globals : Globals}
  {values : Array Binary32} {word : Binary32} {key key' : SlotKey} {id : NodeId} {node : Node}
  {output source : OutputRef}

/-! ## Looking and putting -/

theorem size_put : (put layout values key word).size = values.size := by
  rw [put]
  cases layout.slot? key <;> simp

/-- What is put under a key that has a slot is found there. -/
theorem look_put_self (ha : layout.Allocates patch r) (hsize : values.size = layout.size)
    (hkey : ∃ slot, layout.slot? key = some slot) :
    look layout (put layout values key word) key = word := by
  obtain ⟨slot, hslot⟩ := hkey
  have hlt : slot < values.size := hsize ▸ ha.slot_lt hslot
  simp [look, put, hslot, hlt]

/-- Nothing else is found anywhere else. -/
theorem look_put_of_ne (ha : layout.Allocates patch r) (hne : key' ≠ key) :
    look layout (put layout values key word) key' = look layout values key' := by
  cases hslot : layout.slot? key with
  | none => simp [put, hslot]
  | some slot =>
    cases hslot' : layout.slot? key' with
    | none => simp [look, hslot']
    | some slot' =>
      have hne : slot ≠ slot' := by
        rintro rfl
        exact hne (ha.slot?_inj hslot' hslot)
      simp [look, put, hslot, hslot', Array.getElem?_setIfInBounds, hne]

/-- At the beginning each key that has a slot holds its initial value. -/
theorem look_initial (ha : layout.Allocates patch r)
    (hkey : ∃ slot, layout.slot? key = some slot) :
    look layout layout.initial key = patch.initialWord key := by
  obtain ⟨slot, hslot⟩ := hkey
  have hinitial := ha.getElem?_initial ((ha.slot?_eq_some_iff key slot).1 hslot)
  simp [look, hslot, hinitial]

/-! ## Updates of nodes -/

/-- Puts the result at a place of a frame under its key, if it is one. -/
def store (layout : Layout) (id : NodeId) (frame : Frame) (values : Array Binary32)
    (a : node.Argument × Nat) : Array Binary32 :=
  match resultKey? id a.1 with
  | some key => put layout values key (frame.get a.2)
  | none => values

theorem updateNode_eq (hnode : patch.node? id = some node) :
    updateNode patch layout globals values id =
      node.schema.arguments.zipIdx.foldl
        (store layout id
          (node.schema.update
            (.ofList (node.schema.arguments.map (argument layout globals values id node)))))
        values := by
  simp only [updateNode, hnode]
  rfl

theorem size_store {frame : Frame} (a : node.Argument × Nat) :
    (store layout id frame values a).size = values.size := by
  rw [store]
  cases resultKey? id a.1 <;> simp [size_put]

theorem size_foldl_store {frame : Frame} (as : List (node.Argument × Nat)) :
    (as.foldl (store layout id frame) values).size = values.size := by
  induction as generalizing values with
  | nil => rfl
  | cons a as ih => rw [List.foldl_cons, ih, size_store]

theorem size_updateNode : (updateNode patch layout globals values id).size = values.size := by
  cases hnode : patch.node? id with
  | none => simp [updateNode, hnode]
  | some node => rw [updateNode_eq hnode, size_foldl_store]

/-- No two arguments have the same key. -/
theorem resultKey?_inj {a b : node.Argument} (ha : resultKey? id a = some key)
    (hb : resultKey? id b = some key) : a = b := by
  cases a <;> cases b <;> grind [resultKey?, NodeId.output]

theorem look_foldl_store_of_ne (hl : layout.Allocates patch r) {frame : Frame}
    {as : List (node.Argument × Nat)} (h : ∀ a ∈ as, resultKey? id a.1 ≠ some key) :
    look layout (as.foldl (store layout id frame) values) key = look layout values key := by
  induction as generalizing values with
  | nil => rfl
  | cons a as ih =>
    rw [List.foldl_cons, ih fun b hb => h b (List.mem_cons_of_mem a hb), store]
    have ha := h a List.mem_cons_self
    cases hkey : resultKey? id a.1 with
    | none => rfl
    | some key' => exact look_put_of_ne hl fun hne => ha (hne ▸ hkey)

/-- Each result is found under its key, as no other argument is put there. -/
theorem look_foldl_store (hl : layout.Allocates patch r) (hsize : values.size = layout.size)
    {frame : Frame} {as : List node.Argument} (hnodup : as.Nodup) {a : node.Argument}
    {place : Nat} (hplace : as[place]? = some a) (ha : resultKey? id a = some key)
    (hkey : ∃ slot, layout.slot? key = some slot) (first : Nat) :
    look layout ((as.zipIdx first).foldl (store layout id frame) values) key =
      frame.get (first + place) := by
  induction as generalizing values first place with
  | nil => simp at hplace
  | cons b as ih =>
    obtain ⟨hb, hnodup⟩ := List.nodup_cons.1 hnodup
    rw [List.zipIdx_cons, List.foldl_cons]
    cases place with
    | zero =>
      obtain rfl : b = a := by simpa using hplace
      rw [look_foldl_store_of_ne hl fun c hc hkeyc => ?_]
      · simp only [store, ha]
        exact look_put_self hl hsize hkey
      · exact hb (resultKey?_inj hkeyc ha ▸ List.fst_mem_of_mem_zipIdx hc)
    | succ place =>
      rw [ih ((size_store _).trans hsize) hnodup hplace, Nat.add_right_comm, Nat.add_assoc]

/-- A node leaves alone what is not its own. -/
theorem look_updateNode_of_owner?_ne (hl : layout.Allocates patch r)
    (hkey : key.owner? ≠ some id) :
    look layout (updateNode patch layout globals values id) key = look layout values key := by
  cases hnode : patch.node? id with
  | none => simp [updateNode, hnode]
  | some node =>
    rw [updateNode_eq hnode]
    exact look_foldl_store_of_ne hl fun a _ ha => hkey (Patch.owner?_of_resultKey? ha)

/-- After its update a node holds what the update left in its frame. -/
theorem look_updateNode (hl : layout.Allocates patch r) (hsize : values.size = layout.size)
    (hid : id ∈ r.order) (hnode : patch.node? id = some node) {a : node.Argument} {place : Nat}
    (hplace : node.schema.arguments[place]? = some a) (ha : resultKey? id a = some key) :
    look layout (updateNode patch layout globals values id) key =
      (node.schema.update
        (.ofList (node.schema.arguments.map (argument layout globals values id node)))).get
          place := by
  have hkey : ∃ slot, layout.slot? key = some slot := hl.exists_slot_iff.2 <|
    hl.mem_keys_iff.2 (.inl ⟨id, hid, Patch.mem_keysOf_of_resultKey? hnode ha⟩)
  rw [updateNode_eq hnode,
    look_foldl_store hl hsize node.schema.arguments_nodup hplace ha hkey 0, Nat.zero_add]

theorem size_foldl_updateNode (ids : List NodeId) :
    (ids.foldl (updateNode patch layout globals) values).size = values.size := by
  induction ids generalizing values with
  | nil => rfl
  | cons id ids ih => rw [List.foldl_cons, ih, size_updateNode]

/-- Nodes leave alone what is not their own. -/
theorem look_foldl_updateNode_of_owner?_ne (hl : layout.Allocates patch r) {ids : List NodeId}
    (h : ∀ id ∈ ids, key.owner? ≠ some id) :
    look layout (ids.foldl (updateNode patch layout globals) values) key =
      look layout values key := by
  induction ids generalizing values with
  | nil => rfl
  | cons id ids ih =>
    rw [List.foldl_cons, ih fun id' hid' => h id' (List.mem_cons_of_mem id hid'),
      look_updateNode_of_owner?_ne hl (h id List.mem_cons_self)]

/-! ## Histories -/

theorem size_remember : (remember layout values output).size = values.size := by
  rw [remember]
  split <;> simp

theorem size_foldl_remember (outputs : List OutputRef) :
    (outputs.foldl (remember layout) values).size = values.size := by
  induction outputs generalizing values with
  | nil => rfl
  | cons output outputs ih => rw [List.foldl_cons, ih, size_remember]

/-- An output that has a slot is put into its history. -/
theorem remember_eq (h : ∃ slot, layout.slot? (.output output) = some slot) :
    remember layout values output =
      put layout values (.history output) (look layout values (.output output)) := by
  obtain ⟨slot, hslot⟩ := h
  cases htarget : layout.slot? (.history output) <;> simp [remember, put, look, hslot, htarget]

/-- Remembering outputs changes histories only. -/
theorem look_foldl_remember_of_ne (hl : layout.Allocates patch r) {outputs : List OutputRef}
    (houtputs : ∀ output ∈ outputs, ∃ slot, layout.slot? (.output output) = some slot)
    (h : ∀ output ∈ outputs, key ≠ .history output) :
    look layout (outputs.foldl (remember layout) values) key = look layout values key := by
  induction outputs generalizing values with
  | nil => rfl
  | cons output outputs ih =>
    rw [List.foldl_cons, ih (fun o ho => houtputs o (List.mem_cons_of_mem output ho))
        fun o ho => h o (List.mem_cons_of_mem output ho),
      remember_eq (houtputs output List.mem_cons_self),
      look_put_of_ne hl (h output List.mem_cons_self)]

/-- What is remembered of an output is what it is. -/
theorem look_foldl_remember (hl : layout.Allocates patch r) (hsize : values.size = layout.size)
    {outputs : List OutputRef}
    (houtputs : ∀ output ∈ outputs, ∃ slot, layout.slot? (.output output) = some slot)
    (hsource : source ∈ outputs) (hhistory : ∃ slot, layout.slot? (.history source) = some slot) :
    look layout (outputs.foldl (remember layout) values) (.history source) =
      look layout values (.output source) := by
  induction outputs generalizing values with
  | nil => simp at hsource
  | cons output outputs ih =>
    have houtput := houtputs output List.mem_cons_self
    have hrest := fun o ho => houtputs o (List.mem_cons_of_mem output ho)
    rw [List.foldl_cons]
    -- It may be remembered again, but the output does not change in between.
    by_cases hmem : source ∈ outputs
    · rw [ih (size_remember.trans hsize) hrest hmem, remember_eq houtput,
        look_put_of_ne hl (by simp)]
    · obtain rfl : source = output := (List.mem_cons.1 hsource).resolve_right hmem
      have hne : ∀ o ∈ outputs, SlotKey.history source ≠ .history o := by
        rintro o ho ⟨⟩
        exact hmem ho
      rw [look_foldl_remember_of_ne hl hrest hne, remember_eq houtput,
        look_put_self hl hsize hhistory]

end Evaluator

/-! ## Runs of a plan -/

namespace Plan

open Evaluator

variable {patch : Patch} {roots : List OutputRef} {r : Resolution} {plan : Plan}
  {globals : Globals} {values : Array Binary32} {word : Binary32} {key : SlotKey} {id : NodeId}
  {source : OutputRef}

/-- Between ticks, histories are as the outputs. -/
structure Settled (plan : Plan) (r : Resolution) (values : Array Binary32) : Prop where
  size_eq : values.size = plan.layout.size
  history_eq : ∀ source ∈ r.delayed,
    look plan.layout values (.history source) = look plan.layout values (.output source)

namespace Compiled

variable (h : Compiled patch roots r plan)
include h

/-- All values of the nodes that contribute have slots. -/
theorem exists_slot (hid : patch.Reachable roots id) (hkey : key ∈ patch.keysOf id) :
    ∃ slot, plan.layout.slot? key = some slot :=
  h.allocates.exists_slot_iff.2 <|
    h.allocates.mem_keys_iff.2 (.inl ⟨id, (h.resolves.mem_order_iff id).2 hid, hkey⟩)

/-- Only nodes that contribute have values with slots. -/
theorem reachable_of_slot? {slot : Nat} (hslot : plan.layout.slot? key = some slot) :
    (∃ id, patch.Reachable roots id ∧ key ∈ patch.keysOf id) ∨
      ∃ source ∈ r.delayed, .history source = key :=
  (h.allocates.mem_keys_iff.1 (h.allocates.exists_slot_iff.1 ⟨slot, hslot⟩)).imp_left
    fun ⟨id, hid, hkey⟩ => ⟨id, (h.resolves.mem_order_iff id).1 hid, hkey⟩

/-- What is read with a delay is an output of a node that contributes. -/
theorem source_of_mem_delayed (hsource : source ∈ r.delayed) :
    patch.Reachable roots source.node ∧ .output source ∈ patch.keysOf source.node := by
  obtain ⟨id, hid, hrecalls⟩ := (h.resolves.mem_delayed_iff source).1 hsource
  exact ⟨hid.of_recalls hrecalls,
    Patch.output_mem_keysOf (h.resolvable.source_exists id hid _ source hrecalls rfl)⟩

theorem exists_output_slot_of_mem_delayed (hsource : source ∈ r.delayed) :
    ∃ slot, plan.layout.slot? (.output source) = some slot :=
  have hsource := h.source_of_mem_delayed hsource
  h.exists_slot hsource.1 hsource.2

/-- A tick leaves outputs and state as the nodes leave them. -/
theorem look_tick (hkey : ∀ source, key ≠ .history source) :
    look plan.layout (tick patch r plan.layout globals values) key =
      look plan.layout (r.order.foldl (updateNode patch plan.layout globals) values) key :=
  look_foldl_remember_of_ne h.allocates (fun _ => h.exists_output_slot_of_mem_delayed)
    fun source _ => hkey source

theorem settled_initial : plan.Settled r plan.layout.initial where
  size_eq := h.allocates.initial_size
  history_eq source hsource := by
    rw [look_initial h.allocates (h.allocates.exists_history_slot_iff.2 hsource),
      look_initial h.allocates (h.exists_output_slot_of_mem_delayed hsource)]
    rfl

/-- Histories are as the outputs after each tick, whatever they were before. -/
theorem settled_tick (hsize : values.size = plan.layout.size) :
    plan.Settled r (tick patch r plan.layout globals values) where
  size_eq := by rw [tick, size_foldl_remember, size_foldl_updateNode, hsize]
  history_eq source hsource :=
    (look_foldl_remember h.allocates ((size_foldl_updateNode _).trans hsize)
        (fun _ => h.exists_output_slot_of_mem_delayed) hsource
        (h.allocates.exists_history_slot_iff.2 hsource)).trans
      (h.look_tick (by simp)).symm

/-- State may be set between ticks. -/
theorem settled_put (hs : plan.Settled r values) {index : Nat} :
    plan.Settled r (put plan.layout values (.state id index) word) where
  size_eq := size_put.trans hs.size_eq
  history_eq source hsource := by
    rw [look_put_of_ne h.allocates (by simp), look_put_of_ne h.allocates (by simp),
      hs.history_eq source hsource]

/-- Once a node has been updated its values are final. -/
theorem look_tick_of_mem {before after : List NodeId} (horder : r.order = before ++ after)
    (hid : id ∈ before) (hkey : key.owner? = some id) :
    look plan.layout (tick patch r plan.layout globals values) key =
      look plan.layout (before.foldl (updateNode patch plan.layout globals) values) key := by
  have hnodup := h.resolves.order_nodup
  rw [horder, List.nodup_append] at hnodup
  rw [h.look_tick (by rintro source rfl; cases hkey), horder, List.foldl_append]
  refine look_foldl_updateNode_of_owner?_ne h.allocates fun id' hid' hkey' => ?_
  exact hnodup.2.2 id hid id' hid' (Option.some.inj (hkey.symm.trans hkey'))

/-- Until a node is updated its values are as they were. -/
theorem look_foldl_of_not_mem {before after : List NodeId}
    (horder : r.order = before ++ id :: after) (hkey : key.owner? = some id) :
    look plan.layout (before.foldl (updateNode patch plan.layout globals) values) key =
      look plan.layout values key := by
  have hnodup := h.resolves.order_nodup
  rw [horder, List.nodup_append] at hnodup
  refine look_foldl_updateNode_of_owner?_ne h.allocates fun id' hid' hkey' => ?_
  exact hnodup.2.2 id' hid' id List.mem_cons_self (Option.some.inj (hkey'.symm.trans hkey))

/-- When its turn comes, a node finds the new values of what it reads, and the old ones
    of what it recalls and keeps. -/
theorem argument_eq (hs : plan.Settled r values) {before after : List NodeId} {node : Node}
    (horder : r.order = before ++ id :: after) (hnode : patch.node? id = some node)
    (a : node.Argument) :
    argument plan.layout globals
        (before.foldl (updateNode patch plan.layout globals) values) id node a =
      node.argument globals (look plan.layout values)
        (look plan.layout (tick patch r plan.layout globals values)) id a := by
  cases a with
  | input i =>
    have hbinds := Patch.binds_get hnode i
    cases hb : node.inputs.get i with
    | constant value => simp only [argument, Node.argument, hb]
    | output source =>
      rw [hb] at hbinds
      simp only [argument, Node.argument, hb]
      -- The source has been updated before, and will not be updated again.
      have hsource := h.resolves.order_inOrder before id after horder _ ⟨source, hbinds, rfl⟩
      exact (h.look_tick_of_mem horder hsource rfl).symm
    | feedback source =>
      rw [hb] at hbinds
      simp only [argument, Node.argument, hb]
      -- A history belongs to no node: it is still what the last tick left there.
      have hid : patch.Reachable roots id := (h.resolves.mem_order_iff id).1 (by simp [horder])
      rw [look_foldl_updateNode_of_owner?_ne h.allocates (by simp [SlotKey.owner?])]
      exact hs.history_eq source ((h.resolves.mem_delayed_iff source).2 ⟨id, hid, hbinds⟩)
  | output i =>
    cases hacc : (node.schema.outputs.get i).access with
    | write => simp only [argument, Node.argument, hacc]
    | readWrite =>
      simp only [argument, Node.argument, hacc]
      exact h.look_foldl_of_not_mem horder rfl
  | state i => exact h.look_foldl_of_not_mem horder rfl
  | global which => rfl

/-- The values before and after a tick solve the equations of all nodes that
    contribute. -/
theorem tick_updates (hs : plan.Settled r values) (hid : patch.Reachable roots id) :
    patch.Updates globals (look plan.layout values)
      (look plan.layout (tick patch r plan.layout globals values)) id := by
  obtain ⟨node, hnode⟩ := h.resolvable.exists_node hid
  refine ⟨node, hnode, fun a place hplace key hkey => ?_⟩
  have hmem := (h.resolves.mem_order_iff id).2 hid
  obtain ⟨before, after, horder⟩ := List.append_of_mem hmem
  have hsplit : r.order = (before ++ [id]) ++ after := by simp [horder]
  have hsize : (before.foldl (updateNode patch plan.layout globals) values).size
      = plan.layout.size := (size_foldl_updateNode before).trans hs.size_eq
  rw [h.look_tick_of_mem hsplit (by simp) (Patch.owner?_of_resultKey? hkey), List.foldl_append,
    List.foldl_cons, List.foldl_nil, look_updateNode h.allocates hsize hmem hnode hplace hkey,
    Node.answer, List.map_congr_left fun a _ => h.argument_eq hs horder hnode a]

end Compiled

end Plan

end SignalGraph
