import SignalGraph.Proofs.Patch.Editing
import SignalGraph.Proofs.Plan.Compile

/-!
# Initial values of state

State is kept in signal words, and a value that does not fit its type would come back as
another one, or as no number at all. So units are refused whose defaults do not fit, and so
are other values for the state of a node. Whatever calls a patch is made by, refused ones
included, the values fit that its state starts from (`Patch.StatesFit`), and with them the
words that its engines start from.

All calls keep it that way but one: a host input starts from whatever word it is given
(`Patch.Call.keepsFit_iff`). So these words are part of what is said of a patch that calls
have made (`Patch.Made`), and all values fit exactly as long as the words are finite
(`Patch.values_fit_iff`).
-/

namespace SignalGraph

variable {ε α : Type} {schema : Schema} {node : Node}

/-- The defaults of all state cells fit their types. -/
def Schema.DefaultsFit (schema : Schema) : Prop :=
  ∀ cell ∈ schema.states, cell.default.fits cell.type

/-- What has been checked has defaults that fit. -/
theorem Schema.defaultsFit_of_ofDeclaration {d : Declaration} (h : ofDeclaration d = .ok schema) :
    schema.DefaultsFit := by
  obtain ⟨hd, hs⟩ := of_ofDeclaration_eq_ok h
  rw [DefaultsFit, hs.states_eq]
  exact hd.default_fits

namespace Node

/-- All state cells start from values of their types. -/
def StatesFit (node : Node) : Prop :=
  ∀ i (h : i < node.schema.states.length), node.states[i].fits node.schema.states[i].type

theorem statesFit_ofSchema (h : schema.DefaultsFit) : (ofSchema schema).StatesFit := by
  intro i hi
  simpa [ofSchema] using h _ (List.getElem_mem hi)

theorem StatesFit.set (h : node.StatesFit) {index : Nat}
    (hindex : index < node.schema.states.length) {value : StateValue}
    (hvalue : value.fits node.schema.states[index].type) :
    StatesFit { node with states := node.states.set index value } := by
  intro i hi
  by_cases hne : index = i
  · subst hne
    simpa using hvalue
  · simpa [Vector.getElem_set_ne _ _ hne] using h i hi

theorem StatesFit.rewire (h : node.StatesFit)
    (inputs : Vector Binding node.schema.inputs.length) : StatesFit { node with inputs } := h

/-- The only cell of a host input is for a signal value. -/
theorem statesFit_external_iff {initial : Binary32} :
    (external initial).StatesFit ↔ initial.isFinite := by
  refine ⟨fun h => h 0 Nat.zero_lt_one, fun h i hi => ?_⟩
  obtain rfl : i = 0 := Nat.lt_one_iff.1 hi
  exact h

end Node

namespace Patch

open Edit

variable {patch : Patch} {id : NodeId} {index : Nat} {value : StateValue}

/-! ## Calls -/

/-- All state of all nodes starts from values of its type. -/
def StatesFit (patch : Patch) : Prop := ∀ id node, patch.node? id = some node → node.StatesFit

theorem StatesFit.push (h : patch.StatesFit) (hnode : node.StatesFit) :
    (patch.push node).StatesFit := by
  intro id node' hnode'
  rw [node?_push] at hnode'
  split at hnode'
  · exact Option.some.inj hnode' ▸ hnode
  · exact h id node' hnode'

theorem StatesFit.set (h : patch.StatesFit) (hnode : node.StatesFit) (id : NodeId) :
    StatesFit { patch with nodes := patch.nodes.setIfInBounds id.index node } := by
  intro id' node' hnode'
  change (patch.nodes.setIfInBounds id.index node)[id'.index]? = some node' at hnode'
  rw [Array.getElem?_setIfInBounds] at hnode'
  split at hnode'
  · split at hnode'
    · exact Option.some.inj hnode' ▸ hnode
    · cases hnode'
  · exact h id' node' hnode'

/-- Whatever comes of it, all state is as it should be afterwards if it was before. -/
def KeepsFit (x : Edit ε α) : Prop := Ensures StatesFit (fun _ patch' => patch'.StatesFit) x

theorem keepsFit_insert (h : schema.DefaultsFit) : KeepsFit (insert schema : Edit ε NodeId) :=
  fun _ hfit => hfit.push (Node.statesFit_ofSchema h)

/-- A host input starts from what it is given, unchecked. -/
theorem keepsFit_external_iff {initial : Binary32} :
    KeepsFit (external initial) ↔ initial.isFinite := by
  rw [← Node.statesFit_external_iff]
  constructor
  · intro h
    have hempty : StatesFit (after (external initial) {}) := h {} nofun
    rw [after_external] at hempty
    exact hempty ⟨0⟩ _ rfl
  · intro h patch hfit
    rw [after_external]
    exact hfit.push h

/-- The parts of calls store only values that fit, host inputs apart. -/
theorem honours_statesFit : Honours StatesFit (fun _ patch' => patch'.StatesFit)
    (fun _ => True) (·.isFinite) where
  refl h := h
  trans _ h := h
  pre _ h := h
  fresh _ _ := trivial
  insert hschema := keepsFit_insert (Schema.defaultsFit_of_ofDeclaration hschema)
  rewire _ h hnode inputs _ hfit := hfit.set ((h _ _ hnode).rewire inputs) _
  restate _ h hnode _ hindex _ hvalue _ hfit :=
    hfit.set ((h _ _ hnode).set hindex hvalue) _
  external _ hword := keepsFit_external_iff.2 hword

/-- A call keeps all state as it should be, exactly if it gives no host input a word that is
    not finite. -/
theorem Call.keepsFit_iff (call : Call ε α) :
    KeepsFit call.edit ↔ ∀ word ∈ call.given, word.isFinite := by
  refine ⟨fun h => ?_, honours_statesFit.edit call fun _ _ => trivial⟩
  cases call with
  | external initial =>
    rintro word (_ | ⟨_, ⟨⟩⟩)
    exact keepsFit_external_iff.1 h
  | _ => nofun

/-- The patch has been made by calls, refused ones included, which have given these words
    to host inputs, the last one first. -/
inductive Made : List Binary32 → Patch → Prop
  | empty : Made [] {}
  | insert {given : List Binary32} {between : Patch} {unit : Declaration} {schema : Schema} :
      Made given between → Schema.ofDeclaration unit = .ok schema →
      Made given ((insert schema : Edit GraphError NodeId).after between)
  | call {given : List Binary32} {between : Patch} {ε α : Type} (call : Call ε α) :
      Made given between → Made (call.given ++ given) (call.edit.after between)

theorem Made.statesFit {given : List Binary32} (h : Made given patch)
    (hgiven : ∀ word ∈ given, word.isFinite) : patch.StatesFit := by
  induction h with
  | empty => nofun
  | insert _ hschema ih =>
    exact keepsFit_insert (Schema.defaultsFit_of_ofDeclaration hschema) _ (ih hgiven)
  | call call _ ih =>
    obtain ⟨hcall, hearlier⟩ := List.forall_mem_append.1 hgiven
    exact call.keepsFit_iff.2 hcall _ (ih hearlier)

theorem made_withExternal {given : List Binary32} (h : Made given patch) (word : Binary32) :
    Made (word :: given) (patch.withExternal word) :=
  after_external word patch ▸ h.call (.external word)

theorem StatesFit.of_withExternal {word : Binary32} (h : (patch.withExternal word).StatesFit) :
    word.isFinite ∧ patch.StatesFit := by
  refine ⟨Node.statesFit_external_iff.1 (h _ _ (node?_push_self patch _)), fun id node hnode => ?_⟩
  exact h id node ((extends_withExternal patch word).node?_eq id node hnode)

/-- Any words can be given to host inputs, and stay there. -/
theorem exists_made_of_given (given : List Binary32) :
    ∃ patch, Made given patch ∧ (patch.StatesFit → ∀ word ∈ given, word.isFinite) := by
  induction given with
  | nil => exact ⟨{}, .empty, nofun⟩
  | cons word given ih =>
    obtain ⟨patch, hmade, hfinite⟩ := ih
    refine ⟨_, made_withExternal hmade word, fun hfit => ?_⟩
    obtain ⟨hword, hfit⟩ := hfit.of_withExternal
    exact List.forall_mem_cons.2 ⟨hword, hfinite hfit⟩

/-! ## What engines start from -/

/-- The state cell of an index. -/
def cell? (patch : Patch) (id : NodeId) (index : Nat) : Option StateCell :=
  (patch.schema? id).bind (·.states[index]?)

theorem cell?_of_node (hnode : patch.node? id = some node) :
    patch.cell? id index = node.schema.states[index]? := by
  rw [cell?, schema?, hnode]
  rfl

theorem statesFit_iff : patch.StatesFit ↔ ∀ id index cell, patch.cell? id index = some cell →
    ∃ value, patch.stateValue? id index = some value ∧ value.fits cell.type := by
  constructor
  · intro h id index cell hcell
    obtain ⟨schema, hschema, hcell⟩ := Option.bind_eq_some_iff.1 hcell
    obtain ⟨node, hnode, rfl⟩ := Option.map_eq_some_iff.1 hschema
    obtain ⟨hindex, rfl⟩ := List.getElem?_eq_some_iff.1 hcell
    exact ⟨node.states[index], by simp [stateValue?, hnode, hindex], h id node hnode index hindex⟩
  · intro h id node hnode index hindex
    obtain ⟨value, hvalue, hfits⟩ := h id index node.schema.states[index] <| by
      rw [cell?_of_node hnode, List.getElem?_eq_getElem hindex]
    obtain rfl : node.states[index] = value := by simpa [stateValue?, hnode, hindex] using hvalue
    exact hfits

theorem initialWord_state (hvalue : patch.stateValue? id index = some value) :
    patch.initialWord (.state id index) = value.toWord := by
  rw [initialWord, hvalue]
  rfl

/-- All state that has a slot has a cell. -/
theorem exists_cell_of_key? {r : Resolution} {layout : Layout} (ha : layout.Allocates patch r)
    {slot : Nat} (hkey : layout.key? slot = some (.state id index)) :
    ∃ cell, patch.cell? id index = some cell := by
  obtain ⟨-, node, hnode, hindex⟩ :=
    ha.exists_state_slot_iff.1 ⟨slot, (ha.slot?_eq_some_iff _ slot).2 hkey⟩
  exact ⟨_, (cell?_of_node hnode).trans (List.getElem?_eq_getElem hindex)⟩

/-- If all state starts from values of its type, then slots for state start from words that
    are read as such values. -/
theorem StatesFit.exists_initial (h : patch.StatesFit) {r : Resolution} {layout : Layout}
    (ha : layout.Allocates patch r) {slot : Nat}
    (hkey : layout.key? slot = some (.state id index)) :
    ∃ cell word, patch.cell? id index = some cell ∧ layout.initial[slot]? = some word ∧
      (StateValue.ofWord word cell.type).fits cell.type := by
  obtain ⟨cell, hcell⟩ := exists_cell_of_key? ha hkey
  obtain ⟨value, hvalue, hfits⟩ := statesFit_iff.1 h id index cell hcell
  refine ⟨cell, value.toWord, hcell, ?_, by rwa [StateValue.ofWord_toWord hfits]⟩
  rw [← initialWord_state hvalue]
  exact ha.getElem?_initial hkey

/-- In all patches that calls make, all state starts from values of its type, and so do the
    slots of their plans, exactly as long as host inputs are given finite words. -/
theorem values_fit_iff (given : List Binary32) :
    (∀ patch, Made given patch →
      (∀ id index cell, patch.cell? id index = some cell →
        ∃ value, patch.stateValue? id index = some value ∧ value.fits cell.type) ∧
      ∀ roots plan, Plan.compile patch roots = .ok plan →
        ∀ slot id index, plan.layout.key? slot = some (.state id index) →
          ∃ cell word, patch.cell? id index = some cell ∧
            plan.layout.initial[slot]? = some word ∧
            (StateValue.ofWord word cell.type).fits cell.type) ↔
    ∀ word ∈ given, word.isFinite := by
  constructor
  · intro h
    obtain ⟨patch, hmade, hfinite⟩ := exists_made_of_given given
    exact hfinite (statesFit_iff.2 (h patch hmade).1)
  · intro hgiven patch hmade
    have hfit := hmade.statesFit hgiven
    refine ⟨statesFit_iff.1 hfit, fun roots plan hplan slot id index hkey => ?_⟩
    obtain ⟨r, hc⟩ := Plan.compile_eq_ok hplan
    exact hfit.exists_initial hc.allocates hkey

/-- A host input may be given infinity, which is no value of its state. The plan for it
    starts from infinity. -/
theorem not_values_fit_infinity : ∃ patch cell plan slot,
    Made [.signedInfinity false] patch ∧ patch.cell? ⟨0⟩ 0 = some cell ∧
      patch.stateValue? ⟨0⟩ 0 = some (.float (.signedInfinity false)) ∧
      (StateValue.float (.signedInfinity false)).fits cell.type = false ∧
      Plan.compile patch [⟨⟨0⟩, 0⟩] = .ok plan ∧
      plan.layout.key? slot = some (.state ⟨0⟩ 0) ∧
      plan.layout.initial[slot]? = some (.signedInfinity false) := by
  let patch : Patch := withExternal {} (.signedInfinity false)
  have hresolves : Resolution.ofPatch patch [⟨⟨0⟩, 0⟩] = .ok ⟨[⟨0⟩], []⟩ := by decide +kernel
  obtain ⟨plan, hplan⟩ := Plan.exists_compile_eq_ok hresolves
  obtain ⟨_, hc⟩ := Plan.compile_eq_ok hplan
  obtain ⟨slot, hslot⟩ := hc.allocates.exists_state_slot_iff.2
    ⟨(hc.resolves.mem_order_iff ⟨0⟩).2 (.root List.mem_cons_self), _, rfl, Nat.zero_lt_one⟩
  have hkey := (hc.allocates.slot?_eq_some_iff _ slot).1 hslot
  exact ⟨patch, _, plan, slot, made_withExternal .empty _, rfl, rfl, rfl, hplan, hkey,
    hc.allocates.getElem?_initial hkey⟩

end Patch

end SignalGraph
