import SignalGraph.Catalog.Registry
import SignalGraph.Proofs.Unit.Declaration

/-!
# Calls that are refused

A host builds a patch call by call, and a call may be refused: its unit is declared
wrongly, its node or its port does not exist, its value does not fit. A call that is
refused should be as if it had not been made.

* `Edit.Atomic` says so of a program on patches. It holds of programs that only look
  at the patch before they change it at one go (`Edit.Atomic.bind`), and of those that
  are never refused (`Edit.Total.atomic`): so it does for all functions that add a node
  of the catalog and then wire it up, as their nodes have all that is wired
  (`Patch.total_wire`).
* `Patch.Call.keeps_patch_iff`: all calls are like that but one. A constant is added
  before its value is looked at, and stays there if the value is refused.
-/

namespace SignalGraph

theorem Schema.exists_ofDeclaration_eq_ok {d : Declaration} (h : (ofDeclaration d).isOk) :
    ∃ s, ofDeclaration d = .ok s := by
  cases hd : ofDeclaration d with
  | ok s => exact ⟨s, rfl⟩
  | error fault => simp [hd, Except.isOk, Except.toBool] at h

/-- The unit of constants, checked. -/
def Schema.constant : Schema where
  unit := "constant"
  inputs := []
  outputs := [{ name := "output" }]
  states := [.float "value" 0]
  arguments := [.state 0, .output 0]
  update := fun frame => frame.set 1 (frame.get 0)
  arguments_nodup := by decide
  arguments_length := by decide
  input_mem := by decide
  output_mem := by decide
  state_mem := by decide

theorem Schema.ofDeclaration_constant : ofDeclaration Catalog.constant = .ok constant := by rfl

/-- A node of constant value. -/
def Node.constant (value : Binary32) : Node := ⟨.constant, #v[], #v[.float value]⟩

/-! ## Edits -/

namespace Edit

variable {ε α β : Type} {x : Edit ε α} {f : α → Edit ε β} {patch patch' : Patch}

theorem run_bind_eq_ok_iff {b : β} : (x >>= f).run patch = .ok b patch' ↔
    ∃ a between, x.run patch = .ok a between ∧ (f a).run between = .ok b patch' := by
  rw [EStateM.run_bind]
  cases x.run patch <;> simp [and_assoc]

theorem run_bind_eq_error_iff {fault : ε} : (x >>= f).run patch = .error fault patch' ↔
    x.run patch = .error fault patch' ∨
      ∃ a between, x.run patch = .ok a between ∧ (f a).run between = .error fault patch' := by
  rw [EStateM.run_bind]
  cases x.run patch <;> simp [and_assoc]

/-- If it is refused, the patch is as it was. -/
def Atomic (x : Edit ε α) : Prop :=
  ∀ patch fault patch', x.run patch = .error fault patch' → patch' = patch

/-- Refused or not, it leaves the patch as it was. -/
structure LooksOnly (x : Edit ε α) : Prop where
  atomic : Atomic x
  eq_of_ok : ∀ patch a patch', x.run patch = .ok a patch' → patch' = patch

/-- It is never refused. -/
def Total (x : Edit ε α) : Prop := ∀ patch, ∃ a patch', x.run patch = .ok a patch'

theorem Total.atomic (hx : Total x) : Atomic x := by
  intro patch fault patch' h
  obtain ⟨a, between, ha⟩ := hx patch
  cases ha.symm.trans h

/-- One may look before one changes. -/
theorem Atomic.bind (hx : LooksOnly x) (hf : ∀ a, Atomic (f a)) : Atomic (x >>= f) := by
  intro patch fault patch' h
  rcases run_bind_eq_error_iff.1 h with hfail | ⟨a, between, ha, hfail⟩
  · exact hx.atomic patch fault patch' hfail
  · obtain rfl := hx.eq_of_ok patch a between ha
    exact hf a between fault patch' hfail

theorem LooksOnly.bind (hx : LooksOnly x) (hf : ∀ a, LooksOnly (f a)) : LooksOnly (x >>= f) where
  atomic := .bind hx fun a => (hf a).atomic
  eq_of_ok patch b patch' h := by
    obtain ⟨a, between, ha, hb⟩ := run_bind_eq_ok_iff.1 h
    obtain rfl := hx.eq_of_ok patch a between ha
    exact (hf a).eq_of_ok between b patch' hb

theorem looksOnly_get : LooksOnly (get : Edit ε Patch) where
  atomic _ _ _ h := by cases h
  eq_of_ok _ _ _ h := by cases h; rfl

theorem looksOnly_pure (a : α) : LooksOnly (pure a : Edit ε α) where
  atomic _ _ _ h := by cases h
  eq_of_ok _ _ _ h := by cases h; rfl

theorem looksOnly_throw (fault : ε) : LooksOnly (throw fault : Edit ε α) where
  atomic _ _ _ h := by cases h; rfl
  eq_of_ok _ _ _ h := by cases h

end Edit

/-! ## Functions on patches -/

namespace Patch

open Edit

variable {ε : Type} {patch : Patch} {unit : Declaration} {schema : Schema} {id : NodeId}
  {node : Node}

theorem looksOnly_getNode (id : NodeId) : LooksOnly (getNode id) := by
  refine looksOnly_get.bind fun patch => ?_
  cases patch.node? id with
  | none => exact looksOnly_throw _
  | some node => exact looksOnly_pure node

theorem looksOnly_portIndex (id : NodeId) (kind : PortKind) (name : String) :
    LooksOnly (portIndex id kind name) := by
  refine (looksOnly_getNode id).bind fun node => ?_
  cases kind
  all_goals
    dsimp only
    split
    · exact looksOnly_pure _
    · exact looksOnly_throw _

theorem total_putNode (id : NodeId) (node : Node) : Total (putNode id node : Edit ε Unit) :=
  fun _ => ⟨(), _, rfl⟩

theorem total_insert (schema : Schema) : Total (insert schema : Edit ε NodeId) :=
  fun _ => ⟨_, _, rfl⟩

theorem atomic_insertUnit (unit : Declaration) : Atomic (insertUnit unit) := by
  rw [insertUnit]
  split
  · exact (total_insert _).atomic
  · exact (looksOnly_throw _).atomic

theorem atomic_connectAt (id : NodeId) (index : Nat) (binding : Binding) :
    Atomic (connectAt id index binding) := by
  refine .bind (looksOnly_getNode id) fun node => ?_
  split
  · exact (total_putNode _ _).atomic
  · exact (looksOnly_throw _).atomic

theorem atomic_setStateAt (id : NodeId) (index : Nat) (value : StateValue) :
    Atomic (setStateAt id index value) := by
  refine .bind (looksOnly_getNode id) fun node => ?_
  split
  · dsimp only
    split
    · exact (total_putNode _ _).atomic
    · exact (looksOnly_throw _).atomic
  · exact (looksOnly_throw _).atomic

theorem atomic_connect (id : NodeId) (input : String) (binding : Binding) :
    Atomic (connect id input binding) :=
  .bind (looksOnly_portIndex id .input input) fun index => atomic_connectAt id index binding

theorem atomic_setState (id : NodeId) (state : String) (value : StateValue) :
    Atomic (setState id state value) :=
  .bind (looksOnly_portIndex id .state state) fun index => atomic_setStateAt id index value

theorem atomic_insertListed (id : String) : Atomic (Catalog.insert id) := by
  rw [Catalog.insert]
  split
  · exact (total_insert _).atomic
  · exact (looksOnly_throw _).atomic

/-! ## Nodes of the catalog -/

/-- The patch with a node of the unit added. -/
def withNode (patch : Patch) (schema : Schema) : Patch :=
  { patch with nodes := patch.nodes.push (.ofSchema schema) }

theorem node?_withNode (patch : Patch) (schema : Schema) :
    (patch.withNode schema).node? ⟨patch.nodes.size⟩ = some (.ofSchema schema) := by
  simp [node?, withNode]

theorem run_insertUnit (h : Schema.ofDeclaration unit = .ok schema) (patch : Patch) :
    (insertUnit unit).run patch = .ok ⟨patch.nodes.size⟩ (patch.withNode schema) := by
  rw [insertUnit, h]
  rfl

theorem run_getNode {node : Node} (h : patch.node? id = some node) :
    (getNode id).run patch = .ok node patch := by
  rw [getNode, EStateM.run_bind]
  simp only [EStateM.run_get, h]
  rfl

theorem run_connectAt (hnode : patch.node? id = some node) {index : Nat}
    (hindex : index < node.schema.inputs.length) (binding : Binding) :
    (connectAt id index binding).run patch =
      .ok () { patch with
        nodes := patch.nodes.setIfInBounds id.index
          { node with inputs := node.inputs.set index binding } } := by
  rw [connectAt, EStateM.run_bind, run_getNode hnode]
  simp only [dif_pos hindex]
  rfl

/-- A node keeps its unit when its inputs are wired. -/
theorem exists_run_connectAt (h : patch.schema? id = some schema) {index : Nat}
    (hindex : index < schema.inputs.length) (binding : Binding) :
    ∃ patch', (connectAt id index binding).run patch = .ok () patch' ∧
      patch'.schema? id = some schema := by
  obtain ⟨node, hnode, rfl⟩ := Option.map_eq_some_iff.1 h
  have hid : id.index < patch.nodes.size := (Array.getElem?_eq_some_iff.1 hnode).1
  exact ⟨_, run_connectAt hnode hindex binding, by simp [schema?, node?, hid]⟩

/-- All inputs that a unit has can be wired. -/
theorem exists_run_forM_connectAt (h : patch.schema? id = some schema)
    {bindings : List (Binding × Nat)} (hindex : ∀ b ∈ bindings, b.2 < schema.inputs.length) :
    ∃ patch', (bindings.forM fun (binding, index) => connectAt id index binding).run patch =
      .ok () patch' := by
  induction bindings generalizing patch with
  | nil => exact ⟨patch, rfl⟩
  | cons b bindings ih =>
    obtain ⟨between, hb, hbetween⟩ := exists_run_connectAt h (hindex b List.mem_cons_self) b.1
    obtain ⟨patch', hrest⟩ := ih hbetween fun c hc => hindex c (List.mem_cons_of_mem b hc)
    exact ⟨patch', run_bind_eq_ok_iff.2 ⟨(), between, hb, hrest⟩⟩

/-- A node of a unit that is in order can be added and wired up. -/
theorem total_wire (hunit : (Schema.ofDeclaration unit).isOk) {inputs : List Binding}
    (hinputs : inputs.length ≤ unit.inputs.length) : Total (wire unit inputs) := by
  intro patch
  obtain ⟨schema, hschema⟩ := Schema.exists_ofDeclaration_eq_ok hunit
  have hnode : (patch.withNode schema).schema? ⟨patch.nodes.size⟩ = some schema := by
    rw [schema?, node?_withNode]
    rfl
  have hindex : ∀ b ∈ inputs.zipIdx, b.2 < schema.inputs.length := by
    intro b hb
    rw [(Schema.of_ofDeclaration_eq_ok hschema).2.inputs_eq]
    have := List.snd_lt_of_mem_zipIdx hb
    omega
  obtain ⟨patch', hwired⟩ := exists_run_forM_connectAt hnode hindex
  exact ⟨_, patch', run_bind_eq_ok_iff.2 ⟨_, _, run_insertUnit hschema patch,
    run_bind_eq_ok_iff.2 ⟨(), patch', hwired, rfl⟩⟩⟩

theorem atomic_wire (hunit : (Schema.ofDeclaration unit).isOk) {inputs : List Binding}
    (hinputs : inputs.length ≤ unit.inputs.length) : Atomic (wire unit inputs) :=
  (total_wire hunit hinputs).atomic

theorem total_external (initial : Binary32) : Total (external initial) := by
  intro patch
  obtain ⟨schema, hschema⟩ := Schema.exists_ofDeclaration_eq_ok
    (d := externalUnit) (by decide +kernel)
  exact ⟨_, _, run_bind_eq_ok_iff.2 ⟨_, _, run_insertUnit hschema patch,
    run_bind_eq_ok_iff.2 ⟨_, _, run_getNode (node?_withNode patch schema), rfl⟩⟩⟩

/-! ## Constants -/

theorem run_portIndex_state {node : Node} (hnode : patch.node? id = some node) {name : String}
    {index : Nat} (h : node.schema.states.findIdx? (·.name = name) = some index) :
    (portIndex id .state name).run patch = .ok index patch := by
  have hfound : (node.schema.stateIndex? name).map (·.val) = some index := by
    rw [Schema.stateIndex?, ← List.findIdx?_eq_map_findFinIdx?_val, h]
  rw [portIndex, EStateM.run_bind, run_getNode hnode]
  simp only [hfound]
  rfl

theorem run_setStateAt {node : Node} (hnode : patch.node? id = some node) {index : Nat}
    (h : index < node.schema.states.length) (value : StateValue) :
    (setStateAt id index value).run patch =
      if value.fits node.schema.states[index].type then
        .ok () { patch with
          nodes := patch.nodes.setIfInBounds id.index
            { node with states := node.states.set index value } }
      else .error (.stateType id index node.schema.states[index].type) patch := by
  rw [setStateAt, EStateM.run_bind, run_getNode hnode]
  simp only [dif_pos h]
  split <;> rfl

/-- The patch with a node of constant value added. -/
def withConstant (patch : Patch) (value : Binary32) : Patch :=
  { patch with nodes := patch.nodes.push (.constant value) }

/-- A constant is added before its value is looked at: if the value is refused, its node
    stays. -/
theorem run_constant (value : Binary32) (patch : Patch) :
    (constant value).run patch =
      if value.isFinite then
        .ok ((⟨patch.nodes.size⟩ : NodeId).output 0) (patch.withConstant value)
      else .error (.stateType ⟨patch.nodes.size⟩ 0 .float) (patch.withNode .constant) := by
  have hwire : (wire Catalog.constant []).run patch =
      .ok ((⟨patch.nodes.size⟩ : NodeId).output 0) (patch.withNode .constant) :=
    run_bind_eq_ok_iff.2 ⟨_, _, run_insertUnit Schema.ofDeclaration_constant patch, rfl⟩
  -- The node has one cell, for a signal value.
  have hnode := node?_withNode patch .constant
  have hport : (portIndex ⟨patch.nodes.size⟩ .state "value").run (patch.withNode .constant) =
      .ok 0 (patch.withNode .constant) := run_portIndex_state hnode rfl
  have hset : (setStateAt ⟨patch.nodes.size⟩ 0 (.float value)).run (patch.withNode .constant) =
      if value.isFinite then .ok () (patch.withConstant value)
      else .error (.stateType ⟨patch.nodes.size⟩ 0 .float) (patch.withNode .constant) := by
    have hnodes : (patch.withNode .constant).nodes.setIfInBounds patch.nodes.size
        (.constant value) = patch.nodes.push (.constant value) := by
      simp only [withNode]
      grind
    rw [withConstant, ← hnodes]
    exact run_setStateAt hnode Nat.zero_lt_one (.float value)
  split
  · next hfinite =>
    rw [if_pos hfinite] at hset
    exact run_bind_eq_ok_iff.2 ⟨_, _, hwire, run_bind_eq_ok_iff.2
      ⟨(), _, run_bind_eq_ok_iff.2 ⟨0, _, hport, hset⟩, rfl⟩⟩
  · next hfinite =>
    rw [if_neg hfinite] at hset
    exact run_bind_eq_error_iff.2 (.inr ⟨_, _, hwire,
      run_bind_eq_error_iff.2 (.inl (run_bind_eq_error_iff.2 (.inr ⟨0, _, hport, hset⟩)))⟩)

/-! ## Calls -/

/-- A call that changes a patch, by the type of its faults and of its answers. -/
inductive Call : Type → Type → Type
  /-- A node of a unit yet to be checked. -/
  | insert (unit : Declaration) : Call GraphError NodeId
  /-- A node of the unit that the catalog lists under an identifier. -/
  | insertListed (id : String) : Call Catalog.RegistryError NodeId
  /-- A host input. -/
  | external (initial : Binary32) : Call GraphError (ExternalId × OutputRef)
  /-- Another binding for the input of a name. -/
  | connect (id : NodeId) (input : String) (binding : Binding) : Call GraphError Unit
  /-- Another binding for the input of an index. -/
  | connectAt (id : NodeId) (index : Nat) (binding : Binding) : Call GraphError Unit
  /-- Another value for the state cell of a name. -/
  | setState (id : NodeId) (state : String) (value : StateValue) : Call GraphError Unit
  /-- Another value for the state cell of an index. -/
  | setStateAt (id : NodeId) (index : Nat) (value : StateValue) : Call GraphError Unit
  /-- A node of constant value. -/
  | constant (value : Binary32) : Call GraphError OutputRef
  /-- A sum of two signals. -/
  | sum (left right : Binding) : Call GraphError OutputRef
  /-- A difference of two signals. -/
  | difference (left right : Binding) : Call GraphError OutputRef
  /-- A product of two signals. -/
  | product (left right : Binding) : Call GraphError OutputRef
  /-- A sine. -/
  | sine (frequency : Binding) : Call GraphError OutputRef
  /-- A square wave. -/
  | square (frequency : Binding) : Call GraphError OutputRef
  /-- An oscillator of any waveform. -/
  | oscillator (w : Catalog.Waveform) (frequency min max : Binding) : Call GraphError OutputRef
  /-- A low-pass filter. -/
  | lowpass (input cutoff : Binding) : Call GraphError OutputRef
  /-- An envelope. -/
  | adsr (gate attack decay sustain release : Binding) : Call GraphError OutputRef

namespace Call

variable {ε α : Type}

/-- What the call does. -/
def edit : Call ε α → Edit ε α
  | insert unit => insertUnit unit
  | insertListed id => Catalog.insert id
  | external initial => Patch.external initial
  | connect id input binding => Patch.connect id input binding
  | connectAt id index binding => Patch.connectAt id index binding
  | setState id state value => Patch.setState id state value
  | setStateAt id index value => Patch.setStateAt id index value
  | constant value => Patch.constant value
  | sum left right => Patch.sum left right
  | difference left right => Patch.difference left right
  | product left right => Patch.product left right
  | sine frequency => Patch.sine frequency
  | square frequency => Patch.square frequency
  | oscillator w frequency min max => Patch.oscillator w frequency min max
  | lowpass input cutoff => Patch.lowpass input cutoff
  | adsr gate attack decay sustain release => Patch.adsr gate attack decay sustain release

/-- The call is refused for a value that is looked at only after a node has been
    added. -/
def RefusedLate : Call ε α → Prop
  | constant value => value.isFinite = false
  | _ => False

theorem atomic_oscillator (w : Catalog.Waveform) (frequency min max : Binding) :
    Atomic (Patch.oscillator w frequency min max) :=
  -- The name of the waveform does not matter to the checks.
  atomic_wire rfl (Nat.le_refl 3)

theorem atomic_edit (call : Call ε α) (h : ¬call.RefusedLate) : Atomic call.edit := by
  cases call with
  | insert unit => exact atomic_insertUnit unit
  | insertListed id => exact atomic_insertListed id
  | external initial => exact (total_external initial).atomic
  | connect id input binding => exact atomic_connect id input binding
  | connectAt id index binding => exact atomic_connectAt id index binding
  | setState id state value => exact atomic_setState id state value
  | setStateAt id index value => exact atomic_setStateAt id index value
  | constant value =>
    refine Total.atomic fun patch => ⟨_, _, (run_constant value patch).trans (if_pos ?_)⟩
    simpa [RefusedLate] using h
  | sum left right => exact atomic_wire (by decide +kernel) (Nat.le_refl 2)
  | difference left right => exact atomic_wire (by decide +kernel) (Nat.le_refl 2)
  | product left right => exact atomic_wire (by decide +kernel) (Nat.le_refl 2)
  | sine frequency => exact atomic_oscillator _ _ _ _
  | square frequency => exact atomic_oscillator _ _ _ _
  | oscillator w frequency min max => exact atomic_oscillator w frequency min max
  | lowpass input cutoff => exact atomic_wire (by decide +kernel) (Nat.le_refl 2)
  | adsr gate attack decay sustain release =>
    exact atomic_wire (by decide +kernel) (Nat.le_refl 5)

/-- A call that is refused late leaves a node behind, whatever the patch. -/
theorem exists_run_eq_error (call : Call ε α) (h : call.RefusedLate) (patch : Patch) :
    ∃ schema fault, call.edit.run patch = .error fault (patch.withNode schema) := by
  cases call with
  | constant value =>
    refine ⟨_, _, (run_constant value patch).trans (if_neg ?_)⟩
    simpa [RefusedLate] using h
  | _ => exact h.elim

/-- A call that is refused leaves the patch as it was, whatever its arguments and the
    patch are, exactly if it is not for a constant that is no finite number. -/
theorem keeps_patch_iff (call : Call ε α) (patch : Patch) :
    (∀ fault patch', call.edit.run patch = .error fault patch' → patch' = patch) ↔
      ¬call.RefusedLate := by
  refine ⟨fun hkeeps hlate => ?_, fun h fault patch' => atomic_edit call h patch fault patch'⟩
  obtain ⟨schema, fault, hrun⟩ := exists_run_eq_error call hlate patch
  have hsize := congrArg (·.nodes.size) (hkeeps fault _ hrun)
  simp [withNode] at hsize

/-- The constant infinity is refused, but an empty patch is not empty after that. -/
theorem not_keeps_patch_infinity : ∃ fault patch',
    (Call.constant (.signedInfinity false)).edit.run {} = .error fault patch' ∧ patch' ≠ {} := by
  obtain ⟨schema, fault, hrun⟩ := exists_run_eq_error (.constant (.signedInfinity false)) rfl {}
  refine ⟨fault, _, hrun, fun h => ?_⟩
  have hsize := congrArg (·.nodes.size) h
  simp [withNode] at hsize

end Call

end Patch

end SignalGraph
