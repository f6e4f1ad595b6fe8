import SignalGraph.Proofs.Patch.Atomicity

/-!
# Calls that add one node

What host inputs, constants and the arithmetic of the catalog leave in a patch
(`Patch.run_external`, `Patch.run_constant`, `Patch.run_binary`): one more node, under the
first free name, that reads what it has been given. What was there before stays
(`Patch.Extends`).
-/

namespace SignalGraph

/-- A unit of any name that puts out what it holds, as constants do. -/
def Schema.holder (unit : String) : Schema := { Schema.constant with unit }

theorem Schema.ofDeclaration_external :
    ofDeclaration Patch.externalUnit = .ok (holder "external") := by rfl

/-- A node that holds a word to begin with. -/
def Node.holder (unit : String) (word : Binary32) : Node :=
  ⟨.holder unit, (constant word).inputs, (constant word).states⟩

/-- A host input that starts from a word. -/
def Node.external (initial : Binary32) : Node := .holder "external" initial

/-- The unit that applies `op` to its inputs, checked. -/
def Schema.binary (unit : String) (op : Binary32 → Binary32 → Binary32) : Schema where
  unit
  inputs := [⟨"left", 0, .float⟩, ⟨"right", 0, .float⟩]
  outputs := [{ name := "output" }]
  states := []
  arguments := [.input 0, .input 1, .output ⟨0, Nat.zero_lt_one⟩]
  update := fun frame => frame.set 2 (op (frame.get 0) (frame.get 1))
  arguments_nodup := by decide
  arguments_length := by decide
  input_mem := by decide
  output_mem := by decide
  state_mem := by decide

theorem Schema.ofDeclaration_binary (unit : String) (op : Binary32 → Binary32 → Binary32) :
    ofDeclaration (Catalog.binary unit op) = .ok (binary unit op) := by rfl

/-- A node that applies `op` to two signals. -/
def Node.binary (unit : String) (op : Binary32 → Binary32 → Binary32) (left right : Binding) :
    Node := { ofSchema (.binary unit op) with inputs := #v[left, right] }

/-- Lets an input of the node read something else. -/
def Node.connect (node : Node) (b : Binding × Nat) : Node :=
  { node with inputs := node.inputs.setIfInBounds b.2 b.1 }

namespace Patch

open Edit

variable {patch : Patch} {id : NodeId} {node : Node} {word : Binary32}

/-- The patch with a node added. -/
def push (patch : Patch) (node : Node) : Patch := { patch with nodes := patch.nodes.push node }

theorem node?_push : (patch.push node).node? id =
    if id.index = patch.nodes.size then some node else patch.node? id :=
  Array.getElem?_push

theorem node?_push_self (patch : Patch) (node : Node) :
    (patch.push node).node? ⟨patch.nodes.size⟩ = some node := node?_push.trans (if_pos rfl)

/-- The node that was added last may be changed. -/
theorem set_push (patch : Patch) (old new : Node) :
    { patch.push old with nodes := (patch.push old).nodes.setIfInBounds patch.nodes.size new } =
      patch.push new := by
  simp only [push, mk.injEq, and_true]
  grind

/-- The patch with a host input added. -/
def withExternal (patch : Patch) (initial : Binary32) : Patch :=
  { patch.push (.external initial) with externals := patch.externals.push ⟨patch.nodes.size⟩ }

theorem getElem?_externals_withExternal {i : Nat} :
    (patch.withExternal word).externals[i]? =
      if i = patch.externals.size then some ⟨patch.nodes.size⟩ else patch.externals[i]? :=
  Array.getElem?_push

/-- A new node is no host input that has been listed before. -/
theorem external_inj_withExternal
    (hinj : ∀ (i j : Nat) id, patch.externals[i]? = some id →
      patch.externals[j]? = some id → i = j)
    (hfresh : ∀ i : Nat, patch.externals[i]? ≠ some ⟨patch.nodes.size⟩) (i j : Nat) (id : NodeId)
    (hi : (patch.withExternal word).externals[i]? = some id)
    (hj : (patch.withExternal word).externals[j]? = some id) : i = j := by
  rw [getElem?_externals_withExternal] at hi hj
  split at hi <;> split at hj
  · omega
  · exact absurd (hi ▸ hj) (hfresh j)
  · exact absurd (hj ▸ hi) (hfresh i)
  · exact hinj i j id hi hj

theorem run_external (initial : Binary32) (patch : Patch) :
    (external initial).run patch =
      .ok (⟨patch.externals.size⟩, (⟨patch.nodes.size⟩ : NodeId).output 0)
        (patch.withExternal initial) := by
  have hput : (putNode ⟨patch.nodes.size⟩ (.external initial) : Edit GraphError Unit).run
      (patch.withNode (.holder "external")) = .ok () (patch.push (.external initial)) :=
    congrArg (EStateM.Result.ok ()) (set_push patch _ _)
  exact run_bind_eq_ok_iff.2 ⟨_, _, run_insertUnit Schema.ofDeclaration_external patch,
    run_bind_eq_ok_iff.2 ⟨_, _, run_getNode (node?_withNode patch _),
      run_bind_eq_ok_iff.2 ⟨_, _, hput, rfl⟩⟩⟩

theorem run_connectAt_push {node : Node} {b : Binding × Nat}
    (hindex : b.2 < node.schema.inputs.length) (patch : Patch) :
    (connectAt ⟨patch.nodes.size⟩ b.2 b.1).run (patch.push node) =
      .ok () (patch.push (node.connect b)) := by
  have hconnect : { node with inputs := node.inputs.set b.2 b.1 } = node.connect b := by
    simp [Node.connect, Vector.setIfInBounds, Vector.set, Array.setIfInBounds, hindex]
  rw [run_connectAt (node?_push_self patch node) hindex, hconnect]
  exact congrArg (EStateM.Result.ok ()) (set_push patch _ _)

/-- All inputs of the node that was added last are connected, one after the other. -/
theorem run_forM_connectAt_push {node : Node} {bindings : List (Binding × Nat)}
    (hindex : ∀ b ∈ bindings, b.2 < node.schema.inputs.length) :
    (bindings.forM fun (binding, index) => connectAt ⟨patch.nodes.size⟩ index binding).run
      (patch.push node) = .ok () (patch.push (bindings.foldl Node.connect node)) := by
  induction bindings generalizing node with
  | nil => rfl
  | cons b bindings ih =>
    have hb := run_connectAt_push (hindex b List.mem_cons_self) patch
    exact run_bind_eq_ok_iff.2 ⟨(), _, hb, ih fun c hc => hindex c (List.mem_cons_of_mem b hc)⟩

/-- A new node reads what it is given, and keeps its defaults where it is given nothing. -/
theorem run_wire {unit : Declaration} {schema : Schema}
    (hschema : Schema.ofDeclaration unit = .ok schema) {inputs : List Binding}
    (hinputs : inputs.length ≤ schema.inputs.length) (patch : Patch) :
    (wire unit inputs).run patch = .ok ((⟨patch.nodes.size⟩ : NodeId).output 0)
      (patch.push (inputs.zipIdx.foldl Node.connect (.ofSchema schema))) := by
  have hindex : ∀ b ∈ inputs.zipIdx, b.2 < (Node.ofSchema schema).schema.inputs.length :=
    fun b hb => Nat.lt_of_lt_of_le (by simpa using List.snd_lt_of_mem_zipIdx hb) hinputs
  exact run_bind_eq_ok_iff.2 ⟨_, _, run_insertUnit hschema patch,
    run_bind_eq_ok_iff.2 ⟨(), _, run_forM_connectAt_push hindex, rfl⟩⟩

theorem run_binary (unit : String) (op : Binary32 → Binary32 → Binary32) (left right : Binding)
    (patch : Patch) :
    (wire (Catalog.binary unit op) [left, right]).run patch =
      .ok ((⟨patch.nodes.size⟩ : NodeId).output 0) (patch.push (.binary unit op left right)) :=
  run_wire (Schema.ofDeclaration_binary unit op) Nat.le.refl patch

/-! ## What stays -/

/-- What is in the patch is in the other one, too, under the same names. -/
structure Extends (patch patch' : Patch) : Prop where
  node?_eq : ∀ id node, patch.node? id = some node → patch'.node? id = some node
  external_eq : ∀ (i : Nat) id, patch.externals[i]? = some id → patch'.externals[i]? = some id

theorem extends_push (patch : Patch) (node : Node) : patch.Extends (patch.push node) where
  node?_eq id node' hnode := by
    have hlt : id.index < patch.nodes.size := (Array.getElem?_eq_some_iff.1 hnode).1
    rw [node?_push, if_neg (Nat.ne_of_lt hlt), hnode]
  external_eq _ _ h := h

theorem extends_withExternal (patch : Patch) (word : Binary32) :
    patch.Extends (patch.withExternal word) where
  node?_eq := (extends_push patch _).node?_eq
  external_eq i id hid := by
    have hlt : i < patch.externals.size := (Array.getElem?_eq_some_iff.1 hid).1
    rw [getElem?_externals_withExternal, if_neg (Nat.ne_of_lt hlt), hid]

end Patch

end SignalGraph
