import SignalGraph.Patch.Error
import SignalGraph.Unit.Schema

/-!
# Patches

A patch is a signal graph under construction: nodes, each an instance of a unit,
what their inputs read, and the values their state starts from. Nothing runs
here. Reading one output in several places shares the node: it is updated once a
tick.

Changes to a patch are programs of type `Edit ε α`: they take the patch along,
give an `α` or fail with an `ε`, and what a program did before it failed stays
done.
-/

namespace SignalGraph

/-- An instance of a unit. -/
structure Node where
  /-- The unit. -/
  schema : Schema
  /-- What each input reads. -/
  inputs : Vector Binding schema.inputs.length
  /-- The value each state cell starts from. -/
  states : Vector StateValue schema.states.length

/-- A node of the unit with all inputs and all state at their defaults. -/
def Node.ofSchema (schema : Schema) : Node where
  schema
  inputs := ⟨(schema.inputs.map fun p => .constant p.default).toArray, by simp⟩
  states := ⟨(schema.states.map (·.default)).toArray, by simp⟩

/-- A signal graph. -/
structure Patch where
  /-- The nodes, by name. -/
  nodes : Array Node := #[]
  /-- The nodes whose value the host sets. -/
  externals : Array NodeId := #[]

/-- A change to a patch. -/
abbrev Edit (ε α : Type) := EStateM ε Patch α

namespace Patch

/-! ### Looking at a patch -/

/-- The node of a name. -/
def node? (patch : Patch) (id : NodeId) : Option Node := patch.nodes[id.index]?

/-- The names of all nodes, in order. -/
def nodeIds (patch : Patch) : List NodeId := (List.range patch.nodes.size).map NodeId.mk

/-- Is there an output of this name? -/
def containsOutput (patch : Patch) (output : OutputRef) : Bool :=
  (patch.node? output.node).any (output.index < ·.schema.outputs.length)

/-- The unit of a node. -/
def schema? (patch : Patch) (id : NodeId) : Option Schema := (patch.node? id).map (·.schema)

/-- What the input of an index reads. -/
def binding? (patch : Patch) (id : NodeId) (index : Nat) : Option Binding :=
  (patch.node? id).bind (·.inputs[index]?)

/-- The value that the state cell of an index starts from. -/
def stateValue? (patch : Patch) (id : NodeId) (index : Nat) : Option StateValue :=
  (patch.node? id).bind (·.states[index]?)

/-! ### Changing a patch -/

/-- The node of a name, which must exist. -/
def getNode (id : NodeId) : Edit GraphError Node := do
  match (← get).node? id with
  | some node => pure node
  | none => throw (.unknownNode id)

/-- Puts a node in the place of another. -/
def putNode {ε : Type} (id : NodeId) (node : Node) : Edit ε Unit :=
  modify fun patch => { patch with nodes := patch.nodes.setIfInBounds id.index node }

/-- Adds a node of a unit. -/
def insert {ε : Type} (schema : Schema) : Edit ε NodeId :=
  modifyGet fun patch =>
    (⟨patch.nodes.size⟩, { patch with nodes := patch.nodes.push (.ofSchema schema) })

/-- Adds a node of a unit yet to be checked. -/
def insertUnit (unit : Declaration) : Edit GraphError NodeId := do
  match Schema.ofDeclaration unit with
  | .ok schema => insert schema
  | .error fault => throw (.schema fault)

/-- The unit of host inputs: its state is what the host last set, and the output
    follows it. -/
def externalUnit : Declaration where
  unit := "external"
  states := [.float "value" 0]
  outputs := [{ name := "output" }]
  update := some ⟨["value", "output"], fun a => a.set 1 (a.get 0)⟩

/-- Adds a host input that starts from `initial`, whatever word that is. -/
def external (initial : Binary32) : Edit GraphError (ExternalId × OutputRef) := do
  let id ← insertUnit externalUnit
  let node ← getNode id
  putNode id { node with states := node.states.setIfInBounds 0 (.float initial) }
  modifyGet fun patch =>
    ((⟨patch.externals.size⟩, id.output 0), { patch with externals := patch.externals.push id })

/-- Lets the input of an index read something else. -/
def connectAt (id : NodeId) (index : Nat) (binding : Binding) : Edit GraphError Unit := do
  let node ← getNode id
  if h : index < node.schema.inputs.length then
    putNode id { node with inputs := node.inputs.set index binding }
  else throw (.portIndex id .input index)

/-- Lets the state cell of an index start from another value, which must fit. -/
def setStateAt (id : NodeId) (index : Nat) (value : StateValue) : Edit GraphError Unit := do
  let node ← getNode id
  if h : index < node.schema.states.length then
    let type := node.schema.states[index].type
    if value.fits type then putNode id { node with states := node.states.set index value }
    else throw (.stateType id index type)
  else throw (.portIndex id .state index)

/-- The index of a port, found by name. -/
def portIndex (id : NodeId) (kind : PortKind) (name : String) : Edit GraphError Nat := do
  let node ← getNode id
  let index? : Option Nat := match kind with
    | .input => (node.schema.inputIndex? name).map (·.val)
    | .output => (node.schema.outputIndex? name).map (·.val)
    | .state => (node.schema.stateIndex? name).map (·.val)
  match index? with
  | some index => pure index
  | none => throw (.unknownPort id node.schema.unit kind name)

/-- Lets the input of a name read something else. -/
def connect (id : NodeId) (input : String) (binding : Binding) : Edit GraphError Unit := do
  connectAt id (← portIndex id .input input) binding

/-- Lets the state cell of a name start from another value, which must fit. -/
def setState (id : NodeId) (state : String) (value : StateValue) : Edit GraphError Unit := do
  setStateAt id (← portIndex id .state state) value

/-- The output of a name. -/
def output (id : NodeId) (name : String) : Edit GraphError OutputRef := do
  pure (id.output (← portIndex id .output name))

end Patch

end SignalGraph
