import SignalGraph.Resolution.Basic

/-!
# The layout of values

All values of a resolved patch lie in one row of slots: for each node in update
order its outputs and then its state, and at the end, for each output read as of
the previous tick, its history. A layout says what lies in a slot
(`Layout.key?`), where something lies (`Layout.slot?`), and what the slots hold at
the beginning.
-/

namespace SignalGraph

/-- What a slot holds. -/
inductive SlotKey where
  /-- An output, as of this tick. -/
  | output (source : OutputRef)
  /-- A state cell of a node. -/
  | state (node : NodeId) (index : Nat)
  /-- An output, as of the end of the previous tick. -/
  | history (source : OutputRef)
deriving DecidableEq

/-- The slots of one node: a run of outputs and then of state. -/
structure Block where
  /-- The first slot. -/
  first : Nat
  /-- The number of outputs. -/
  outputs : Nat
  /-- The number of state cells. -/
  states : Nat

/-- What lies where in a row of slots. -/
structure Layout where
  /-- What each slot holds. -/
  keys : Array SlotKey
  /-- What each slot starts from. -/
  initial : Array Binary32
  /-- The slots of each node of the patch, if it has any. -/
  blocks : Array (Option Block)
  /-- The first history slot. -/
  firstHistory : Nat
  /-- The outputs with a history, in the order of their slots. -/
  histories : List OutputRef

namespace Layout

/-- No slots, in a patch of so many nodes. -/
def empty (size : Nat) : Layout := ⟨#[], #[], Array.replicate size none, 0, []⟩

/-- What the slots of a node hold. -/
def nodeKeys (id : NodeId) (node : Node) : List SlotKey :=
  (List.range node.schema.outputs.length).map (fun i => .output (id.output i))
    ++ (List.range node.schema.states.length).map (.state id ·)

/-- What the slots of a node start from: outputs from zero. -/
def nodeInitial (node : Node) : List Binary32 :=
  List.replicate node.schema.outputs.length (0 : Binary32) ++ node.states.toList.map (·.toWord)

/-- Adds the slots of a node. -/
def addNode (layout : Layout) (id : NodeId) (node : Node) : Layout :=
  { layout with
    keys := layout.keys ++ nodeKeys id node
    initial := layout.initial ++ nodeInitial node
    blocks := layout.blocks.setIfInBounds id.index
      (some ⟨layout.keys.size, node.schema.outputs.length, node.schema.states.length⟩) }

/-- Adds a slot for the history of each of some outputs, from zero. -/
def addHistories (layout : Layout) (outputs : List OutputRef) : Layout :=
  { layout with
    keys := layout.keys ++ outputs.map SlotKey.history
    initial := layout.initial ++ List.replicate outputs.length (0 : Binary32)
    firstHistory := layout.keys.size
    histories := outputs }

/-- Adds the slots of the node of a name. -/
def addNodeOf (patch : Patch) (layout : Layout) (id : NodeId) : Except GraphError Layout :=
  match patch.node? id with
  | none => .error (.unknownNode id)
  | some node => .ok (layout.addNode id node)

/-- Lays out a patch for a resolution, be it of this patch or of another one. A
    node of the resolution that the patch does not have is refused. -/
def ofResolution (patch : Patch) (resolution : Resolution) : Except GraphError Layout := do
  let layout ← resolution.order.foldlM (addNodeOf patch) (empty patch.nodes.size)
  pure (layout.addHistories resolution.delayed)

/-- The number of slots. -/
def size (layout : Layout) : Nat := layout.keys.size

/-- What lies in a slot. -/
def key? (layout : Layout) (slot : Nat) : Option SlotKey := layout.keys[slot]?

/-- Where something lies. -/
def slot? (layout : Layout) : SlotKey → Option Nat
  | .output source => do
    let block ← layout.blocks[source.node.index]?.join
    if source.index < block.outputs then some (block.first + source.index) else none
  | .state id index => do
    let block ← layout.blocks[id.index]?.join
    if index < block.states then some (block.first + block.outputs + index) else none
  | .history source => (layout.histories.idxOf? source).map (layout.firstHistory + ·)

/-- Where something lies that must have a slot. -/
def slotOr (layout : Layout) (key : SlotKey) (error : GraphError) : Except GraphError Nat :=
  match layout.slot? key with
  | some slot => .ok slot
  | none => .error error

end Layout

end SignalGraph
