import SignalGraph.Plan.Basic

/-!
# Direct evaluation

An evaluator runs a patch without compiling it: at each tick it goes through the
nodes and looks up every argument by what it stands for. It is slow, and made to
be compared with engines: both must come to the same values, bit for bit.
-/

namespace SignalGraph

/-- A patch under direct evaluation. -/
structure Evaluator where
  /-- The patch. -/
  patch : Patch
  /-- Its nodes in update order. -/
  resolution : Resolution
  /-- What lies where. -/
  layout : Layout
  /-- The roots. -/
  roots : List OutputRef
  /-- What the slots hold. -/
  values : Array Binary32

namespace Evaluator

/-- A fresh evaluator for the roots of a patch. -/
def ofPatch (patch : Patch) (roots : List OutputRef) : Except GraphError Evaluator := do
  let resolution ← Resolution.ofPatch patch roots
  let layout ← Layout.ofResolution patch resolution
  pure ⟨patch, resolution, layout, roots, layout.initial⟩

/-- What is held under a key; zero if nothing is. -/
def look (layout : Layout) (values : Array Binary32) (key : SlotKey) : Binary32 :=
  ((layout.slot? key).map (values.getD · 0)).getD 0

/-- Puts a word under a key, if anything is held there. -/
def put (layout : Layout) (values : Array Binary32) (key : SlotKey) (word : Binary32) :
    Array Binary32 :=
  match layout.slot? key with
  | some slot => values.setIfInBounds slot word
  | none => values

/-- The word that an argument of a node stands for. -/
def argument (layout : Layout) (globals : Globals) (values : Array Binary32) (id : NodeId)
    (node : Node) :
    Argument node.schema.inputs.length node.schema.outputs.length node.schema.states.length →
    Binary32
  | .input i =>
    match node.inputs.get i with
    | .constant value => value
    | .output source => look layout values (.output source)
    | .feedback source => look layout values (.history source)
  | .output i =>
    match (node.schema.outputs.get i).access with
    | .write => 0
    | .readWrite => look layout values (.output (id.output i))
  | .state i => look layout values (.state id i)
  | .global which => globals.value which

/-- The key under which an argument of a node is kept, if it is a result. -/
def resultKey? (id : NodeId) {inputs outputs states : Nat} :
    Argument inputs outputs states → Option SlotKey
  | .output i => some (.output (id.output i))
  | .state i => some (.state id i)
  | .input _ | .global _ => none

/-- Updates a node. -/
def updateNode (patch : Patch) (layout : Layout) (globals : Globals) (values : Array Binary32)
    (id : NodeId) : Array Binary32 :=
  match patch.node? id with
  | none => values
  | some node =>
    let arguments := node.schema.arguments
    let frame := node.schema.update
      (.ofList (arguments.map (argument layout globals values id node)))
    arguments.zipIdx.foldl
      (fun values (a, place) =>
        match resultKey? id a with
        | some key => put layout values key (frame.get place)
        | none => values)
      values

/-- Remembers an output for the next tick. -/
def remember (layout : Layout) (values : Array Binary32) (output : OutputRef) : Array Binary32 :=
  match layout.slot? (.output output), layout.slot? (.history output) with
  | some source, some target => values.setIfInBounds target (values.getD source 0)
  | _, _ => values

/-- Runs a tick. -/
def advance (e : Evaluator) (globals : Globals) : Evaluator :=
  let values := e.resolution.order.foldl (updateNode e.patch e.layout globals) e.values
  { e with values := e.resolution.delayed.foldl (remember e.layout) values }

/-- Sets a host input. None, if it contributes to no root. -/
def setInput? (e : Evaluator) (id : ExternalId) (value : Binary32) : Option Evaluator := do
  let node ← e.patch.externals[id.index]?
  let slot ← e.layout.slot? (.state node 0)
  pure { e with values := e.values.setIfInBounds slot value }

/-- The value of a root. -/
def sample? (e : Evaluator) (index : Nat) : Option Binary32 := do
  let root ← e.roots[index]?
  let slot ← e.layout.slot? (.output root)
  pure (e.values.getD slot 0)

/-- Goes back to the beginning. -/
def reset (e : Evaluator) : Evaluator := { e with values := e.layout.initial }

end Evaluator

end SignalGraph
