import SignalGraph.Plan.Layout

/-!
# Steps

The update of one node, compiled: where each argument comes from, and into which
slots the results go. Running a step builds a frame, hands it to the update, and
stores the results; whatever else the update leaves in the frame is lost.
-/

namespace SignalGraph

/-- The values of the globals during a tick. -/
structure Globals where
  /-- The seconds since the previous tick. -/
  deltaTime : Binary32

/-- The value of a global. -/
def Globals.value (globals : Globals) : Global → Binary32
  | .deltaTime => globals.deltaTime

/-- Where an argument comes from. -/
inductive Operand where
  /-- It is the same always. -/
  | constant (value : Binary32)
  /-- A slot. -/
  | slot (index : Nat)
  /-- A global. -/
  | global (which : Global)
deriving DecidableEq

/-- The word that an operand stands for. -/
def Operand.read (values : Array Binary32) (globals : Globals) : Operand → Binary32
  | constant value => value
  | slot index => values.getD index 0
  | global which => globals.value which

/-- A result: an argument that goes into a slot after the update. -/
structure Write where
  /-- The place in the frame. -/
  argument : Nat
  /-- The slot. -/
  slot : Nat
deriving DecidableEq

/-- The update of one node. -/
structure Step where
  /-- The node. -/
  node : NodeId
  /-- The update of its unit. -/
  update : Frame → Frame
  /-- Where the arguments come from, by place in the frame. -/
  operands : List Operand
  /-- Where the results go. -/
  writes : List Write

namespace Step

/-- Where an argument of a node comes from, and the slot into which it goes back
    if it is a result. An output that is only written starts from zero. -/
def wire (layout : Layout) (id : NodeId) (node : Node) :
    Argument node.schema.inputs.length node.schema.outputs.length node.schema.states.length →
    Except GraphError (Operand × Option Nat)
  | .input i =>
    match node.inputs.get i with
    | .constant value => .ok (.constant value, none)
    | .output source => do
      let slot ← layout.slotOr (.output source) (.invalidReference source (.input id i))
      pure (.slot slot, none)
    | .feedback source => do
      let slot ← layout.slotOr (.history source) (.invalidReference source (.input id i))
      pure (.slot slot, none)
  | .output i => do
    let output := id.output i
    let slot ← layout.slotOr (.output output) (.invalidReference output (.input id i))
    match (node.schema.outputs.get i).access with
    | .write => pure (.constant 0, some slot)
    | .readWrite => pure (.slot slot, some slot)
  | .state i => do
    let slot ← layout.slotOr (.state id i) (.portIndex id .state i)
    pure (.slot slot, some slot)
  | .global which => .ok (.global which, none)

/-- The results among the arguments. -/
def writesOf (wires : List (Operand × Option Nat)) : List Write :=
  wires.zipIdx.filterMap fun (wire, argument) => wire.2.map fun slot => ⟨argument, slot⟩

/-- The step of a node. -/
def ofNode (patch : Patch) (layout : Layout) (id : NodeId) : Except GraphError Step :=
  match patch.node? id with
  | none => .error (.unknownNode id)
  | some node => do
    let wires ← node.schema.arguments.mapM (wire layout id node)
    pure {
      node := id
      update := node.schema.update
      operands := wires.map (·.1)
      writes := writesOf wires }

/-- The frame that a step hands to its update. -/
def frame (step : Step) (globals : Globals) (values : Array Binary32) : Frame :=
  .ofList (step.operands.map (·.read values globals))

/-- Runs a step. -/
def run (globals : Globals) (values : Array Binary32) (step : Step) : Array Binary32 :=
  let frame := step.update (step.frame globals values)
  step.writes.foldl (fun values w => values.setIfInBounds w.slot (frame.get w.argument)) values

end Step

/-- A copy of an output into its history at the end of a tick. -/
structure Latch where
  /-- The slot of the output. -/
  source : Nat
  /-- The slot of the history. -/
  target : Nat
deriving DecidableEq

/-- Copies an output into its history. -/
def Latch.run (values : Array Binary32) (latch : Latch) : Array Binary32 :=
  values.setIfInBounds latch.target (values.getD latch.source 0)

end SignalGraph
