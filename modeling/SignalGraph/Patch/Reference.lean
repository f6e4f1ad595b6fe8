import SignalGraph.Binary.Basic

/-!
# Names of nodes and what inputs read

Nodes are named by the order in which they were added, outputs by their node and
their index. A name may be written down before, or without, there being anything
of that name: references are checked when a patch is resolved.
-/

namespace SignalGraph

/-- The name of a node: its place in the patch. -/
structure NodeId where
  /-- The place. -/
  index : Nat
deriving DecidableEq

/-- The name of an output of a node. -/
structure OutputRef where
  /-- The node. -/
  node : NodeId
  /-- The index among the outputs of the node. -/
  index : Nat
deriving DecidableEq

/-- The name of a host input: its place among the host inputs of the patch. -/
structure ExternalId where
  /-- The place. -/
  index : Nat
deriving DecidableEq

/-- What an input reads at each tick. -/
inductive Binding where
  /-- The same value always. -/
  | constant (value : Binary32)
  /-- An output as of this tick: its node is updated first. -/
  | output (source : OutputRef)
  /-- An output as of the previous tick, zero at first: no order is implied. -/
  | feedback (source : OutputRef)
deriving DecidableEq

namespace NodeId

/-- An output of the node. -/
def output (node : NodeId) (index : Nat) : OutputRef := ⟨node, index⟩

/-- The text of a node name. -/
def text (node : NodeId) : String := s!"NodeId({node.index})"

/-- Nodes in the order in which they were added. -/
def before (a b : NodeId) : Bool := a.index < b.index

end NodeId

namespace OutputRef

/-- The text of an output name. -/
def text (output : OutputRef) : String := s!"{output.node.text}.out[{output.index}]"

/-- Outputs in order of nodes, those of one node by index. -/
def before (a b : OutputRef) : Bool :=
  a.node.before b.node || a.node = b.node && a.index < b.index

end OutputRef

namespace Binding

/-- A constant given as a 64-bit number. -/
def ofDouble (value : Binary64) : Binding := constant (value.convert .single)

/-- The output that a binding reads, be it of this tick or the previous one. -/
def source? : Binding → Option OutputRef
  | constant _ => none
  | output source | feedback source => some source

/-- The output that a binding reads as of this tick. -/
def sameTick? : Binding → Option OutputRef
  | output source => some source
  | constant _ | feedback _ => none

/-- The output that a binding reads as of the previous tick. -/
def previousTick? : Binding → Option OutputRef
  | feedback source => some source
  | constant _ | output _ => none

end Binding

end SignalGraph
