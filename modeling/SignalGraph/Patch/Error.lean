import SignalGraph.Patch.Reference
import SignalGraph.Unit.Error

/-!
# What can go wrong with a patch

The causes for which a change to a patch is refused, or for which a patch cannot
be run, and their wording (`GraphError.message`).
-/

namespace SignalGraph

/-- The kinds of ports. -/
inductive PortKind where
  | input
  | output
  | state
deriving DecidableEq

/-- The text of a kind of ports. -/
def PortKind.text : PortKind → String
  | input => "input"
  | output => "output"
  | state => "state"

/-- A place where an output is referred to. -/
inductive ReferenceSite where
  /-- The list of roots, at an index. -/
  | root (index : Nat)
  /-- An input of a node. -/
  | input (node : NodeId) (index : Nat)
deriving DecidableEq

/-- The text of a place. -/
def ReferenceSite.text : ReferenceSite → String
  | root index => s!"root #{index}"
  | input node index => s!"input #{index} of {node.text}"

/-- The reason why a patch cannot be changed or run as asked. -/
inductive GraphError where
  /-- A unit is declared wrongly. -/
  | schema (cause : SchemaError)
  /-- These nodes wait for each other within a tick. -/
  | cycle (nodes : List NodeId)
  /-- An output is referred to that does not exist. -/
  | invalidReference (output : OutputRef) (site : ReferenceSite)
  /-- There are no roots. -/
  | noRoots
  /-- There is no such node. -/
  | unknownNode (node : NodeId)
  /-- The node has no port of that name. -/
  | unknownPort (node : NodeId) (unit : String) (kind : PortKind) (name : String)
  /-- The node has no port of that index. -/
  | portIndex (node : NodeId) (kind : PortKind) (index : Nat)
  /-- The value does not fit the state cell. -/
  | stateType (node : NodeId) (index : Nat) (expected : ValueType)
deriving DecidableEq

/-- The wording of a reason. -/
def GraphError.message : GraphError → String
  | schema cause => cause.message
  | cycle nodes =>
    "dependency cycle through nodes [" ++ String.intercalate ", " (nodes.map NodeId.text) ++ "]"
  | invalidReference output site => s!"{site.text} refers to invalid output {output.text}"
  | noRoots => "no root outputs given"
  | unknownNode node => s!"{node.text} not found"
  | unknownPort node unit kind name => s!"{node.text} ({unit}) has no {kind.text} named '{name}'"
  | portIndex node kind index => s!"{node.text} has no {kind.text} at index {index}"
  | stateType node index expected =>
    s!"{node.text}: value for state #{index} does not fit {expected.text}"

end SignalGraph
