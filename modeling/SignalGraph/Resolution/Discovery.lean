import SignalGraph.Patch.Basic
import SignalGraph.Resolution.Schedule

/-!
# Discovery

Which nodes of a patch contribute to given root outputs. A breadth-first walk
from the roots follows the bindings of each node found, in order and of either
kind; nodes it does not reach take no part in anything.

The walk refuses the first reference it meets to an output that does not exist,
the roots before everything else. A reference on a node that is not found is
never looked at.
-/

namespace SignalGraph

/-- The nodes found by a walk. -/
structure Discovery where
  /-- The nodes in the order in which they were found. -/
  order : Array NodeId
  /-- The place of each node of the patch in `order`, if it has been found. -/
  place : Array (Option Nat)
  /-- The outputs read as of the previous tick, as they were met. -/
  delayed : Array OutputRef

namespace Discovery

/-- Nothing found yet in a patch of so many nodes. -/
def empty (size : Nat) : Discovery := ⟨#[], Array.replicate size none, #[]⟩

/-- The place of a node, if it has been found. -/
def place? (d : Discovery) (id : NodeId) : Option Nat := d.place[id.index]?.join

/-- Counts a node as found. -/
def find (d : Discovery) (id : NodeId) : Discovery :=
  match d.place? id with
  | some _ => d
  | none =>
    { d with
      order := d.order.push id
      place := d.place.setIfInBounds id.index (some d.order.size) }

/-- Finds the node of an output that is referred to at `site`. -/
def follow (patch : Patch) (d : Discovery) (output : OutputRef) (site : ReferenceSite) :
    Except GraphError Discovery :=
  if patch.containsOutput output then .ok (d.find output.node)
  else .error (.invalidReference output site)

/-- Finds what an input of a node reads, given with its index. -/
def followBinding (patch : Patch) (id : NodeId) (d : Discovery) (input : Binding × Nat) :
    Except GraphError Discovery :=
  match input.1 with
  | .constant _ => .ok d
  | .output source => d.follow patch source (.input id input.2)
  | .feedback source =>
    (d.follow patch source (.input id input.2)).map fun d =>
      { d with delayed := d.delayed.push source }

/-- Finds what the inputs of a node read, in order. -/
def expand (patch : Patch) (d : Discovery) (id : NodeId) : Except GraphError Discovery :=
  match patch.node? id with
  | none => .error (.unknownNode id)
  | some node => node.inputs.toList.zipIdx.foldlM (followBinding patch id) d

/-- Expands the nodes found, from the one at `next` on, those found on the way
    included: `count` nodes at most. -/
def walk (patch : Patch) (d : Discovery) (next : Nat) : Nat → Except GraphError Discovery
  | 0 => .ok d
  | count + 1 =>
    match d.order[next]? with
    | none => .ok d
    | some id => (d.expand patch id).bind fun d => walk patch d (next + 1) count

/-- Finds the nodes of the roots, in order. -/
def ofRoots (patch : Patch) (roots : List OutputRef) : Except GraphError Discovery :=
  roots.zipIdx.foldlM (fun d root => d.follow patch root.1 (.root root.2))
    (empty patch.nodes.size)

/-- Finds all nodes that contribute to the roots. No node is found twice, so there
    are no more to expand than the patch has. -/
def ofPatch (patch : Patch) (roots : List OutputRef) : Except GraphError Discovery :=
  (ofRoots patch roots).bind fun d => d.walk patch 0 patch.nodes.size

/-- For each node found, by place, the places of the nodes it reads as of the same
    tick. -/
def waits (patch : Patch) (d : Discovery) : Waits :=
  d.order.map fun id =>
    match patch.node? id with
    | none => []
    | some node => node.inputs.toList.filterMap fun b => b.sameTick?.bind (d.place? ·.node)

/-- The nodes at some places. -/
def nodesAt (d : Discovery) (places : List Nat) : List NodeId := places.filterMap (d.order[·]?)

end Discovery

end SignalGraph
