import SignalGraph.Resolution.Discovery

/-!
# Resolution

The nodes of a patch that contribute to given roots, in the order in which they
are updated. Each node follows those it reads as of the same tick; where there is
a choice, the node discovered last goes first, so that a node tends to come just
before its reader. Reading the previous tick implies no order, which is how a loop
is made; a loop within a tick is refused.
-/

namespace SignalGraph

/-- Puts an element into a list without repetition in the order `before`. -/
def insertAscending {α : Type} (before : α → α → Bool) (a : α) : List α → List α
  | [] => [a]
  | b :: rest =>
    if before a b then a :: b :: rest
    else if before b a then b :: insertAscending before a rest
    else b :: rest

/-- The elements of a list in the order `before`, each once. -/
def ascending {α : Type} (before : α → α → Bool) (l : List α) : List α :=
  l.foldr (insertAscending before) []

/-- What of a patch is updated at each tick. -/
structure Resolution where
  /-- The nodes in update order. -/
  order : List NodeId
  /-- The outputs read as of the previous tick, in ascending order, each once. -/
  delayed : List OutputRef
deriving DecidableEq

/-- The nodes found, in update order. If not all of them can be scheduled, those
    left over are refused, in ascending order. -/
def Discovery.schedule (patch : Patch) (d : Discovery) : Except GraphError (List NodeId) :=
  let schedule := Schedule.run (d.waits patch)
  if schedule.placed.size = d.order.size then .ok (d.nodesAt schedule.placed.toList)
  else .error (.cycle (ascending NodeId.before (d.nodesAt schedule.stuck)))

/-- Resolves a patch for some roots. -/
def Resolution.ofPatch (patch : Patch) (roots : List OutputRef) : Except GraphError Resolution :=
  if roots.isEmpty then .error .noRoots
  else do
    let d ← Discovery.ofPatch patch roots
    let order ← d.schedule patch
    pure ⟨order, ascending OutputRef.before d.delayed.toList⟩

end SignalGraph
