import SignalGraph.Plan.Step

/-!
# Plans

A plan is a patch compiled for some roots: a step for each node in update order,
and a latch for each output read with a delay. Running a plan for a tick
(`Plan.execute`) goes through the steps, each working in place on one row of
slots, and then through the latches: only then do histories take on the values of
this tick.

Only resolution finds fault with a patch. The lookups that come after it are
written to be refused all the same if a slot were missing.
-/

namespace SignalGraph

/-- A compiled patch. -/
structure Plan where
  /-- The steps in update order. -/
  steps : List Step
  /-- The copies into histories. -/
  latches : List Latch
  /-- What lies where. -/
  layout : Layout
  /-- The roots, in the order they were asked for. -/
  roots : List OutputRef
  /-- The slot of each root. -/
  outputSlots : List Nat
  /-- The slot of the value of each host input, if it contributes to a root. -/
  externalSlots : List (Option Nat)

namespace Plan

/-- The copies into the histories of some outputs. -/
def latchesFor (layout : Layout) (outputs : List OutputRef) : List Latch :=
  outputs.filterMap fun output => do
    let source ← layout.slot? (.output output)
    let target ← layout.slot? (.history output)
    pure ⟨source, target⟩

/-- Compiles a patch that has been resolved and laid out. -/
def assemble (patch : Patch) (roots : List OutputRef) (resolution : Resolution) (layout : Layout) :
    Except GraphError Plan := do
  let steps ← resolution.order.mapM (Step.ofNode patch layout)
  let outputSlots ← roots.zipIdx.mapM fun (root, i) =>
    layout.slotOr (.output root) (.invalidReference root (.root i))
  pure {
    steps
    latches := latchesFor layout resolution.delayed
    layout
    roots
    outputSlots
    externalSlots := patch.externals.toList.map fun id => layout.slot? (.state id 0) }

/-- Compiles what contributes to the roots. -/
def compile (patch : Patch) (roots : List OutputRef) : Except GraphError Plan := do
  let resolution ← Resolution.ofPatch patch roots
  let layout ← Layout.ofResolution patch resolution
  assemble patch roots resolution layout

variable (plan : Plan)

/-- Runs one tick on a row of slots: all steps, then all latches. -/
def execute (globals : Globals) (values : Array Binary32) : Array Binary32 :=
  plan.latches.foldl Latch.run (plan.steps.foldl (Step.run globals) values)

/-- The slot of the root at an index. -/
def outputSlot? (index : Nat) : Option Nat := plan.outputSlots[index]?

/-- The slot of the value of a host input. -/
def externalSlot? (id : ExternalId) : Option Nat := plan.externalSlots[id.index]?.join

end Plan

end SignalGraph
