import SignalGraph.Binary.Decimal
import SignalGraph.Plan.Basic

/-!
# The log of a compilation

What compiling a patch reports about its stages: how much was reached, how many
slots were laid out, and the steps of the plan.
-/

namespace SignalGraph

/-- The text of an operand. -/
def Operand.text : Operand → String
  | constant value => value.toDecimal
  | slot index => s!"slot[{index}]"
  | global which => which.name

/-- The text of a result. -/
def Write.text (w : Write) : String := s!"arg{w.argument}→slot[{w.slot}]"

/-- The text of a step. -/
def Step.text (step : Step) : String :=
  let operands := String.intercalate ", " (step.operands.map Operand.text)
  let writes := String.intercalate ", " (step.writes.map Write.text)
  s!"Update {step.node.text} ({operands}) → [{writes}]"

namespace Plan

/-- What resolving a patch reports. -/
def resolutionLog (patch : Patch) (roots : List OutputRef) (resolution : Resolution) : String :=
  s!"resolve: {resolution.order.length} of {patch.nodes.size} nodes reachable from "
    ++ s!"{roots.length} roots, {resolution.delayed.length} feedback reads"

/-- What laying out the slots reports. -/
def layoutLog (resolution : Resolution) (layout : Layout) : String :=
  s!"slot_allocate: {layout.size} slots for {resolution.order.length} nodes "
    ++ s!"({resolution.delayed.length} history)"

/-- What is reported of a finished plan. -/
def planLog (plan : Plan) : List String :=
  (s!"plan_compile: {plan.steps.length} steps, {plan.layout.size} slots, "
    ++ s!"{plan.latches.length} latches, {plan.outputSlots.length} outputs")
  :: plan.steps.zipIdx.map fun (step, i) => s!"  step[{i}]: {step.text}"

/-- Compiles like `Plan.compile`, and gives the reports of all stages that came to
    an end. -/
def compileLogged (patch : Patch) (roots : List OutputRef) : List String × Except GraphError Plan :=
  match Resolution.ofPatch patch roots with
  | .error e => ([], .error e)
  | .ok resolution =>
    let log := [resolutionLog patch roots resolution]
    match Layout.ofResolution patch resolution with
    | .error e => (log, .error e)
    | .ok layout =>
      let log := log ++ [layoutLog resolution layout]
      match assemble patch roots resolution layout with
      | .error e => (log, .error e)
      | .ok plan => (log ++ plan.planLog, .ok plan)

end Plan

end SignalGraph
