import SignalGraph.Unit.Frame
import SignalGraph.Unit.Port

/-!
# What can be wrong with a declaration

Each cause names the unit declared and what in its declaration is at fault;
`SchemaError.message` words it.
-/

namespace SignalGraph

/-- A fault in the declaration of a unit. -/
inductive SchemaError where
  /-- There is no update. -/
  | missingUpdate (unit : String)
  /-- The update asks for an argument that is neither a port nor a global. -/
  | unknownPort (unit argument : String)
  /-- A port cannot have its type. -/
  | invalidValueType (unit port : String) (type : ValueType)
  /-- The initial value of a state cell does not fit its type. -/
  | invalidDefault (unit port : String)
  /-- Two ports share a name, or a port has the name of a global. -/
  | duplicatePort (unit port : String)
  /-- The update asks for an argument twice. -/
  | duplicateArgument (unit argument : String)
  /-- The update does not ask for a port. -/
  | unboundPort (unit port : String)
  /-- The update asks for more arguments than a frame holds. -/
  | tooManyArguments (unit : String) (count : Nat)
deriving DecidableEq

/-- The wording of a fault. -/
def SchemaError.message : SchemaError → String
  | missingUpdate unit => s!"unit '{unit}' declares no update operation"
  | unknownPort unit argument =>
    s!"unit '{unit}': update argument '{argument}' matches no declared port or global"
  | invalidValueType unit port type =>
    s!"unit '{unit}': port '{port}' cannot carry values of type {type.text}"
  | invalidDefault unit port =>
    s!"unit '{unit}': default of state '{port}' does not fit its type"
  | duplicatePort unit port => s!"unit '{unit}': port name '{port}' is declared twice"
  | duplicateArgument unit argument =>
    s!"unit '{unit}': update argument '{argument}' is bound twice"
  | unboundPort unit port =>
    s!"unit '{unit}': port '{port}' is not bound to the update operation"
  | tooManyArguments unit count =>
    s!"unit '{unit}': {count} update arguments exceed the limit of {maxArguments}"

end SignalGraph
