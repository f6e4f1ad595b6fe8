import SignalGraph.Unit.Declaration

/-!
# Schemas

A schema is a declaration found to be in order, with the names of the update's
arguments resolved. `Schema.ofDeclaration` is the only way to one: it refuses a
declaration with its first fault, looking at names, signal types, state,
and arguments in this order.

The fields that are proofs hold what the rest of the library builds on: no
argument is bound twice, every port is bound, and a frame has room for all
arguments.
-/

namespace SignalGraph

/-- A declaration that is in order. -/
structure Schema where
  /-- The name of the unit. -/
  unit : String
  /-- The inputs, in order. -/
  inputs : List InputPort
  /-- The outputs, in order. -/
  outputs : List OutputPort
  /-- The state cells, in order. -/
  states : List StateCell
  /-- The arguments of the update, by place in the frame. -/
  arguments : List (Argument inputs.length outputs.length states.length)
  /-- The update. -/
  update : Frame → Frame
  arguments_nodup : arguments.Nodup
  arguments_length : arguments.length ≤ maxArguments
  input_mem : ∀ i, .input i ∈ arguments
  output_mem : ∀ i, .output i ∈ arguments
  state_mem : ∀ i, .state i ∈ arguments

namespace Schema

/-- Checks a declaration. -/
def ofDeclaration (d : Declaration) : Except SchemaError Schema :=
  match d.update with
  | none => .error (.missingUpdate d.unit)
  | some update =>
    match d.nameFault? <|> d.signalFault? <|> d.stateFault? with
    | some fault => .error fault
    | none =>
      if hlength : update.arguments.length ≤ maxArguments then
        match hbind : d.bindArguments [] update.arguments with
        | .error fault => .error fault
        | .ok arguments =>
          match hbound : d.unbound? arguments with
          | some port => .error (.unboundPort d.unit port)
          | none =>
            have hargs := d.bindArguments_ok hbind List.nodup_nil
            have hmem := d.mem_of_unbound?_eq_none hbound
            .ok {
              unit := d.unit
              inputs := d.inputs
              outputs := d.outputs
              states := d.states
              arguments
              update := update.run
              arguments_nodup := hargs.1
              arguments_length := by simpa [hargs.2] using hlength
              input_mem := hmem.1
              output_mem := hmem.2.1
              state_mem := hmem.2.2 }
      else .error (.tooManyArguments d.unit update.arguments.length)

variable (s : Schema)

/-- The index of the input of a name. -/
def inputIndex? (name : String) : Option (Fin s.inputs.length) :=
  s.inputs.findFinIdx? (·.name = name)

/-- The index of the output of a name. -/
def outputIndex? (name : String) : Option (Fin s.outputs.length) :=
  s.outputs.findFinIdx? (·.name = name)

/-- The index of the state cell of a name. -/
def stateIndex? (name : String) : Option (Fin s.states.length) :=
  s.states.findFinIdx? (·.name = name)

/-- The number of values a node of the unit keeps: its outputs and its state. -/
def valueCount : Nat := s.outputs.length + s.states.length

end Schema

end SignalGraph
