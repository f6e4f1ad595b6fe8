import SignalGraph.Unit.Error

/-!
# Declarations

A declaration is what is written down to define a unit: ports, state, and an
update together with the names of its arguments. Nothing about it needs to be
right yet; `Schema.ofDeclaration` checks it. The functions here look at one
aspect each, and return the first fault they find.
-/

namespace SignalGraph

/-- An update: a function on frames and the names of its arguments. -/
structure Update where
  /-- The name of the port or global at each place of the frame. -/
  arguments : List String
  /-- What the update does to a frame. -/
  run : Frame → Frame

/-- The declaration of a unit. -/
structure Declaration where
  /-- The name of the unit. -/
  unit : String
  /-- The inputs, in order. -/
  inputs : List InputPort := []
  /-- The outputs, in order. -/
  outputs : List OutputPort := []
  /-- The state cells, in order. -/
  states : List StateCell := []
  /-- The update, if one is given. -/
  update : Option Update := none

namespace Declaration

variable (d : Declaration)

/-- The argument type of the declared update. -/
abbrev Argument : Type :=
  SignalGraph.Argument d.inputs.length d.outputs.length d.states.length

/-- The names of all ports: of inputs, then outputs, then state. -/
def portNames : List String :=
  d.inputs.map (·.name) ++ d.outputs.map (·.name) ++ d.states.map (·.name)

/-- The first of `names` that is a name in `seen`, an earlier one, or that of a
    global. -/
def firstRepeated? (seen : List String) : List String → Option String
  | [] => none
  | name :: names =>
    if name ∈ seen ∨ (Global.ofName? name).isSome then some name
    else firstRepeated? (name :: seen) names

/-- A fault in the names of the ports. -/
def nameFault? : Option SchemaError :=
  (firstRepeated? [] d.portNames).map (.duplicatePort d.unit)

/-- The names and types of the inputs and outputs. -/
def signals : List (String × ValueType) :=
  d.inputs.map (fun p => (p.name, p.type)) ++ d.outputs.map (fun p => (p.name, p.type))

/-- A fault in the types of the inputs and outputs: they carry signals. -/
def signalFault? : Option SchemaError :=
  (d.signals.find? (·.2 ≠ .float)).map fun p => .invalidValueType d.unit p.1 p.2

/-- A fault in one state cell: it has a type without values, or an initial value
    of another type. -/
def cellFault? (cell : StateCell) : Option SchemaError :=
  if cell.type = .enum 0 then some (.invalidValueType d.unit cell.name cell.type)
  else if cell.default.fits cell.type then none
  else some (.invalidDefault d.unit cell.name)

/-- A fault in the state cells. -/
def stateFault? : Option SchemaError := d.states.findSome? d.cellFault?

/-- The argument of a name. -/
def argument? (name : String) : Option d.Argument :=
  (Global.ofName? name).map .global
    <|> (d.inputs.findFinIdx? (·.name = name)).map .input
    <|> (d.outputs.findFinIdx? (·.name = name)).map .output
    <|> (d.states.findFinIdx? (·.name = name)).map .state

/-- The arguments of `names`, after those in `bound`. Each name must stand for
    an argument that has not been bound yet. -/
def bindArguments (bound : List d.Argument) : List String → Except SchemaError (List d.Argument)
  | [] => .ok bound
  | name :: names =>
    match d.argument? name with
    | none => .error (.unknownPort d.unit name)
    | some argument =>
      if argument ∈ bound then .error (.duplicateArgument d.unit name)
      else bindArguments (bound ++ [argument]) names

/-- The name of the first port that is not among `arguments`. -/
def unbound? (arguments : List d.Argument) : Option String :=
  let input? := (List.finRange d.inputs.length).find? (.input · ∉ arguments)
  let output? := (List.finRange d.outputs.length).find? (.output · ∉ arguments)
  let state? := (List.finRange d.states.length).find? (.state · ∉ arguments)
  input?.map (fun i => (d.inputs.get i).name)
    <|> output?.map (fun i => (d.outputs.get i).name)
    <|> state?.map (fun i => (d.states.get i).name)

/-- What is bound stays bound once, and each name binds one more argument. -/
theorem bindArguments_ok {bound : List d.Argument} {names : List String}
    {arguments : List d.Argument} (h : d.bindArguments bound names = .ok arguments)
    (hb : bound.Nodup) :
    arguments.Nodup ∧ arguments.length = bound.length + names.length := by
  induction names generalizing bound with
  | nil =>
    obtain rfl : bound = arguments := by simpa [bindArguments] using h
    exact ⟨hb, by simp⟩
  | cons name names ih =>
    rw [bindArguments] at h
    split at h
    · simp at h
    · split at h
      · simp at h
      · next argument _ hnew =>
        have hbound : (bound ++ [argument]).Nodup := by
          refine List.nodup_append.2 ⟨hb, by simp, fun a ha b hb => ?_⟩
          rw [List.mem_singleton.1 hb]
          exact fun h => hnew (h ▸ ha)
        have hrest := ih h hbound
        exact ⟨hrest.1, by simp at hrest ⊢; omega⟩

/-- If no port is unbound, all are bound. -/
theorem mem_of_unbound?_eq_none {arguments : List d.Argument} (h : d.unbound? arguments = none) :
    (∀ i, .input i ∈ arguments) ∧ (∀ i, .output i ∈ arguments) ∧ (∀ i, .state i ∈ arguments) := by
  simpa [unbound?] using h

end Declaration

end SignalGraph
