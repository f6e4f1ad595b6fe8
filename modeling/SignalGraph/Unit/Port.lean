import SignalGraph.Binary.Basic

/-!
# Ports

What a unit of a signal graph declares about itself: the inputs it reads, the
outputs it writes, the state it keeps from tick to tick, and the arguments its
update takes. Inputs and outputs carry signals; state may also be a whole
number or one of finitely many variants, kept in a signal word bit for bit
(`StateValue.toWord`).
-/

namespace SignalGraph

/-- The type of the values of a port. -/
inductive ValueType where
  /-- A signal value. -/
  | float
  /-- A whole number of 32 bits (state only). -/
  | int
  /-- One of the variants `0`, …, `variants - 1` (state only). -/
  | enum (variants : Nat)
deriving DecidableEq

/-- The text of a type in messages. -/
def ValueType.text : ValueType → String
  | .float => "Float"
  | .int => "Int"
  | .enum variants => "Enum \x7b variants: " ++ toString variants ++ " \x7d"

/-- An initial value of state. -/
inductive StateValue where
  /-- A signal value. -/
  | float (value : Binary32)
  /-- A whole number or the number of a variant. -/
  | int (value : Int32)
deriving DecidableEq

namespace StateValue

/-- The word that holds the value: whole numbers are kept as bits. -/
def toWord : StateValue → Binary32
  | float value => value
  | int value => .ofInt32 value

/-- The value of the given type that a word holds. -/
def ofWord (word : Binary32) : ValueType → StateValue
  | .float => float word
  | .int | .enum _ => int word.toInt32

/-- Is this a value of the given type? Signal values must be finite, variants
    among those declared. -/
def fits : StateValue → ValueType → Bool
  | float value, .float => value.isFinite
  | int _, .int => true
  | int value, .enum variants => 0 ≤ value.toInt && value.toInt < variants
  | _, _ => false

/-- A value that fits its type is read back from its word. -/
theorem ofWord_toWord {value : StateValue} {type : ValueType} (h : value.fits type = true) :
    ofWord value.toWord type = value := by
  cases value <;> cases type <;> simp_all [fits, ofWord, toWord]

end StateValue

/-- How an update treats an output. -/
inductive Access where
  /-- It overwrites the output, and finds zero in its place. -/
  | write
  /-- It finds the value of the previous tick, and overwrites it. -/
  | readWrite
deriving DecidableEq

/-- An input port. -/
structure InputPort where
  /-- The name, unique in the unit. -/
  name : String
  /-- What the input reads until it is bound. -/
  default : Binary32
  /-- The type of its values. -/
  type : ValueType := .float

/-- An output port. -/
structure OutputPort where
  /-- The name, unique in the unit. -/
  name : String
  /-- The type of its values. -/
  type : ValueType := .float
  /-- Whether the update reads the output before it writes it. -/
  access : Access := .write

/-- A state cell. -/
structure StateCell where
  /-- The name, unique in the unit. -/
  name : String
  /-- The type of its values. -/
  type : ValueType
  /-- The value it starts from, unless a node overrides it. -/
  default : StateValue

namespace StateCell

/-- A cell for a signal value. -/
def float (name : String) (default : Binary32) : StateCell := ⟨name, .float, .float default⟩

/-- A cell for a whole number. -/
def int (name : String) (default : Int32) : StateCell := ⟨name, .int, .int default⟩

/-- A cell for one of finitely many variants. -/
def enum (name : String) (variants : Nat) (default : Int32) : StateCell :=
  ⟨name, .enum variants, .int default⟩

end StateCell

/-- A value that all nodes share during a tick. -/
inductive Global where
  /-- The seconds since the previous tick. -/
  | deltaTime
deriving DecidableEq

namespace Global

/-- All globals. -/
def all : List Global := [deltaTime]

/-- The name by which an update asks for a global. -/
def name : Global → String
  | deltaTime => "delta_time"

/-- The global of a name. -/
def ofName? (name : String) : Option Global := all.find? (·.name = name)

end Global

/-- An argument of the update of a unit with so many inputs, outputs and state
    cells. -/
inductive Argument (inputs outputs states : Nat) where
  /-- An input, by index. -/
  | input (index : Fin inputs)
  /-- An output, by index. -/
  | output (index : Fin outputs)
  /-- A state cell, by index. -/
  | state (index : Fin states)
  /-- A global. -/
  | global (which : Global)
deriving DecidableEq

end SignalGraph
