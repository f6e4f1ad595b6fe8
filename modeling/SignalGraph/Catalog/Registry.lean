import SignalGraph.Catalog.Wiring

/-!
# Registry

The units of the catalog by identifier, with what a host shows of them. Hosts that
build patches from data name units by their identifiers.
-/

namespace SignalGraph.Catalog

/-- The categories of units. -/
inductive Category where
  | source
  | arithmetic
  | oscillator
  | filter
  | envelope
deriving DecidableEq

namespace Category

/-- The name of a category. -/
def name : Category → String
  | source => "Source"
  | arithmetic => "Arithmetic"
  | oscillator => "Oscillator"
  | filter => "Filter"
  | envelope => "Envelope"

/-- What units of a category do. -/
def description : Category → String
  | source => "Constant values held in per-node state"
  | arithmetic => "Sum, difference and product of two signals"
  | oscillator => "Phase-accumulating waveform generators"
  | filter => "Low-pass and other smoothing filters"
  | envelope => "Gate-driven amplitude envelopes"

/-- All categories. -/
def all : List Category := [source, arithmetic, oscillator, filter, envelope]

/-- The category of a name. -/
def ofName? (name : String) : Option Category := all.find? (·.name = name)

end Category

/-- A unit in the registry. -/
structure Entry where
  /-- The identifier. -/
  id : String
  /-- The name to show. -/
  name : String
  /-- What the unit does. -/
  description : String
  /-- The category. -/
  category : Category
  /-- The unit. -/
  unit : Declaration

/-- Why a unit could not be had from the registry. -/
inductive RegistryError where
  /-- No unit has this identifier. -/
  | unknownUnit (id : String)
  /-- The unit is declared wrongly. -/
  | schema (cause : SchemaError)
deriving DecidableEq

/-- The wording of a reason. -/
def RegistryError.message : RegistryError → String
  | unknownUnit id => s!"unknown unit '{id}'"
  | schema cause => cause.message

/-- The units, in the order in which they are listed. -/
def entries : List Entry := [
  ⟨"constant", "Constant", "Outputs its per-instance value every tick", .source, constant⟩,
  ⟨"add", "Add", "left + right", .arithmetic, add⟩,
  ⟨"subtract", "Subtract", "left - right", .arithmetic, subtract⟩,
  ⟨"multiply", "Multiply", "left * right", .arithmetic, multiply⟩,
  ⟨"sine", "Sine Oscillator", "Sine wave scaled into [min, max]", .oscillator, oscillator .sine⟩,
  ⟨"square", "Square Oscillator", "50% duty square wave scaled into [min, max]", .oscillator,
    oscillator .square⟩,
  ⟨"lowpass", "Low Pass", "One-pole RC low-pass filter", .filter, lowpass⟩,
  ⟨"adsr", "ADSR", "Linear attack/decay/sustain/release envelope", .envelope, adsr⟩]

/-- The unit of an identifier. -/
def entry? (id : String) : Option Entry := entries.find? (·.id = id)

/-- The units of a category. -/
def inCategory (category : Category) : List Entry := entries.filter (·.category = category)

/-- The schema of the unit of an identifier. -/
def schema (id : String) : Except RegistryError Schema :=
  match entry? id with
  | none => .error (.unknownUnit id)
  | some entry => (Schema.ofDeclaration entry.unit).mapError .schema

/-- Adds a node of the unit of an identifier. -/
def insert (id : String) : Edit RegistryError NodeId := do
  match schema id with
  | .ok schema => Patch.insert schema
  | .error fault => throw fault

/-- The index of the input of a name, small and capital letters of ASCII taken for
    the same. -/
def inputIndex? (id name : String) : Option Nat :=
  match schema id with
  | .ok schema => schema.inputs.findIdx? (·.name.toLower = name.toLower)
  | .error _ => none

end SignalGraph.Catalog
