import SignalGraph.Catalog.Arithmetic
import SignalGraph.Catalog.Envelope
import SignalGraph.Catalog.LowPass
import SignalGraph.Catalog.Oscillator
import SignalGraph.Catalog.Source
import SignalGraph.Patch.Basic

/-!
# Building patches like expressions

Each function adds one node of the catalog, lets its inputs read what it is given,
in order, and gives the output of the node, to be read by others in turn.
-/

namespace SignalGraph.Patch

/-- Adds a node whose inputs read `inputs`, and gives its first output. -/
def wire (unit : Declaration) (inputs : List Binding) : Edit GraphError OutputRef := do
  let id ← insertUnit unit
  inputs.zipIdx.forM fun (binding, index) => connectAt id index binding
  pure (id.output 0)

/-- A node of constant value. The node is there before its value is checked. -/
def constant (value : Binary32) : Edit GraphError OutputRef := do
  let output ← wire Catalog.constant []
  setState output.node "value" (.float value)
  pure output

/-- The sum of two signals. -/
def sum (left right : Binding) : Edit GraphError OutputRef := wire Catalog.add [left, right]

/-- The difference of two signals. -/
def difference (left right : Binding) : Edit GraphError OutputRef :=
  wire Catalog.subtract [left, right]

/-- The product of two signals. -/
def product (left right : Binding) : Edit GraphError OutputRef :=
  wire Catalog.multiply [left, right]

/-- An oscillator between two levels. -/
def oscillator (w : Catalog.Waveform) (frequency min max : Binding) : Edit GraphError OutputRef :=
  wire (Catalog.oscillator w) [frequency, min, max]

/-- A sine from `-1` to `1`. -/
def sine (frequency : Binding) : Edit GraphError OutputRef :=
  oscillator .sine frequency (.constant (-1)) (.constant 1)

/-- A square wave from `-1` to `1`. -/
def square (frequency : Binding) : Edit GraphError OutputRef :=
  oscillator .square frequency (.constant (-1)) (.constant 1)

/-- A low-pass filter. -/
def lowpass (input cutoff : Binding) : Edit GraphError OutputRef :=
  wire Catalog.lowpass [input, cutoff]

/-- An envelope. -/
def adsr (gate attack decay sustain release : Binding) : Edit GraphError OutputRef :=
  wire Catalog.adsr [gate, attack, decay, sustain, release]

end SignalGraph.Patch
