import SignalGraph.Catalog.Registry
import SignalGraph.Engine.Basic
import SignalGraph.Evaluator
import SignalGraph.Plan.Log
import SignalGraph.Proofs.Engine.Constant
import SignalGraph.Proofs.Engine.Renaming
import SignalGraph.Proofs.Engine.Roots
import SignalGraph.Proofs.Engine.Synchrony
import SignalGraph.Proofs.Engine.Totality
import SignalGraph.Proofs.Plan.Irrelevance
import SignalGraph.Proofs.Plan.Persistence
import SignalGraph.Proofs.Resolution.Circle
import SignalGraph.Proofs.Resolution.BreadthFirst
import SignalGraph.Proofs.Resolution.Greedy
import SignalGraph.Proofs.Patch.Addition
import SignalGraph.Proofs.Patch.StateValues
import SignalGraph.Proofs.Patch.Expression
import SignalGraph.Proofs.Engine.Expression
import SignalGraph.Proofs.Plan.Allocation
import SignalGraph.Proofs.Resolution.Reference
import SignalGraph.Proofs.Patch.HostInputs
import SignalGraph.Proofs.Engine.HostInputs
import SignalGraph.Proofs.Engine.Rendering
import SignalGraph.Proofs.Binary.Rounding
import SignalGraph.Proofs.Binary.Value
import SignalGraph.Proofs.Binary.Arithmetic
import SignalGraph.Proofs.Catalog.Envelope
import SignalGraph.Proofs.Catalog.ZeroTimes
import SignalGraph.Proofs.Engine.Envelope
import SignalGraph.Proofs.Engine.Fresh
import SignalGraph.Proofs.Resolution.Pending
import SignalGraph.Proofs.Binary.Accuracy
import SignalGraph.Proofs.Catalog.LowPass
import SignalGraph.Proofs.Catalog.Oscillator
import SignalGraph.Proofs.Engine.LowPass
import SignalGraph.Proofs.Engine.Oscillator
