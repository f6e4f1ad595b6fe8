import SignalGraph.Binary.Sine
import SignalGraph.Unit.Declaration

/-!
# Oscillators

An oscillator keeps a phase in radians, which each tick advances by
`dt · frequency` turns and wraps into one turn. A waveform is evaluated at the new
phase, and its range `[-1, 1]` is mapped onto `[min, max]`.
-/

namespace SignalGraph.Catalog

open Binary32 (pi tau)

/-- The shape of one turn of an oscillator. -/
structure Waveform where
  /-- The name of the oscillator that has this shape. -/
  name : String
  /-- The amplitude at a phase, from `-1` to `1`. -/
  shape : Binary32 → Binary32

/-- The sine, as `Binary32.sine` evaluates it. -/
def Waveform.sine : Waveform := ⟨"sine", Binary32.sine⟩

/-- One up to half a turn, minus one beyond. -/
def Waveform.square : Waveform := ⟨"square", fun phase => if phase ≤ pi then 1 else -1⟩

namespace Oscillator

/-- What remains of a phase after whole turns. A phase that is not finite, and one
    that comes to a whole turn by rounding, starts again from zero. -/
def wrap (phase : Binary32) : Binary32 :=
  if phase.isFinite then
    let rest := phase - tau * (phase / tau).floor
    -- Two operations have rounded: the rest may miss its turn on either side.
    let rest := if rest < 0 then rest + tau else rest
    if rest ≥ tau then 0 else rest
  else 0

/-- The phase after a tick. -/
def advance (phase frequency dt : Binary32) : Binary32 := wrap (phase + dt * frequency * tau)

/-- The output at a phase. -/
def output (w : Waveform) (phase min max : Binary32) : Binary32 :=
  min + (max - min) * (w.shape phase + 1) * 0.5

/-- The update of an oscillator, on a frame of frequency, range, phase, output and
    length of the tick. -/
def update (w : Waveform) (a : Frame) : Frame :=
  let phase := advance (a.get 3) (a.get 0) (a.get 5)
  (a.set 3 phase).set 4 (output w phase (a.get 1) (a.get 2))

end Oscillator

/-- The oscillator of a waveform. -/
def oscillator (w : Waveform) : Declaration where
  unit := w.name
  inputs := [⟨"frequency", 1, .float⟩, ⟨"min", -1, .float⟩, ⟨"max", 1, .float⟩]
  states := [.float "phase" 0]
  outputs := [{ name := "output" }]
  update := some
    ⟨["frequency", "min", "max", "phase", "output", "delta_time"], Oscillator.update w⟩

end SignalGraph.Catalog
