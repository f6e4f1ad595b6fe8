import SignalGraph.Unit.Declaration

/-!
# Low-pass filter

One pole, as of a resistor and a capacitor: each tick the output goes towards the
input by the fraction `dt / (rc + dt)` of the way, with `rc = 1 / (2π · cutoff)`.
-/

namespace SignalGraph.Catalog

namespace LowPass

/-- The output after a tick of `dt` seconds, `previous` being the one before.
    A cutoff that is zero, negative or not a number silences the filter. If the
    time constant and the tick add up to nothing, or to nothing finite, the output
    stays where it is. -/
def step (input cutoff dt previous : Binary32) : Binary32 :=
  if cutoff.isNaN ∨ cutoff ≤ 0 then 0
  else
    let rc := 1 / (Binary32.tau * cutoff)
    let span := rc + dt
    if span ≤ 0 ∨ ¬span.isFinite then previous
    else
      let fraction := (dt / span).clamp 0 1
      previous + fraction * (input - previous)

end LowPass

/-- The low-pass filter. -/
def lowpass : Declaration where
  unit := "lowpass"
  inputs := [⟨"input", 0, .float⟩, ⟨"cutoff", 1000, .float⟩]
  outputs := [{ name := "output", access := .readWrite }]
  update := some
    ⟨["input", "cutoff", "output", "delta_time"],
      fun a => a.set 2 (LowPass.step (a.get 0) (a.get 1) (a.get 3) (a.get 2))⟩

end SignalGraph.Catalog
