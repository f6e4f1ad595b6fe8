import SignalGraph.Binary.Basic

/-!
# Clocks

A clock counts ticks and adds up their lengths. The sum is kept in 64 bits, so
that it does not lose short ticks as it grows.
-/

namespace SignalGraph

/-- The ticks of an engine since it was created or reset. -/
structure Clock where
  /-- How many there were. -/
  ticks : Nat := 0
  /-- The seconds they took. -/
  elapsed : Binary64 := 0
deriving DecidableEq

/-- Counts a tick of so many seconds. -/
def Clock.advance (clock : Clock) (deltaTime : Binary32) : Clock :=
  ⟨clock.ticks + 1, clock.elapsed + deltaTime.convert .double⟩

end SignalGraph
