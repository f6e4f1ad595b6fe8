import SignalGraph.Unit.Declaration

/-!
# Arithmetic on signals

Units with two inputs, `left` and `right`, and one output.
-/

namespace SignalGraph.Catalog

/-- The unit that applies `op` to its inputs. -/
def binary (unit : String) (op : Binary32 → Binary32 → Binary32) : Declaration where
  unit
  inputs := [⟨"left", 0, .float⟩, ⟨"right", 0, .float⟩]
  outputs := [{ name := "output" }]
  update := some ⟨["left", "right", "output"], fun a => a.set 2 (op (a.get 0) (a.get 1))⟩

/-- The sum of two signals. -/
def add : Declaration := binary "add" (· + ·)

/-- The difference of two signals. -/
def subtract : Declaration := binary "subtract" (· - ·)

/-- The product of two signals. -/
def multiply : Declaration := binary "multiply" (· * ·)

end SignalGraph.Catalog
