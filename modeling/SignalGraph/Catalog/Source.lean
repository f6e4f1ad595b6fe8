import SignalGraph.Unit.Declaration

/-!
# Sources

The unit that has one value always.
-/

namespace SignalGraph.Catalog

/-- A constant: its output is its state, which nothing changes. -/
def constant : Declaration where
  unit := "constant"
  states := [.float "value" 0]
  outputs := [{ name := "output" }]
  update := some ⟨["value", "output"], fun a => a.set 1 (a.get 0)⟩

end SignalGraph.Catalog
