import SignalGraph.Proofs.Patch.Addition
import SignalGraph.Proofs.Plan.Equations

/-!
# The equations of simple nodes

What a tick makes of nodes that hold a value, and of nodes that apply an operation to two
signals.
-/

namespace SignalGraph

variable {patch : Patch} {globals : Globals} {v w : Valuation} {id : NodeId} {unit : String}
  {word : Binary32}

/-- What an input finds in a tick from old to new values. -/
def Binding.read (old new : Valuation) : Binding → Binary32
  | constant value => value
  | output source => new (.output source)
  | feedback source => old (.output source)

/-! ## Holding a value -/

namespace Patch

theorem state_mem_keysOf_holder (hnode : patch.node? id = some (.holder unit word)) :
    .state id 0 ∈ patch.keysOf id := by
  rw [keysOf_of_node hnode]
  simp [Layout.nodeKeys, Node.holder, Schema.holder, Schema.constant]

theorem output_mem_keysOf_holder (hnode : patch.node? id = some (.holder unit word)) :
    .output (id.output 0) ∈ patch.keysOf id := by
  rw [keysOf_of_node hnode]
  simp [Layout.nodeKeys, Node.holder, Schema.holder, Schema.constant]

theorem initialWord_holder (hnode : patch.node? id = some (.holder unit word)) :
    patch.initialWord (.state id 0) = word := by
  rw [initialWord, stateValue?, hnode]
  rfl

end Patch

/-- A node that holds a value keeps it, and puts it out. -/
theorem Node.holder_of_updates (hnode : patch.node? id = some (.holder unit word))
    (hupdates : patch.Updates globals v w id) :
    w (.state id 0) = v (.state id 0) ∧ w (.output (id.output 0)) = v (.state id 0) := by
  have harguments : (holder unit word).schema.arguments =
      [.state (0 : Fin 1), .output (0 : Fin 1)] := rfl
  have hstate : w (.state id 0) = ((holder unit word).answer globals v w id).get 0 :=
    hupdates.eq hnode (congrArg (·[0]?) harguments) rfl
  have houtput : w (.output (id.output 0)) = ((holder unit word).answer globals v w id).get 1 :=
    hupdates.eq hnode (congrArg (·[1]?) harguments) rfl
  have hanswer : (holder unit word).answer globals v w id =
      (Frame.ofList [v (.state id 0), 0]).set 1 ((Frame.ofList [v (.state id 0), 0]).get 0) := rfl
  rw [hstate, houtput, hanswer]
  simp [Frame.get_set, Frame.get_ofList, maxArguments]

/-! ## Applying an operation -/

/-- A node that applies an operation puts out what the operation makes of what it reads. -/
theorem Node.binary_of_updates {op : Binary32 → Binary32 → Binary32} {left right : Binding}
    (hnode : patch.node? id = some (.binary unit op left right))
    (hupdates : patch.Updates globals v w id) :
    w (.output (id.output 0)) = op (left.read v w) (right.read v w) := by
  have harguments : (binary unit op left right).schema.arguments =
      [.input (0 : Fin 2), .input (1 : Fin 2), .output (0 : Fin 1)] := rfl
  have houtput : w (.output (id.output 0)) =
      ((binary unit op left right).answer globals v w id).get 2 :=
    hupdates.eq hnode (congrArg (·[2]?) harguments) rfl
  let arguments : List Binary32 := [left.read v w, right.read v w, 0]
  have hanswer : (binary unit op left right).answer globals v w id =
      (Frame.ofList arguments).set 2
        (op ((Frame.ofList arguments).get 0) ((Frame.ofList arguments).get 1)) := by
    cases left <;> cases right <;> rfl
  rw [houtput, hanswer]
  simp [Frame.get_set, Frame.get_ofList, maxArguments, arguments]

end SignalGraph
