import SignalGraph.Proofs.Patch.Addition
import SignalGraph.Proofs.Resolution.Dependency

/-!
# Constants that come from a node

An input that reads a constant may as well read a new node of this value
(`Patch.connectConstant`). The patch has one more node then, and everything else of it is as
before (`Patch.Supplied`). The new node waits for nothing, so what could be resolved before
can still be resolved (`Patch.Supplied.resolvable`).
-/

namespace SignalGraph

namespace Patch

open Edit Relation

variable {patch patch' : Patch} {roots : List OutputRef} {id other : NodeId} {node : Node}
  {value : Binary32} {b : Binding} {source : OutputRef}

/-- Lets the input of an index read a new node of constant value. -/
def connectConstant (id : NodeId) (index : Nat) (value : Binary32) : Edit GraphError Unit := do
  connectAt id index (.output (← constant value))

/-- The name of the node that is added next. -/
def nextId (patch : Patch) : NodeId := ⟨patch.nodes.size⟩

theorem ne_nextId (hnode : patch.node? id = some node) : id ≠ patch.nextId := by
  rintro rfl
  exact Nat.lt_irrefl _ (Array.getElem?_eq_some_iff.1 hnode).1

/-- The second patch has one more node, of constant value, which may be read by inputs that
    are bound to this constant in the first patch. -/
structure Supplied (value : Binary32) (patch patch' : Patch) : Prop where
  size_eq : patch'.nodes.size = patch.nodes.size + 1
  externals_eq : patch'.externals = patch.externals
  nextId_eq : patch'.node? patch.nextId = some (.constant value)
  node?_eq : ∀ id node, patch.node? id = some node → ∃ inputs,
    patch'.node? id = some { node with inputs } ∧ ∀ i, inputs.get i = node.inputs.get i ∨
      node.inputs.get i = .constant value ∧ inputs.get i = .output (patch.nextId.output 0)

/-! ## Supplying an input -/

theorem node?_withConstant_nextId (patch : Patch) (value : Binary32) :
    (patch.withConstant value).node? patch.nextId = some (.constant value) := by
  simp [node?, withConstant, nextId]

theorem node?_withConstant (hnode : patch.node? id = some node) (value : Binary32) :
    (patch.withConstant value).node? id = some node :=
  (extends_push patch _).node?_eq id node hnode

/-- A constant can be supplied by a node, if its value is finite. -/
theorem exists_run_connectConstant {index : Nat} (hvalue : value.isFinite)
    (hbinding : patch.binding? id index = some (.constant value)) :
    ∃ patch', (connectConstant id index value).run patch = .ok () patch' ∧
      Supplied value patch patch' := by
  obtain ⟨node, hnode, hinput⟩ := Option.bind_eq_some_iff.1 hbinding
  obtain ⟨hindex, hinput⟩ := Vector.getElem?_eq_some_iff.1 hinput
  have hconstant := (run_constant value patch).trans (if_pos hvalue)
  have hconnect := run_connectAt (node?_withConstant hnode value) hindex
    (.output (patch.nextId.output 0))
  refine ⟨_, run_bind_eq_ok_iff.2 ⟨_, _, hconstant, hconnect⟩, by simp [withConstant], rfl, ?_,
    fun id' node' hnode' => ?_⟩
  · rw [← node?_withConstant_nextId patch value]
    exact Array.getElem?_setIfInBounds_ne fun heq => ne_nextId hnode (congrArg NodeId.mk heq)
  · have hold := node?_withConstant hnode' value
    by_cases hid : id' = id
    · subst hid
      obtain rfl := Option.some.inj (hnode.symm.trans hnode')
      refine ⟨_, Array.getElem?_setIfInBounds_self_of_lt (Array.getElem?_eq_some_iff.1 hold).1,
        fun i => ?_⟩
      by_cases hi : index = i
      · subst hi
        exact .inr ⟨hinput, Vector.getElem_set_self _⟩
      · exact .inl (Vector.getElem_set_ne _ _ hi)
    · refine ⟨node'.inputs, ?_, fun i => .inl rfl⟩
      rw [← hold]
      exact Array.getElem?_setIfInBounds_ne fun heq => hid (congrArg NodeId.mk heq.symm)

namespace Supplied

variable (h : Supplied value patch patch')
include h

/-! ## What contributes -/

/-- The new node refers to nothing. -/
theorem not_binds : ¬patch'.Binds patch.nextId b := by
  intro hb
  obtain ⟨node, hnode, i, -⟩ := binds_iff.1 hb
  obtain rfl := Option.some.inj (h.nextId_eq.symm.trans hnode)
  exact i.elim0

/-- A node is the new one, or it was there before. -/
theorem exists_node {node' : Node} (hnode' : patch'.node? id = some node') :
    id = patch.nextId ∨ ∃ node, patch.node? id = some node := by
  have hlt : id.index < patch'.nodes.size := (Array.getElem?_eq_some_iff.1 hnode').1
  rw [h.size_eq, Nat.lt_succ_iff_lt_or_eq] at hlt
  rcases hlt with hlt | heq
  · exact .inr ⟨_, Array.getElem?_eq_getElem hlt⟩
  · exact .inl (congrArg NodeId.mk heq)

/-- A node refers to what it has referred to, unless it is supplied. -/
theorem binds_cases (hb : patch'.Binds id b) :
    patch.Binds id b ∨ b = .output (patch.nextId.output 0) := by
  obtain ⟨node', hnode', i, rfl⟩ := binds_iff.1 hb
  rcases h.exists_node hnode' with rfl | ⟨node, hnode⟩
  · exact absurd hb h.not_binds
  · obtain ⟨inputs, hinputs, hcases⟩ := h.node?_eq id node hnode
    obtain rfl := Option.some.inj (hinputs.symm.trans hnode')
    rcases hcases i with hsame | ⟨-, hnew⟩
    · exact .inl (hsame ▸ binds_get hnode i)
    · exact .inr hnew

/-- Only constants are supplied. -/
theorem binds (hb : patch.Binds id b) (hs : b.source? = some source) : patch'.Binds id b := by
  obtain ⟨node, hnode, i, rfl⟩ := binds_iff.1 hb
  obtain ⟨inputs, hinputs, hcases⟩ := h.node?_eq id node hnode
  rcases hcases i with hsame | ⟨hconstant, -⟩
  · exact hsame ▸ binds_get hinputs i
  · rw [hconstant] at hs
    cases hs

theorem containsOutput (hsource : patch.containsOutput source) :
    patch'.containsOutput source := by
  obtain ⟨node, hnode, hlt⟩ := containsOutput_iff.1 hsource
  obtain ⟨inputs, hinputs, -⟩ := h.node?_eq _ node hnode
  exact containsOutput_iff.2 ⟨_, hinputs, hlt⟩

theorem containsOutput_nextId : patch'.containsOutput (patch.nextId.output 0) :=
  containsOutput_iff.2 ⟨_, h.nextId_eq, Nat.zero_lt_one⟩

theorem reachable (hid : patch.Reachable roots id) : patch'.Reachable roots id := by
  induction hid with
  | root hroot => exact .root hroot
  | source _ hb hs ih => exact ih.source (h.binds hb hs) hs

/-- Nothing else contributes than before, but for the new node. -/
theorem reachable_cases (hid : patch'.Reachable roots id) :
    id = patch.nextId ∨ patch.Reachable roots id := by
  induction hid with
  | root hroot => exact .inr (.root hroot)
  | @source id b output _ hb hs ih =>
    rcases ih with rfl | hreach
    · exact absurd hb h.not_binds
    · rcases h.binds_cases hb with hold | rfl
      · exact .inr (hreach.source hold hs)
      · obtain rfl := Option.some.inj hs
        exact .inl rfl

theorem awaits (hawaits : patch'.Awaits id other) (hother : other ≠ patch.nextId) :
    patch.Awaits id other := by
  obtain ⟨source, hreads, rfl⟩ := hawaits
  rcases h.binds_cases hreads with hold | hnew
  · exact ⟨source, hold, rfl⟩
  · obtain rfl := Binding.output.inj hnew
    exact absurd rfl hother

/-- Nodes wait for the new node, which waits for none. -/
theorem transGen_awaits (hawaits : TransGen patch'.Awaits id other)
    (hother : other ≠ patch.nextId) : TransGen patch.Awaits id other := by
  induction hawaits with
  | single hawaits => exact .single (h.awaits hawaits hother)
  | @tail between other _ hawaits ih =>
    have hbetween : between ≠ patch.nextId := by
      rintro rfl
      obtain ⟨source, hreads, -⟩ := hawaits
      exact h.not_binds hreads
    exact .tail (ih hbetween) (h.awaits hawaits hother)

/-- What could be resolved before can still be resolved. -/
theorem resolvable (hp : patch.Resolvable roots) : patch'.Resolvable roots where
  roots_ne_nil := hp.roots_ne_nil
  root_exists output hroot := h.containsOutput (hp.root_exists output hroot)
  source_exists id hid b output hb hs := by
    rcases h.reachable_cases hid with rfl | hreach
    · exact absurd hb h.not_binds
    · rcases h.binds_cases hb with hold | rfl
      · exact h.containsOutput (hp.source_exists id hreach b output hold hs)
      · obtain rfl := Option.some.inj hs
        exact h.containsOutput_nextId
  acyclic id hid hcircle := by
    rcases h.reachable_cases hid with rfl | hreach
    · obtain ⟨_, ⟨source, hreads, -⟩, -⟩ := TransGen.head'_iff.1 hcircle
      exact h.not_binds hreads
    · obtain ⟨node, hnode⟩ := hp.exists_node hreach
      exact hp.acyclic id hreach (h.transGen_awaits hcircle (ne_nextId hnode))

end Supplied

end Patch

end SignalGraph
