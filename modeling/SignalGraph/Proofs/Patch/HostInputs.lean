import SignalGraph.Proofs.Patch.Editing

/-!
# Host inputs of a patch

A host input is a node like others, and calls may rebind it or let it start from another
value. But it has no inputs, and its state takes signal values only, so what calls make of
it is a host input again (`Patch.honours_isExternal`). The list of host inputs grows by the
one call that adds a node for it, which is a new node (`Patch.Call.externals_cases`).

So whatever calls a patch has been made by, its host inputs are different nodes that put out
what they hold (`Patch.Built.listsInputs`).
-/

namespace SignalGraph

variable {ε α : Type} {word : Binary32}

/-! ## Nodes -/

/-- There are no inputs to bind. -/
theorem Node.external_rewire (inputs : Vector Binding (external word).schema.inputs.length) :
    { external word with inputs } = external word := by
  have hinputs : inputs = (external word).inputs := Vector.ext fun i hi => absurd hi i.not_lt_zero
  rw [hinputs]

/-- The one state starts from a signal value. -/
theorem Node.external_restate {index : Nat}
    (hindex : index < (external word).schema.states.length) {value : StateValue}
    (hvalue : value.fits (external word).schema.states[index].type) :
    ∃ word', { external word with states := (external word).states.set index value } =
      external word' := by
  obtain rfl : index = 0 := Nat.lt_one_iff.1 hindex
  cases value with
  | float word' => exact ⟨word', rfl⟩
  | int value => cases hvalue

namespace Patch

open Edit

variable {patch patch' : Patch} {id id' : NodeId} {node : Node}

/-- The node is there, and puts out what it holds. -/
def IsExternal (id : NodeId) (patch : Patch) : Prop :=
  ∃ word, patch.node? id = some (.external word)

theorem IsExternal.exists_eq (h : patch.IsExternal id) (hnode : patch.node? id = some node) :
    ∃ word, node = .external word := by
  obtain ⟨word, hword⟩ := h
  exact ⟨word, Option.some.inj (hnode.symm.trans hword)⟩

theorem IsExternal.extend (h : patch.IsExternal id) (hext : patch.Extends patch') :
    patch'.IsExternal id := by
  obtain ⟨word, hnode⟩ := h
  exact ⟨word, hext.node?_eq id _ hnode⟩

theorem IsExternal.set (h : patch.IsExternal id)
    (hnode : id' = id → ∃ word, node = .external word) :
    IsExternal id { patch with nodes := patch.nodes.setIfInBounds id'.index node } := by
  obtain ⟨word, hold⟩ := h
  by_cases hid : id' = id
  · subst hid
    obtain ⟨word', rfl⟩ := hnode rfl
    exact ⟨word', Array.getElem?_setIfInBounds_self_of_lt (Array.getElem?_eq_some_iff.1 hold).1⟩
  · refine ⟨word, (Array.getElem?_setIfInBounds_ne fun hindex => hid ?_).trans hold⟩
    exact congrArg NodeId.mk hindex

/-! ## Calls -/

/-- What has been a host input stays one, even if it is the node that is changed. -/
theorem honours_isExternal (id : NodeId) :
    Honours (IsExternal id) (fun _ => IsExternal id) (fun _ => True) fun _ => True where
  refl h := h
  trans _ h := h
  pre _ h := h
  fresh _ _ := trivial
  insert _ _ h := h.extend (extends_push _ _)
  rewire _ hold hnode inputs _ h := by
    refine h.set fun hid => ?_
    obtain ⟨word, rfl⟩ := hold.exists_eq (hid ▸ hnode)
    exact ⟨word, Node.external_rewire inputs⟩
  restate _ hold hnode _ hindex _ hvalue _ h := by
    refine h.set fun hid => ?_
    obtain ⟨word, rfl⟩ := hold.exists_eq (hid ▸ hnode)
    exact Node.external_restate hindex hvalue
  external word _ patch h := by
    rw [after_external]
    exact h.extend (extends_withExternal patch word)

/-- What is not about host inputs does not list any. -/
theorem honours_externals :
    Honours (fun _ => True) (fun patch patch' => patch'.externals = patch.externals)
      (fun _ => True) fun _ => False where
  refl _ := rfl
  trans h h' := h'.trans h
  pre _ _ := trivial
  fresh _ _ := trivial
  insert _ _ _ := rfl
  rewire _ _ _ _ _ _ := rfl
  restate _ _ _ _ _ _ _ _ _ := rfl
  external _ h := h.elim

theorem Call.externals_eq (call : Call ε α) (hgiven : call.given = []) (patch : Patch) :
    (call.edit.after patch).externals = patch.externals :=
  honours_externals.edit call (fun _ _ => trivial) (by simp [hgiven]) patch trivial

/-- A call lists no host input, or it adds one. -/
theorem Call.externals_cases (call : Call ε α) (patch : Patch) :
    (call.edit.after patch).externals = patch.externals ∨
      ∃ word, call.edit.after patch = patch.withExternal word := by
  cases call with
  | external word => exact .inr ⟨word, after_external word patch⟩
  | _ => exact .inl (externals_eq _ rfl patch)

/-- The host inputs are different nodes that put out what they hold. -/
structure ListsInputs (patch : Patch) : Prop where
  isExternal : ∀ (i : Nat) id, patch.externals[i]? = some id → patch.IsExternal id
  external_inj : ∀ (i j : Nat) id, patch.externals[i]? = some id →
    patch.externals[j]? = some id → i = j

theorem ListsInputs.of_externals_eq (h : patch.ListsInputs)
    (hexternals : patch'.externals = patch.externals)
    (hkeeps : ∀ id, patch.IsExternal id → patch'.IsExternal id) : patch'.ListsInputs where
  isExternal i id hi := hkeeps id (h.isExternal i id (hexternals ▸ hi))
  external_inj i j id hi hj := h.external_inj i j id (hexternals ▸ hi) (hexternals ▸ hj)

theorem ListsInputs.withExternal (h : patch.ListsInputs) (word : Binary32) :
    (patch.withExternal word).ListsInputs where
  isExternal i id hi := by
    rw [getElem?_externals_withExternal] at hi
    split at hi
    · cases hi
      exact ⟨word, node?_push_self ..⟩
    · exact (h.isExternal i id hi).extend (extends_withExternal patch word)
  external_inj := external_inj_withExternal h.external_inj fun i hi => by
    obtain ⟨_, hnode⟩ := h.isExternal i _ hi
    exact Nat.lt_irrefl _ (Array.getElem?_eq_some_iff.1 hnode).1

theorem Edited.listsInputs {s : NodeId → Prop} (h : Edited s {} patch) : patch.ListsInputs := by
  induction h with
  | refl => exact ⟨nofun, nofun⟩
  | insert schema _ ih =>
    exact ih.of_externals_eq rfl fun id hid => hid.extend (extends_push _ _)
  | @call between _ _ call _ _ ih =>
    rcases call.externals_cases between with hexternals | ⟨word, hadded⟩
    · refine ih.of_externals_eq hexternals fun id hid => ?_
      exact (honours_isExternal id).edit call (fun _ _ => trivial) (fun _ _ => trivial) _ hid
    · exact hadded ▸ ih.withExternal word

/-- Host inputs of a patch that has been made by calls are different nodes that put out what
    they hold. -/
theorem Built.listsInputs (h : patch.Built) : patch.ListsInputs := Edited.listsInputs h

theorem Built.withExternal (h : patch.Built) (word : Binary32) :
    (patch.withExternal word).Built :=
  after_external word patch ▸ h.call (.external word) nofun

end Patch

end SignalGraph
