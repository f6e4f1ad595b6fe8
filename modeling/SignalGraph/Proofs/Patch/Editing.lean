import SignalGraph.Proofs.Patch.Contract

/-!
# What edits leave alone

A patch is made by calls, one after the other, refused ones included (`Patch.Edited`).
Calls add nodes and host inputs at the end, and change the one node that they name, so
that a patch which has been edited further still has all nodes that no call named
(`Patch.Edited.spares`). Calls that add a node and then wire it up name none: the node
that they change is new.

In particular, host inputs of a patch that has been made by calls are nodes of it
(`Patch.Built.external_lt`).
-/

namespace SignalGraph

variable {ε α : Type} {s : NodeId → Prop} {patch between patch' : Patch}

namespace Patch

/-- The nodes named by `s` are there. -/
def Has (s : NodeId → Prop) (patch : Patch) : Prop := ∀ id, s id → id.index < patch.nodes.size

/-- The nodes named by `s` are as they were, and host inputs that have been added are
    other nodes. -/
structure Spares (s : NodeId → Prop) (patch patch' : Patch) : Prop where
  size_le : patch.nodes.size ≤ patch'.nodes.size
  node?_eq : ∀ id, s id → patch'.node? id = patch.node? id
  externals_eq : ∃ added, patch'.externals.toList = patch.externals.toList ++ added ∧
    ∀ id ∈ added, ¬s id ∧ id.index < patch'.nodes.size

theorem Spares.refl (s : NodeId → Prop) (patch : Patch) : patch.Spares s patch where
  size_le := Nat.le_refl _
  node?_eq _ _ := rfl
  externals_eq := ⟨[], by simp, by simp⟩

theorem Spares.trans (h : patch.Spares s between) (h' : between.Spares s patch') :
    patch.Spares s patch' where
  size_le := Nat.le_trans h.size_le h'.size_le
  node?_eq id hid := (h'.node?_eq id hid).trans (h.node?_eq id hid)
  externals_eq := by
    obtain ⟨added, hadded, hnew⟩ := h.externals_eq
    obtain ⟨added', hadded', hnew'⟩ := h'.externals_eq
    refine ⟨added ++ added', by rw [hadded', hadded, List.append_assoc], fun id hid => ?_⟩
    rcases List.mem_append.1 hid with hid | hid
    · exact ⟨(hnew id hid).1, Nat.lt_of_lt_of_le (hnew id hid).2 h'.size_le⟩
    · exact hnew' id hid

theorem Spares.has (h : patch.Spares s patch') (hs : patch.Has s) : patch'.Has s :=
  fun id hid => Nat.lt_of_lt_of_le (hs id hid) h.size_le

/-- A host input is as it was, or it has been added. -/
theorem Spares.external_cases (h : patch.Spares s patch') (i : Nat) :
    patch'.externals[i]? = patch.externals[i]? ∨
      patch.externals[i]? = none ∧ ∃ id, patch'.externals[i]? = some id ∧ ¬s id := by
  obtain ⟨added, hadded, hnew⟩ := h.externals_eq
  simp only [← Array.getElem?_toList, hadded]
  by_cases hlt : i < patch.externals.toList.length
  · exact .inl (List.getElem?_append_left hlt)
  · rw [List.getElem?_append_right (Nat.not_lt.1 hlt), List.getElem?_eq_none (Nat.not_lt.1 hlt)]
    cases hid : added[i - patch.externals.toList.length]? with
    | none => exact .inl rfl
    | some id => exact .inr ⟨rfl, id, rfl, (hnew id (List.mem_of_getElem? hid)).1⟩

theorem Spares.addExternal {id : NodeId} (h : patch.Spares s patch') (hid : ¬s id)
    (hlt : id.index < patch'.nodes.size) :
    patch.Spares s { patch' with externals := patch'.externals.push id } where
  size_le := h.size_le
  node?_eq := h.node?_eq
  externals_eq := by
    obtain ⟨added, hadded, hnew⟩ := h.externals_eq
    refine ⟨added ++ [id], by simp [hadded], fun id' hid' => ?_⟩
    rcases List.mem_append.1 hid' with hid' | hid'
    · exact hnew id' hid'
    · obtain rfl := List.mem_singleton.1 hid'
      exact ⟨hid, hlt⟩

/-! ## Calls -/

open Edit

variable {id : NodeId}

theorem Has.not_fresh (hs : patch.Has s) : ¬s ⟨patch.nodes.size⟩ :=
  fun h => Nat.lt_irrefl _ (hs _ h)

theorem Has.spares_push (hs : patch.Has s) (node : Node) : patch.Spares s (patch.push node) where
  size_le := by simp [push]
  node?_eq id hid := (Array.getElem?_push_lt (hs id hid)).trans
    (Array.getElem?_eq_getElem (hs id hid)).symm
  externals_eq := ⟨[], by simp [push], by simp⟩

theorem spares_set (hid : ¬s id) (patch : Patch) (node : Node) :
    patch.Spares s { patch with nodes := patch.nodes.setIfInBounds id.index node } where
  size_le := by simp
  node?_eq id' hid' := by
    have hne : id' ≠ id := fun h => hid (h ▸ hid')
    exact Array.getElem?_setIfInBounds_ne fun h => hne (congrArg NodeId.mk h.symm)
  externals_eq := ⟨[], by simp, by simp⟩

/-- Whatever comes of it, the nodes named by `s` are spared, if they are there. -/
def Keeps (s : NodeId → Prop) (x : Edit ε α) : Prop := Ensures (Has s) (Spares s) x

theorem keeps_insert (schema : Schema) : Keeps s (insert schema : Edit ε NodeId) :=
  fun _ hs => hs.spares_push (.ofSchema schema)

theorem keeps_putNode (hid : ¬s id) (node : Node) : Keeps s (putNode id node : Edit ε Unit) :=
  fun patch _ => spares_set hid patch node

/-- The parts of calls change only the nodes that they are about, which are new or named. -/
theorem honours_spares (s : NodeId → Prop) :
    Honours (Has s) (Spares s) (¬s ·) fun _ => True where
  refl _ := .refl s _
  trans := .trans
  pre hs h := h.has hs
  fresh _ hs := hs.not_fresh
  insert _ := keeps_insert _
  rewire hid _ _ _ := keeps_putNode hid _
  restate hid _ _ _ _ _ _ := keeps_putNode hid _
  external word _ patch hs := by
    rw [after_external]
    exact (hs.spares_push _).addExternal hs.not_fresh (by simp [push])

/-- A call changes no node but the one that it names. -/
theorem Call.keeps_edit (call : Call ε α) (h : ∀ id, call.target? = some id → ¬s id) :
    Keeps s call.edit :=
  (honours_spares s).edit call h fun _ _ => trivial

/-! ## Sequences of calls -/

/-- What may become of a patch by calls that change no node named by `s`. -/
inductive Edited (s : NodeId → Prop) (patch : Patch) : Patch → Prop
  | refl : Edited s patch patch
  | insert {between : Patch} (schema : Schema) : Edited s patch between →
      Edited s patch ((insert schema : Edit GraphError NodeId).after between)
  | call {between : Patch} {ε α : Type} (call : Call ε α) : Edited s patch between →
      (∀ id, call.target? = some id → ¬s id) → Edited s patch (call.edit.after between)

/-- Calls spare all nodes that they do not name. -/
theorem Edited.spares (hs : patch.Has s) (h : patch.Edited s patch') : patch.Spares s patch' := by
  induction h with
  | refl => exact .refl s patch
  | insert schema _ ih => exact ih.trans (keeps_insert schema _ (ih.has hs))
  | call call _ htarget ih => exact ih.trans (call.keeps_edit htarget _ (ih.has hs))

/-- The patch has been made by calls. -/
def Built (patch : Patch) : Prop := Edited (fun _ => False) {} patch

/-- Host inputs are nodes. -/
theorem Built.external_lt (h : patch.Built) (hid : id ∈ patch.externals) :
    id.index < patch.nodes.size := by
  obtain ⟨added, hadded, hlt⟩ := (Edited.spares (by simp [Has]) h).externals_eq
  rw [← Array.mem_toList_iff, hadded] at hid
  exact (hlt id (by simpa using hid)).2

end Patch

end SignalGraph
