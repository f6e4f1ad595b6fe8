import Mathlib.Logic.Equiv.Defs
import SignalGraph.Proofs.Plan.Compile
import SignalGraph.Proofs.Resolution.Renaming

/-!
# Plans under other names

Two patches that differ in the names of their nodes only (`Patch.RenamedBy`), be it because
the nodes have been added in another order, have plans that differ in these names only, but
for one thing: histories lie in the order of the names of their outputs
(`Layout.Renames.slot?_rename`, `Layout.Renames.perm`).
-/

namespace SignalGraph

variable {σ : Equiv.Perm NodeId} {patch patch' : Patch} {roots : List OutputRef}
  {r r' : Resolution} {layout layout' : Layout} {plan plan' : Plan} {id : NodeId} {node : Node}
  {key : SlotKey} {slot : Nat}

/-! ## There and back -/

/-- What the slot holds, under the other name of its node. -/
def SlotKey.rename (σ : NodeId → NodeId) : SlotKey → SlotKey
  | output source => output (source.rename σ)
  | state id index => state (σ id) index
  | history source => history (source.rename σ)

theorem OutputRef.rename_symm_rename (σ : Equiv.Perm NodeId) (output : OutputRef) :
    (output.rename σ).rename σ.symm = output := by
  simp [OutputRef.rename]

namespace SlotKey

theorem rename_symm_rename (σ : Equiv.Perm NodeId) (key : SlotKey) :
    (key.rename σ).rename σ.symm = key := by
  cases key <;> simp [rename, OutputRef.rename_symm_rename]

theorem rename_inj {key key' : SlotKey} : key.rename σ = key'.rename σ ↔ key = key' :=
  (Function.LeftInverse.injective (rename_symm_rename σ)).eq_iff

theorem isSome_owner?_iff : key.owner?.isSome ↔ ∀ source, key ≠ .history source := by
  cases key <;> simp [owner?]

theorem owner?_rename (σ : NodeId → NodeId) (key : SlotKey) :
    (key.rename σ).owner? = key.owner?.map σ := by
  cases key <;> rfl

end SlotKey

/-! ## Patches -/

namespace Patch

/-- The second patch is the first one, with the names of all nodes changed. -/
structure RenamedBy (σ : Equiv.Perm NodeId) (patch patch' : Patch) : Prop where
  node?_eq : ∀ id, patch'.node? (σ id) = (patch.node? id).map (Node.rename σ)
  externals_eq : patch'.externals = patch.externals.map σ

namespace RenamedBy

variable (h : patch.RenamedBy σ patch')
include h

theorem copies (roots : List OutputRef) : patch.Copies σ roots patch' where
  node?_eq id _ := h.node?_eq id
  inj _ _ _ _ heq := σ.injective heq

theorem keysOf_eq (id : NodeId) : patch'.keysOf (σ id) = (patch.keysOf id).map (.rename σ) := by
  rw [keysOf, keysOf, h.node?_eq]
  cases patch.node? id with
  | none => rfl
  | some node =>
    simp only [Option.map_some, Layout.nodeKeys, List.map_append, List.map_map]
    rfl

theorem initialWord_eq (key : SlotKey) :
    patch'.initialWord (key.rename σ) = patch.initialWord key := by
  cases key with
  | state id index =>
    simp only [SlotKey.rename, initialWord, stateValue?, h.node?_eq]
    cases patch.node? id <;> rfl
  | output source => rfl
  | history source => rfl

end RenamedBy

end Patch

/-! ## Layouts -/

namespace Layout

theorem Allocates.key?_eq_some_iff_of_owner? (h : layout.Allocates patch r)
    (howner : key.owner? = some id) :
    layout.key? slot = some key ↔ (r.order.flatMap patch.keysOf)[slot]? = some key := by
  rw [key?, ← Array.getElem?_toList, h.keys_eq, List.getElem?_append]
  split
  · rfl
  · next hslot =>
    rw [List.getElem?_eq_none (not_lt.1 hslot), List.getElem?_map, Option.map_eq_some_iff]
    refine iff_of_false ?_ (by simp)
    rintro ⟨source, _, rfl⟩
    cases howner

/-- Layouts in which the same things lie, under other names, and the same values of nodes in
    the same slots. -/
structure Renames (σ : Equiv.Perm NodeId) (layout layout' : Layout) : Prop where
  slot?_eq_some_iff : ∀ key slot, layout.slot? key = some slot ↔ layout.key? slot = some key
  slot?_eq_some_iff' : ∀ key slot, layout'.slot? key = some slot ↔ layout'.key? slot = some key
  keys_perm : layout'.keys.toList.Perm (layout.keys.toList.map (.rename σ))
  slot?_rename : ∀ key, key.owner?.isSome → layout'.slot? (key.rename σ) = layout.slot? key

theorem Allocates.renames (h : layout.Allocates patch r) (h' : layout'.Allocates patch' r')
    (hrenamed : patch.RenamedBy σ patch') (horder : r'.order = r.order.map σ)
    (hdelayed : r'.delayed.Perm (r.delayed.map (·.rename σ))) : layout.Renames σ layout' := by
  have hnodes : r'.order.flatMap patch'.keysOf =
      (r.order.flatMap patch.keysOf).map (SlotKey.rename σ) := by
    rw [horder, List.flatMap_map, List.map_flatMap]
    exact List.flatMap_congr fun id _ => hrenamed.keysOf_eq id
  refine ⟨h.slot?_eq_some_iff, h'.slot?_eq_some_iff, ?_, fun key howner => ?_⟩
  · rw [h'.keys_eq, h.keys_eq, hnodes, List.map_append]
    have hhistories := hdelayed.map SlotKey.history
    rw [List.map_map] at hhistories ⊢
    exact hhistories.append_left _
  · obtain ⟨id, howner⟩ := Option.isSome_iff_exists.1 howner
    have howner' : (key.rename σ).owner? = some (σ id) := by
      rw [SlotKey.owner?_rename, howner, Option.map_some]
    refine Option.ext fun slot => ?_
    rw [h'.slot?_eq_some_iff, h.slot?_eq_some_iff, h'.key?_eq_some_iff_of_owner? howner',
      h.key?_eq_some_iff_of_owner? howner, hnodes, List.getElem?_map, Option.map_eq_some_iff]
    constructor
    · rintro ⟨key', hkey', heq⟩
      exact SlotKey.rename_inj.1 heq ▸ hkey'
    · exact fun hkey => ⟨key, hkey, rfl⟩

/-- The slot in the second layout of what lies in a slot of the first one. -/
def move (σ : NodeId → NodeId) (layout layout' : Layout) (slot : Nat) : Nat :=
  ((layout.key? slot).bind fun key => layout'.slot? (key.rename σ)).getD slot

namespace Renames

variable (h : layout.Renames σ layout')
include h

theorem symm : layout'.Renames σ.symm layout where
  slot?_eq_some_iff := h.slot?_eq_some_iff'
  slot?_eq_some_iff' := h.slot?_eq_some_iff
  keys_perm := by
    have hperm := (h.keys_perm.map (SlotKey.rename σ.symm)).symm
    simpa [Function.comp_def, SlotKey.rename_symm_rename] using hperm
  slot?_rename key howner := by
    have hback : (key.rename σ.symm).rename σ = key := SlotKey.rename_symm_rename σ.symm key
    have howner' : (key.rename σ.symm).owner?.isSome := by
      rw [SlotKey.owner?_rename, Option.isSome_map, howner]
    rw [← h.slot?_rename _ howner', hback]

theorem size_eq : layout'.size = layout.size := by
  simpa [size] using h.keys_perm.length_eq

/-- What has a slot in the first layout has one in the second. -/
theorem slot?_rename_eq_move (hslot : layout.slot? key = some slot) :
    layout'.slot? (key.rename σ) = some (layout.move σ layout' slot) := by
  have hkey := (h.slot?_eq_some_iff key slot).1 hslot
  have hmem : key.rename σ ∈ layout'.keys.toList := h.keys_perm.mem_iff.2 <|
    List.mem_map_of_mem (Array.mem_toList_iff.2 (Array.mem_of_getElem? hkey))
  obtain ⟨slot', hslot'⟩ := Array.mem_iff_getElem?.1 (Array.mem_toList_iff.1 hmem)
  have hslot' := (h.slot?_eq_some_iff' (key.rename σ) slot').2 hslot'
  simp [move, hkey, hslot']

theorem move_move (slot : Nat) : layout'.move σ.symm layout (layout.move σ layout' slot) = slot := by
  cases hkey : layout.key? slot with
  | some key =>
    have hslot := (h.slot?_eq_some_iff key slot).2 hkey
    have hkey' := (h.slot?_eq_some_iff' _ _).1 (h.slot?_rename_eq_move hslot)
    rw [move, hkey', Option.bind_some, SlotKey.rename_symm_rename, hslot, Option.getD_some]
  | none =>
    have hnone : layout'.key? slot = none := by
      have hsize := h.size_eq
      simp only [key?, Array.getElem?_eq_none_iff, size] at hkey hsize ⊢
      omega
    simp [move, hkey, hnone]

/-- The slots of the first layout go to those of the second one. -/
def perm : Equiv.Perm Nat where
  toFun := layout.move σ layout'
  invFun := layout'.move σ.symm layout
  left_inv := h.move_move
  right_inv := h.symm.move_move

theorem slot?_rename_eq_map (key : SlotKey) :
    layout'.slot? (key.rename σ) = (layout.slot? key).map h.perm := by
  cases hslot : layout.slot? key with
  | some slot => exact h.slot?_rename_eq_move hslot
  | none =>
    cases hslot' : layout'.slot? (key.rename σ) with
    | none => rfl
    | some slot' =>
      have hslot' := h.symm.slot?_rename_eq_move hslot'
      rw [SlotKey.rename_symm_rename, hslot] at hslot'
      cases hslot'

/-- Nothing goes anywhere but histories. -/
theorem perm_eq_self (hslot : ∀ source, layout.key? slot ≠ some (.history source)) :
    h.perm slot = slot := by
  change layout.move σ layout' slot = slot
  cases hkey : layout.key? slot with
  | none => simp [move, hkey]
  | some key =>
    have howner : key.owner?.isSome :=
      SlotKey.isSome_owner?_iff.2 fun source heq => hslot source (heq ▸ hkey)
    rw [move, hkey, Option.bind_some, h.slot?_rename key howner,
      (h.slot?_eq_some_iff key slot).2 hkey, Option.getD_some]

end Renames

end Layout

/-! ## Plans -/

namespace Plan

/-- A patch compiles under other names, too. -/
theorem exists_compiled_rename (hrenamed : patch.RenamedBy σ patch')
    (h : Compiled patch roots r plan) :
    ∃ r' plan', compile patch' (roots.map (·.rename σ)) = .ok plan' ∧
      Compiled patch' (roots.map (·.rename σ)) r' plan' ∧ r'.order = r.order.map σ ∧
      r'.delayed.Perm (r.delayed.map (·.rename σ)) := by
  obtain ⟨delayed, hr', hperm⟩ :=
    Resolution.exists_ofPatch_of_copies (hrenamed.copies roots) h.resolution_eq
  obtain ⟨plan', hplan'⟩ := exists_compile_eq_ok hr'
  obtain ⟨r', h'⟩ := compile_eq_ok hplan'
  obtain rfl := Except.ok.inj (hr'.symm.trans h'.resolution_eq)
  exact ⟨_, plan', hplan', h', rfl, hperm⟩

/-- Host inputs lie in the same slots. -/
theorem externalSlot?_rename (hrenamed : patch.RenamedBy σ patch')
    (h : Compiled patch roots r plan) (h' : Compiled patch' (roots.map (·.rename σ)) r' plan')
    (hlayout : plan.layout.Renames σ plan'.layout) (external : ExternalId) :
    plan'.externalSlot? external = plan.externalSlot? external := by
  rw [h'.externalSlot?_eq, h.externalSlot?_eq, hrenamed.externals_eq, Array.getElem?_map]
  cases patch.externals[external.index]? with
  | none => rfl
  | some node => exact hlayout.slot?_rename (.state node 0) rfl

end Plan

end SignalGraph
