import SignalGraph.Proofs.Outcome
import SignalGraph.Proofs.Patch.Addition

/-!
# Contracts of calls

A call may be refused half-way, and what it did before stays done. So what it does is said
of the patch that it leaves, refused or not (`Edit.after`, `Edit.Ensures`).

All calls are made of the same parts: they add nodes of units that have been checked, change
the bindings and the initial values of a node that is named or new, and add host inputs.
A contract that lasts through one program after the other holds of all calls if these
parts honour it (`Patch.Honours.edit`).
-/

namespace SignalGraph

variable {ε α β : Type}

/-! ## Programs -/

namespace Edit

variable {x : Edit ε α} {f : α → Edit ε β} {Pre : Patch → Prop} {Post : Patch → Patch → Prop}

/-- The patch after a change, be it refused or not. -/
def after (x : Edit ε α) (patch : Patch) : Patch :=
  match x.run patch with
  | .ok _ patch' | .error _ patch' => patch'

/-- What comes after the first program is skipped if it fails. -/
theorem after_bind_cases (x : Edit ε α) (f : α → Edit ε β) (patch : Patch) :
    after (x >>= f) patch = after x patch ∨
      ∃ a, x.run patch = .ok a (after x patch) ∧
        after (x >>= f) patch = after (f a) (after x patch) := by
  simp only [after, EStateM.run_bind]
  cases x.run patch with
  | ok a between => exact .inr ⟨a, rfl, rfl⟩
  | error fault between => exact .inl rfl

theorem LooksOnly.after_eq (hx : LooksOnly x) (patch : Patch) : after x patch = patch := by
  rw [after]
  cases h : x.run patch with
  | ok a patch' => exact hx.eq_of_ok patch a patch' h
  | error fault patch' => exact hx.atomic patch fault patch' h

/-- Whatever comes of it, a patch with `Pre` is related by `Post` to the one that it
    leaves. -/
def Ensures (Pre : Patch → Prop) (Post : Patch → Patch → Prop) (x : Edit ε α) : Prop :=
  ∀ patch, Pre patch → Post patch (after x patch)

/-- What is ensured by one program after the other is ensured by all of them together. -/
structure Lasting (Pre : Patch → Prop) (Post : Patch → Patch → Prop) : Prop where
  refl : ∀ {patch}, Pre patch → Post patch patch
  trans : ∀ {patch between patch'}, Post patch between → Post between patch' → Post patch patch'
  pre : ∀ {patch patch'}, Pre patch → Post patch patch' → Pre patch'

namespace Lasting

variable (h : Lasting Pre Post)
include h

theorem looksOnly (hx : LooksOnly x) : Ensures Pre Post x := by
  intro patch hpre
  rw [hx.after_eq]
  exact h.refl hpre

/-- What follows may be judged by what came out of the first program. -/
theorem bind (hx : Ensures Pre Post x)
    (hf : ∀ (patch : Patch) a patch', Pre patch → x.run patch = .ok a patch' →
      Ensures Pre Post (f a)) : Ensures Pre Post (x >>= f) := by
  intro patch hpre
  have hbetween := hx patch hpre
  rcases after_bind_cases x f patch with heq | ⟨a, hrun, heq⟩
  · exact heq ▸ hbetween
  · rw [heq]
    exact h.trans hbetween (hf patch a _ hpre hrun _ (h.pre hpre hbetween))

theorem forM {f : α → Edit ε PUnit} (hf : ∀ a, Ensures Pre Post (f a)) (l : List α) :
    Ensures Pre Post (l.forM f) := by
  induction l with
  | nil => exact h.looksOnly (looksOnly_pure _)
  | cons a l ih => exact h.bind (hf a) fun _ _ _ _ _ => ih

end Lasting

end Edit

/-! ## Calls -/

namespace Patch

open Edit

variable {patch patch' : Patch} {unit : Declaration} {schema : Schema} {id : NodeId}

/-- A node is added under the first free name. -/
theorem eq_of_run_insertUnit (h : (insertUnit unit).run patch = .ok id patch') :
    id = ⟨patch.nodes.size⟩ := by
  rw [insertUnit] at h
  split at h
  · cases h
    rfl
  · cases h

theorem eq_of_run_wire {inputs : List Binding} {output : OutputRef}
    (h : (wire unit inputs).run patch = .ok output patch') : output.node = ⟨patch.nodes.size⟩ := by
  obtain ⟨id, between, hid, h⟩ := run_bind_eq_ok_iff.1 h
  obtain ⟨_, _, _, h⟩ := run_bind_eq_ok_iff.1 h
  obtain rfl := eq_of_run_insertUnit hid
  cases h
  rfl

theorem node?_of_run_getNode {node : Node} (h : (getNode id).run patch = .ok node patch') :
    patch.node? id = some node := by
  rw [getNode, EStateM.run_bind] at h
  simp only [EStateM.run_get] at h
  cases hnode : patch.node? id with
  | none =>
    rw [hnode] at h
    cases h
  | some found =>
    rw [hnode] at h
    cases h
    rfl

theorem after_external (initial : Binary32) (patch : Patch) :
    after (external initial) patch = patch.withExternal initial := by
  rw [after, run_external]

namespace Call

/-- The node that a call changes, unless it is one that the call adds. -/
def target? : Call ε α → Option NodeId
  | connect id _ _ | connectAt id _ _ | setState id _ _ | setStateAt id _ _ => some id
  | _ => none

/-- The words that a call gives to host inputs. -/
def given : Call ε α → List Binary32
  | external initial => [initial]
  | _ => []

end Call

/-- The parts of calls honour a contract, as long as they change only nodes named by `Free`
    and give only words of `Given` to host inputs. -/
structure Honours (Pre : Patch → Prop) (Post : Patch → Patch → Prop) (Free : NodeId → Prop)
    (Given : Binary32 → Prop) : Prop extends Lasting Pre Post where
  fresh : ∀ patch, Pre patch → Free ⟨patch.nodes.size⟩
  insert : ∀ {ε : Type} {unit : Declaration} {schema : Schema},
    Schema.ofDeclaration unit = .ok schema → Ensures Pre Post (Patch.insert schema : Edit ε NodeId)
  rewire : ∀ {patch id node}, Free id → Pre patch → patch.node? id = some node → ∀ inputs,
    Ensures Pre Post (putNode id { node with inputs } : Edit GraphError Unit)
  restate : ∀ {patch id node}, Free id → Pre patch → patch.node? id = some node →
    ∀ (index : Nat) (hindex : index < node.schema.states.length) (value : StateValue),
      value.fits node.schema.states[index].type →
        Ensures Pre Post
          (putNode id { node with states := node.states.set index value } : Edit GraphError Unit)
  external : ∀ word, Given word → Ensures Pre Post (Patch.external word)

namespace Honours

variable {Pre : Patch → Prop} {Post : Patch → Patch → Prop} {Free : NodeId → Prop}
  {Given : Binary32 → Prop} (h : Honours Pre Post Free Given)
include h

theorem insertUnit (unit : Declaration) : Ensures Pre Post (insertUnit unit) := by
  rw [Patch.insertUnit]
  split
  · next hschema => exact h.insert hschema
  · exact h.looksOnly (looksOnly_throw _)

theorem insertListed (id : String) : Ensures Pre Post (Catalog.insert id) := by
  rw [Catalog.insert]
  split
  · next schema hschema =>
    rw [Catalog.schema] at hschema
    split at hschema
    · cases hschema
    · exact h.insert (mapError_eq_ok_iff.1 hschema)
  · exact h.looksOnly (looksOnly_throw _)

theorem connectAt (hid : Free id) (index : Nat) (binding : Binding) :
    Ensures Pre Post (connectAt id index binding) := by
  refine h.bind (h.looksOnly (looksOnly_getNode id)) fun patch node _ hpre hrun => ?_
  split
  · exact h.rewire hid hpre (node?_of_run_getNode hrun) _
  · exact h.looksOnly (looksOnly_throw _)

theorem setStateAt (hid : Free id) (index : Nat) (value : StateValue) :
    Ensures Pre Post (setStateAt id index value) := by
  refine h.bind (h.looksOnly (looksOnly_getNode id)) fun patch node _ hpre hrun => ?_
  split
  · next hindex =>
    dsimp only
    split
    · next hfits => exact h.restate hid hpre (node?_of_run_getNode hrun) index hindex value hfits
    · exact h.looksOnly (looksOnly_throw _)
  · exact h.looksOnly (looksOnly_throw _)

theorem connect (hid : Free id) (input : String) (binding : Binding) :
    Ensures Pre Post (connect id input binding) :=
  h.bind (h.looksOnly (looksOnly_portIndex id .input input)) fun _ index _ _ _ =>
    h.connectAt hid index binding

theorem setState (hid : Free id) (state : String) (value : StateValue) :
    Ensures Pre Post (setState id state value) :=
  h.bind (h.looksOnly (looksOnly_portIndex id .state state)) fun _ index _ _ _ =>
    h.setStateAt hid index value

/-- The node that is wired up is a new one. -/
theorem wire (unit : Declaration) (inputs : List Binding) :
    Ensures Pre Post (wire unit inputs) := by
  refine h.bind (h.insertUnit unit) fun patch id patch' hpre hrun => ?_
  have hid : Free id := eq_of_run_insertUnit hrun ▸ h.fresh patch hpre
  have hconnect : ∀ b : Binding × Nat, Ensures Pre Post (Patch.connectAt id b.2 b.1) :=
    fun b => h.connectAt hid b.2 b.1
  exact h.bind (h.forM hconnect _) fun _ _ _ _ _ => h.looksOnly (looksOnly_pure _)

theorem constant (value : Binary32) : Ensures Pre Post (constant value) := by
  refine h.bind (h.wire _ _) fun patch output patch' hpre hrun => ?_
  have hid : Free output.node := eq_of_run_wire hrun ▸ h.fresh patch hpre
  exact h.bind (h.setState hid _ _) fun _ _ _ _ _ => h.looksOnly (looksOnly_pure _)

/-- What the parts of calls ensure, calls ensure. -/
theorem edit (call : Call ε α) (htarget : ∀ id, call.target? = some id → Free id)
    (hgiven : ∀ word ∈ call.given, Given word) : Ensures Pre Post call.edit := by
  cases call with
  | insert unit => exact h.insertUnit unit
  | insertListed id => exact h.insertListed id
  | external initial => exact h.external initial (hgiven initial List.mem_cons_self)
  | connect id input binding => exact h.connect (htarget id rfl) input binding
  | connectAt id index binding => exact h.connectAt (htarget id rfl) index binding
  | setState id state value => exact h.setState (htarget id rfl) state value
  | setStateAt id index value => exact h.setStateAt (htarget id rfl) index value
  | constant value => exact h.constant value
  | _ => exact h.wire _ _

end Honours

end Patch

end SignalGraph
