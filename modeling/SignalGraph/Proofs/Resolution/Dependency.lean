import Mathlib.Data.List.Induction
import Mathlib.Logic.Relation
import SignalGraph.Patch.Basic

/-!
# Dependency

The graph that a patch is, without the walks and counters that resolve it. A node
*reads* an output as of the same tick, or *recalls* it from the previous one. Both
make the source contribute (`Patch.Reachable`); only reading makes the node wait
for it (`Patch.Awaits`).

A patch can be resolved for some roots if what contributes to them refers only to
outputs that exist, and no node of it waits for itself, be it through others
(`Patch.Resolvable`).

Lists in which each element comes after what it needs (`InOrder`) have no room for
circles: `InOrder.not_transGen`.
-/

namespace SignalGraph

open Relation

/-! ## Order -/

/-- What holds of each element of a list and of those before it, holds with one more element
    if it holds of this one. -/
theorem forall_split_concat {α : Type} {p : List α → α → Prop} {l : List α} {a : α}
    (hl : ∀ before b after, l = before ++ b :: after → p before b) (ha : p l a) :
    ∀ before b after, l ++ [a] = before ++ b :: after → p before b := by
  intro before b after h
  rcases List.append_eq_append_iff.1 h with ⟨s, rfl, hs⟩ | ⟨s, hs, hrest⟩
  · obtain ⟨rfl, rfl, _⟩ : s = [] ∧ a = b ∧ after = [] := by cases s <;> simp_all
    simpa using ha
  · cases s with
    | nil =>
      obtain ⟨rfl, _⟩ : b = a ∧ after = [] := by simpa using hrest
      simpa [hs] using ha
    | cons _ s =>
      obtain ⟨rfl, _⟩ := List.cons.inj hrest
      exact hl before b s hs

/-- Each element of the list comes after all that it needs. -/
def InOrder {α : Type} (needs : α → α → Prop) (l : List α) : Prop :=
  ∀ before a after, l = before ++ a :: after → ∀ b, needs a b → b ∈ before

namespace InOrder

variable {α : Type} {needs : α → α → Prop} {l : List α}

theorem nil : InOrder needs [] := by
  intro before a after h
  simp at h

/-- One more element may follow if all it needs is there. -/
theorem concat (hl : InOrder needs l) {a : α} (ha : ∀ b, needs a b → b ∈ l) :
    InOrder needs (l ++ [a]) := forall_split_concat hl ha

/-- What an element needs through others comes before it, too. -/
theorem mem_of_transGen (hl : InOrder needs l) {before after : List α} {a b : α}
    (h : l = before ++ a :: after) (hab : TransGen needs a b) : b ∈ before := by
  induction hab with
  | single hab => exact hl before a after h _ hab
  | tail _ hbc ih =>
    obtain ⟨s, t, rfl⟩ := List.append_of_mem ih
    have := hl s _ (t ++ a :: after) (by simp [h]) _ hbc
    exact List.mem_append_left _ this

/-- What holds of an element as soon as it holds of all that the element needs, holds
    of the whole list. -/
theorem induction {p : α → Prop} (hl : InOrder needs l)
    (h : ∀ a ∈ l, (∀ b, needs a b → p b) → p a) : ∀ a ∈ l, p a := by
  suffices ∀ before after, l = before ++ after → ∀ a ∈ before, p a from this l [] (by simp)
  intro before
  induction before using List.reverseRecOn with
  | nil => simp
  | append_singleton before a ih =>
    intro after hsplit b hb
    have hsplit : l = before ++ a :: after := by simpa using hsplit
    rcases List.mem_append.1 hb with hb | hb
    · exact ih _ hsplit b hb
    · obtain rfl := List.mem_singleton.1 hb
      exact h b (by simp [hsplit]) fun c hc => ih _ hsplit c (hl before b after hsplit c hc)

/-- No element needs itself, if none is listed twice. -/
theorem not_transGen (hl : InOrder needs l) (hnodup : l.Nodup) {a : α} (ha : a ∈ l) :
    ¬TransGen needs a a := by
  intro h
  obtain ⟨s, t, rfl⟩ := List.append_of_mem ha
  have hs := hl.mem_of_transGen rfl h
  exact (List.nodup_append.1 hnodup).2.2 a hs a List.mem_cons_self rfl

end InOrder

/-! ## The graph of a patch -/

namespace Patch

variable (patch : Patch)

/-- An input of the node is bound to `b`. -/
def Binds (id : NodeId) (b : Binding) : Prop :=
  ∃ node, patch.node? id = some node ∧ b ∈ node.inputs.toList

/-- The node reads the output as of the same tick. -/
def Reads (id : NodeId) (source : OutputRef) : Prop := patch.Binds id (.output source)

/-- The node reads the output as of the previous tick. -/
def Recalls (id : NodeId) (source : OutputRef) : Prop := patch.Binds id (.feedback source)

/-- The node reads an output of the other as of the same tick. -/
def Awaits (id other : NodeId) : Prop := ∃ source, patch.Reads id source ∧ source.node = other

/-- From the node there is a way into a circle of nodes that wait for each other. -/
def Blocked (id : NodeId) : Prop :=
  ∃ other, ReflTransGen patch.Awaits id other ∧ TransGen patch.Awaits other other

/-- The nodes that contribute to the roots, at any delay. -/
inductive Reachable (roots : List OutputRef) : NodeId → Prop
  | root {output : OutputRef} : output ∈ roots → Reachable roots output.node
  | source {id : NodeId} {b : Binding} {output : OutputRef} : Reachable roots id →
      patch.Binds id b → b.source? = some output → Reachable roots output.node

/-- What has to be right with a patch for it to run for the roots. Nodes that do
    not contribute to them may refer to anything, and wait for each other. -/
structure Resolvable (roots : List OutputRef) : Prop where
  roots_ne_nil : roots ≠ []
  root_exists : ∀ output ∈ roots, patch.containsOutput output
  source_exists : ∀ id, patch.Reachable roots id → ∀ b output, patch.Binds id b →
    b.source? = some output → patch.containsOutput output
  acyclic : ∀ id, patch.Reachable roots id → ¬TransGen patch.Awaits id id

variable {patch} {id other : NodeId} {node : Node} {source : OutputRef} {roots : List OutputRef}

theorem containsOutput_iff : patch.containsOutput source ↔
    ∃ node, patch.node? source.node = some node ∧ source.index < node.schema.outputs.length := by
  simp [containsOutput, Option.any_eq_true]

/-- An output that exists is one of a node that exists. -/
theorem index_lt_of_containsOutput (h : patch.containsOutput source) :
    source.node.index < patch.nodes.size := by
  obtain ⟨node, hnode, _⟩ := containsOutput_iff.1 h
  exact (Array.getElem?_eq_some_iff.1 hnode).1

theorem exists_node_of_containsOutput (h : patch.containsOutput source) :
    ∃ node, patch.node? source.node = some node :=
  (containsOutput_iff.1 h).imp fun _ => And.left

theorem binds_get (hnode : patch.node? id = some node) (i : Fin node.schema.inputs.length) :
    patch.Binds id (node.inputs.get i) :=
  ⟨node, hnode, Vector.mem_toList_iff.2 (Vector.getElem_mem i.isLt)⟩

theorem binds_iff {b : Binding} : patch.Binds id b ↔
    ∃ node, patch.node? id = some node ∧ ∃ i, node.inputs.get i = b := by
  constructor
  · rintro ⟨node, hnode, hb⟩
    obtain ⟨i, hi, heq⟩ := Vector.getElem_of_mem (Vector.mem_toList_iff.1 hb)
    exact ⟨node, hnode, ⟨i, hi⟩, heq⟩
  · rintro ⟨node, hnode, i, rfl⟩
    exact binds_get hnode i

/-- All that contributes exists. -/
theorem Resolvable.exists_node (hp : patch.Resolvable roots) (hid : patch.Reachable roots id) :
    ∃ node, patch.node? id = some node := by
  cases hid with
  | root hroot => exact exists_node_of_containsOutput (hp.root_exists _ hroot)
  | source hid hb hs => exact exists_node_of_containsOutput (hp.source_exists _ hid _ _ hb hs)

theorem Reachable.of_reads (h : patch.Reachable roots id) (hr : patch.Reads id source) :
    patch.Reachable roots source.node := h.source hr rfl

theorem Reachable.of_recalls (h : patch.Reachable roots id) (hr : patch.Recalls id source) :
    patch.Reachable roots source.node := h.source hr rfl

/-- What a contributing node waits for contributes, too. -/
theorem Reachable.of_reflTransGen (h : patch.Reachable roots id)
    (hawaits : ReflTransGen patch.Awaits id other) : patch.Reachable roots other := by
  induction hawaits with
  | refl => exact h
  | tail _ hstep ih =>
    obtain ⟨source, hr, rfl⟩ := hstep
    exact ih.of_reads hr

end Patch

end SignalGraph
