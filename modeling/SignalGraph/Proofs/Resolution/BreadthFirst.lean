import Mathlib.Data.List.Induction
import SignalGraph.Proofs.Resolution.Discovery

/-!
# The order of discovery

A walk meets the nodes of the roots first, and then, for one node after the other in the
order in which it has found them, the nodes that the inputs of this node refer to. It finds
each node where it meets it first. So the nodes in the order of discovery are a list that
can be read off itself, with what the walk meets written down and repetitions crossed out
(`Patch.BreadthFirst`).

There is only one such list of nodes that contribute: what has been read off determines
what comes next (`Patch.BreadthFirst.eq`). A search that comes to an end has found the nodes
in this order (`Discovery.ofPatch_breadthFirst`).
-/

namespace SignalGraph

/-! ## Repetitions crossed out -/

section Repetitions

variable {α : Type} [DecidableEq α] {l m : List α} {a : α}

theorem eraseDups_concat (l : List α) (a : α) :
    (l ++ [a]).eraseDups = if a ∈ l then l.eraseDups else l.eraseDups ++ [a] := by
  rw [List.eraseDups_append]
  split <;> simp [List.removeAll, List.eraseDups_cons, *]

theorem nodup_eraseDups (l : List α) : l.eraseDups.Nodup := by
  induction l using List.reverseRecOn with
  | nil => simp
  | append_singleton l a ih =>
    rw [eraseDups_concat]
    split
    · exact ih
    · next ha => exact List.concat_eq_append ▸ ih.concat (by simpa using ha)

/-- Going on does not change what has been found. -/
theorem isPrefix_eraseDups (h : l <+: m) : l.eraseDups <+: m.eraseDups := by
  obtain ⟨rest, rfl⟩ := h
  rw [List.eraseDups_append]
  exact List.prefix_append _ _

end Repetitions

/-! ## Orders of discovery -/

namespace Patch

variable {patch : Patch} {roots : List OutputRef} {id other : NodeId}
  {found found' before : List NodeId}

/-- The nodes that the inputs of a node refer to, in the order of the inputs, be it as of the
    same tick or of the previous one. -/
def sourcesOf (patch : Patch) (id : NodeId) : List NodeId :=
  match patch.node? id with
  | none => []
  | some node => node.inputs.toList.filterMap fun b => b.source?.map (·.node)

/-- What a walk meets: the nodes of the roots, and then what the nodes listed refer to, node
    by node. -/
def met (patch : Patch) (roots : List OutputRef) (listed : List NodeId) : List NodeId :=
  roots.map (·.node) ++ listed.flatMap patch.sourcesOf

/-- The nodes that contribute to the roots, in the order of discovery: those of the roots
    come first, and then those that the nodes of this very list refer to, one after the
    other. Each node is listed where it is met first. -/
structure BreadthFirst (patch : Patch) (roots : List OutputRef) (found : List NodeId) : Prop where
  mem_iff : ∀ id, id ∈ found ↔ patch.Reachable roots id
  eq_eraseDups : found = (patch.met roots found).eraseDups

theorem mem_sourcesOf : other ∈ patch.sourcesOf id ↔
    ∃ b source, patch.Binds id b ∧ b.source? = some source ∧ source.node = other := by
  rw [sourcesOf]
  cases hnode : patch.node? id with
  | none => simp [Binds, hnode]
  | some node => simp [Binds, hnode, List.mem_filterMap, ← exists_and_left]

theorem isPrefix_met (h : before <+: found) : patch.met roots before <+: patch.met roots found := by
  obtain ⟨rest, rfl⟩ := h
  rw [met, met, List.flatMap_append, ← List.append_assoc]
  exact List.prefix_append _ _

theorem met_concat (listed : List NodeId) (id : NodeId) :
    patch.met roots (listed ++ [id]) = patch.met roots listed ++ patch.sourcesOf id := by
  simp [met]

namespace BreadthFirst

theorem nodup (h : patch.BreadthFirst roots found) : found.Nodup :=
  h.eq_eraseDups ▸ nodup_eraseDups _

/-- What the first nodes refer to is found first. -/
theorem isPrefix_eraseDups_met (h : patch.BreadthFirst roots found) (hbefore : before <+: found) :
    (patch.met roots before).eraseDups <+: found := by
  conv => rhs; rw [h.eq_eraseDups]
  exact isPrefix_eraseDups (isPrefix_met hbefore)

/-- If the first nodes refer to nothing new, they are all. -/
theorem eq_of_length_le (h : patch.BreadthFirst roots found) (hbefore : before <+: found)
    (hle : (patch.met roots before).eraseDups.length ≤ before.length) :
    found = (patch.met roots before).eraseDups := by
  have hmet := h.isPrefix_eraseDups_met hbefore
  have hsub := (List.prefix_of_prefix_length_le hmet hbefore hle).subset
  have hall : ∀ id, patch.Reachable roots id → id ∈ (patch.met roots before).eraseDups := by
    intro id hid
    induction hid with
    | @root output hroot =>
      exact List.mem_eraseDups.2 (List.mem_append_left _ (List.mem_map_of_mem hroot))
    | @source id b output _ hb hs ih =>
      refine List.mem_eraseDups.2 (List.mem_append_right _ (List.mem_flatMap.2 ⟨id, hsub ih, ?_⟩))
      exact mem_sourcesOf.2 ⟨b, output, hb, hs, rfl⟩
  have hlength := (h.nodup.subperm fun id hid => hall id ((h.mem_iff id).1 hid)).length_le
  exact (hmet.eq_of_length_le hlength).symm

/-- Two orders of discovery begin in the same way. -/
theorem isPrefix_of_isPrefix (h : patch.BreadthFirst roots found)
    (h' : patch.BreadthFirst roots found') (hbefore : before <+: found) : before <+: found' := by
  induction before using List.reverseRecOn with
  | nil => exact List.nil_prefix
  | append_singleton before id ih =>
    have hfirst : before <+: found := (List.prefix_append before [id]).trans hbefore
    have hfirst' := ih hfirst
    by_cases hle : (patch.met roots before).eraseDups.length ≤ before.length
    · rwa [h'.eq_of_length_le hfirst' hle, ← h.eq_of_length_le hfirst hle]
    · -- The next node is the first new one that the nodes before it refer to.
      refine (List.prefix_of_prefix_length_le hbefore (h.isPrefix_eraseDups_met hfirst) ?_).trans
        (h'.isPrefix_eraseDups_met hfirst')
      rw [List.length_append, List.length_singleton]
      omega

/-- There is only one order of discovery. -/
theorem eq (h : patch.BreadthFirst roots found) (h' : patch.BreadthFirst roots found') :
    found = found' :=
  (h.isPrefix_of_isPrefix h' List.prefix_rfl).eq_of_length_le
    (h'.isPrefix_of_isPrefix h List.prefix_rfl).length_le

end BreadthFirst

end Patch

/-! ## Searches -/

namespace Discovery

variable {patch : Patch} {roots : List OutputRef} {d d' : Discovery} {id : NodeId}
  {met : List NodeId}

theorem Sound.order_find (hd : Sound patch roots d) (hmet : d.order.toList = met.eraseDups)
    (id : NodeId) : (d.find id).order.toList = (met ++ [id]).eraseDups := by
  have hmem : id ∈ d.order ↔ id ∈ met := by
    rw [← Array.mem_toList_iff, hmet, List.mem_eraseDups]
  rw [eraseDups_concat, ← hmet]
  cases hplace : d.place? id with
  | some p =>
    have hid := Array.mem_of_getElem? ((hd.place?_eq_some_iff id p).1 hplace)
    rw [find_of_some hplace, if_pos (hmem.1 hid)]
  | none =>
    have hid : id ∉ d.order := by
      intro hid
      obtain ⟨p, hp⟩ := hd.place?_of_mem hid
      cases hplace.symm.trans hp
    rw [find_of_none hplace, if_neg (hmem.not.1 hid), Array.toList_push]

/-- A walk over a list finds what it meets, if its steps do. -/
theorem order_foldlM {α : Type} {f : Discovery → α → Except GraphError Discovery}
    (meets : α → List NodeId) {l : List α}
    (hstep : ∀ a ∈ l, ∀ d d' met, Sound patch roots d → d.order.toList = met.eraseDups →
      f d a = .ok d' → Sound patch roots d' ∧ d'.order.toList = (met ++ meets a).eraseDups)
    (hd : Sound patch roots d) (hmet : d.order.toList = met.eraseDups)
    (h : l.foldlM f d = .ok d') : d'.order.toList = (met ++ l.flatMap meets).eraseDups := by
  induction l generalizing d met with
  | nil =>
    obtain rfl : d = d' := by simpa [pure, Except.pure] using h
    simpa using hmet
  | cons a l ih =>
    rw [List.foldlM_cons, bind_eq_ok_iff] at h
    obtain ⟨d₁, h₁, h⟩ := h
    obtain ⟨hd₁, hmet₁⟩ := hstep a List.mem_cons_self d d₁ met hd hmet h₁
    rw [List.flatMap_cons, ← List.append_assoc]
    exact ih (fun b hb => hstep b (List.mem_cons_of_mem a hb)) hd₁ hmet₁ h

theorem Sound.order_followBinding {input : Binding × Nat} (hd : Sound patch roots d)
    (hmet : d.order.toList = met.eraseDups) (h : d.followBinding patch id input = .ok d') :
    d'.order.toList = (met ++ (input.1.source?.map (·.node)).toList).eraseDups := by
  obtain ⟨b, i⟩ := input
  cases b with
  | constant value =>
    obtain rfl := Except.ok.inj h
    simpa [Binding.source?] using hmet
  | output source =>
    obtain ⟨-, rfl⟩ := follow_eq_ok_iff.1 h
    exact hd.order_find hmet source.node
  | feedback source =>
    obtain ⟨d₁, h₁, rfl⟩ := map_eq_ok_iff.1 h
    obtain ⟨-, rfl⟩ := follow_eq_ok_iff.1 h₁
    exact hd.order_find hmet source.node

/-- Expanding a node finds what its inputs refer to, in order. -/
theorem Sound.order_expand (hd : Sound patch roots d) (hmet : d.order.toList = met.eraseDups)
    (hid : id ∈ d.order) (h : d.expand patch id = .ok d') :
    d'.order.toList = (met ++ patch.sourcesOf id).eraseDups := by
  obtain ⟨node, hnode⟩ := hd.node?_of_mem hid
  have hsources : patch.sourcesOf id =
      node.inputs.toList.zipIdx.flatMap fun input => (input.1.source?.map (·.node)).toList := by
    conv => lhs; rw [Patch.sourcesOf, hnode]
    dsimp only
    conv => lhs; rw [← List.zipIdx_map_fst 0 node.inputs.toList]
    rw [List.filterMap_map, List.filterMap_eq_flatMap_toList]
    rfl
  rw [Discovery.expand, hnode] at h
  rw [hsources]
  refine order_foldlM _ (fun input hin _ _ _ hs hmet h => ⟨?_, hs.order_followBinding hmet h⟩)
    hd hmet h
  exact (hs.followBinding (hd.reachable id hid) (binds_of_mem_zipIdx hnode hin) h).1

theorem order_ofRoots (h : ofRoots patch roots = .ok d) :
    d.order.toList = (roots.map (·.node)).eraseDups := by
  have hroots : roots.map (·.node) = roots.zipIdx.flatMap fun root => [root.1.node] := by
    conv => lhs; rw [← List.zipIdx_map_fst 0 roots]
    rw [List.map_map, List.map_eq_flatMap]
    rfl
  rw [hroots, ← List.nil_append (List.flatMap ..)]
  refine order_foldlM (fun root => [root.1.node]) (fun root hroot d d' _ hs hmet h => ?_)
    (.empty patch roots) List.eraseDups_nil.symm h
  have hreach : patch.Reachable roots root.1.node := .root (List.fst_mem_of_mem_zipIdx hroot)
  refine ⟨(hs.follow hreach h).1, ?_⟩
  obtain ⟨-, rfl⟩ := follow_eq_ok_iff.1 h
  exact hs.order_find hmet root.1.node

/-- A walk goes on through what it finds on the way. -/
theorem Sound.order_walk {next count : Nat} (hd : Sound patch roots d)
    (hcount : patch.nodes.size ≤ next + count)
    (hmet : d.order.toList = (patch.met roots (d.order.toList.take next)).eraseDups)
    (h : d.walk patch next count = .ok d') :
    d'.order.toList = (patch.met roots d'.order.toList).eraseDups := by
  induction count generalizing d next with
  | zero =>
    obtain rfl : d = d' := by simpa [Discovery.walk] using h
    have hle : d.order.toList.length ≤ next := Nat.le_trans hd.order_size_le hcount
    rwa [List.take_of_length_le hle] at hmet
  | succ count ih =>
    rw [Discovery.walk] at h
    cases hid : d.order[next]? with
    | none =>
      obtain rfl : d = d' := by simpa [hid] using h
      rwa [List.take_of_length_le (by simpa using hid)] at hmet
    | some id =>
      rw [hid] at h
      obtain ⟨d₁, h₁, h⟩ := bind_eq_ok_iff.1 h
      have hmem := Array.mem_of_getElem? hid
      have hmet₁ := hd.order_expand hmet hmem h₁
      -- What had been found is still found first, so the next node is the one expanded.
      have hprefix : d.order.toList <+: d₁.order.toList := by
        rw [hmet, hmet₁]
        exact isPrefix_eraseDups (List.prefix_append _ _)
      have htake : d₁.order.toList.take (next + 1) = d.order.toList.take next ++ [id] := by
        have hlt : next + 1 ≤ d.order.toList.length := (Array.getElem?_eq_some_iff.1 hid).1
        obtain ⟨rest, hrest⟩ := hprefix
        rw [← hrest, List.take_append_of_le_length hlt, List.take_add_one, Array.getElem?_toList,
          hid, Option.toList_some]
      refine ih (hd.expand hmem h₁).1 (by omega) ?_ h
      rw [htake, Patch.met_concat, hmet₁]

/-- A search that comes to an end has found the nodes in order of discovery. -/
theorem ofPatch_breadthFirst (h : Discovery.ofPatch patch roots = .ok d) :
    patch.BreadthFirst roots d.order.toList where
  mem_iff id := by rw [Array.mem_toList_iff, (ofPatch_complete h).mem_order_iff]
  eq_eraseDups := by
    obtain ⟨d₀, h₀, h⟩ := bind_eq_ok_iff.1 h
    refine (ofRoots_eq_ok h₀).1.order_walk (by omega) ?_ h
    rw [order_ofRoots h₀]
    simp [Patch.met]

end Discovery

end SignalGraph
