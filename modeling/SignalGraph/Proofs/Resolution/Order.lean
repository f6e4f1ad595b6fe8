import Mathlib.Data.List.Nodup
import SignalGraph.Proofs.Resolution.Discovery
import SignalGraph.Proofs.Resolution.Schedule
import SignalGraph.Resolution.Basic

/-!
# What a resolution is

A resolution lists the nodes that contribute to the roots, each once and after those
it waits for, and the outputs they recall in ascending order (`Resolution.Resolves`).
Resolving gives one exactly if there is nothing wrong with the patch:
`Resolution.ofPatch_isOk_iff`.

The schedule knows nodes by their places in the walk: it waits as they do
(`Discovery.waitsFor_iff`), so that an order of places is an order of nodes, and a
circle of places a circle of nodes.
-/

namespace SignalGraph

open Relation

/-! ## Ascending lists -/

section Ascending

variable {α : Type} {before : α → α → Bool}

theorem mem_insertAscending (htri : ∀ a b, before a b ∨ a = b ∨ before b a) {a x : α} {l : List α} :
    x ∈ insertAscending before a l ↔ x = a ∨ x ∈ l := by
  induction l with
  | nil => simp [insertAscending]
  | cons b rest ih =>
    rw [insertAscending]
    rcases htri a b with h | rfl | h
    · simp [h]
    · split <;> simp_all
    · split
      · simp
      · simp [ih, or_left_comm]

theorem pairwise_insertAscending (htri : ∀ a b, before a b ∨ a = b ∨ before b a)
    (htrans : ∀ a b c, before a b → before b c → before a c) (a : α) {l : List α}
    (hl : l.Pairwise (before · ·)) : (insertAscending before a l).Pairwise (before · ·) := by
  induction l with
  | nil => simp [insertAscending]
  | cons b rest ih =>
    have hb := List.pairwise_cons.1 hl
    rw [insertAscending]
    split
    · next hab =>
      refine List.pairwise_cons.2 ⟨fun c hc => ?_, hl⟩
      rcases List.mem_cons.1 hc with rfl | hc
      · exact hab
      · exact htrans a b c hab (hb.1 c hc)
    · split
      · next hba =>
        refine List.pairwise_cons.2 ⟨fun c hc => ?_, ih hb.2⟩
        rcases (mem_insertAscending htri).1 hc with rfl | hc
        · exact hba
        · exact hb.1 c hc
      · exact hl

theorem mem_ascending (htri : ∀ a b, before a b ∨ a = b ∨ before b a) {x : α} {l : List α} :
    x ∈ ascending before l ↔ x ∈ l := by
  induction l with
  | nil => simp [ascending]
  | cons a l ih =>
    rw [ascending, List.foldr_cons, mem_insertAscending htri, List.mem_cons]
    exact or_congr_right ih

theorem pairwise_ascending (htri : ∀ a b, before a b ∨ a = b ∨ before b a)
    (htrans : ∀ a b c, before a b → before b c → before a c) (l : List α) :
    (ascending before l).Pairwise (before · ·) := by
  induction l with
  | nil => simp [ascending]
  | cons a l ih => exact pairwise_insertAscending htri htrans a ih

end Ascending

namespace OutputRef

variable {a b c : OutputRef}

theorem before_iff : a.before b ↔
    a.node.index < b.node.index ∨ a.node = b.node ∧ a.index < b.index := by
  simp [before, NodeId.before]

theorem before_trichotomy (a b : OutputRef) : a.before b ∨ a = b ∨ b.before a := by
  obtain ⟨⟨m⟩, i⟩ := a
  obtain ⟨⟨n⟩, j⟩ := b
  simp only [before_iff, OutputRef.mk.injEq, NodeId.mk.injEq]
  omega

theorem before_trans (a b c : OutputRef) (hab : a.before b) (hbc : b.before c) : a.before c := by
  obtain ⟨⟨m⟩, i⟩ := a
  obtain ⟨⟨n⟩, j⟩ := b
  obtain ⟨⟨k⟩, l⟩ := c
  simp only [before_iff, NodeId.mk.injEq] at hab hbc ⊢
  omega

end OutputRef

/-! ## Places and nodes -/

namespace Discovery

open Schedule

variable {patch : Patch} {roots : List OutputRef} {d : Discovery} {id : NodeId}
  {order : List NodeId} {places : List Nat}

@[simp] theorem size_waits (patch : Patch) (d : Discovery) :
    (d.waits patch).size = d.order.size := by
  simp [waits]

/-- A place waits for another if the node there reads an output of the node there. -/
theorem waitsFor_iff (hd : Sound patch roots d) {i j : Nat} (hid : d.order[i]? = some id) :
    WaitsFor (d.waits patch) i j ↔
      ∃ source, patch.Reads id source ∧ d.order[j]? = some source.node := by
  obtain ⟨node, hnode⟩ := hd.node?_of_mem (Array.mem_of_getElem? hid)
  have hlt := (Array.getElem?_eq_some_iff.1 hid).1
  have hget : d.order[i] = id := Option.some.inj ((Array.getElem?_eq_getElem hlt).symm.trans hid)
  have hentries : entries (d.waits patch) i =
      node.inputs.toList.filterMap fun b => b.sameTick?.bind (d.place? ·.node) := by
    simp [entries, waits, hlt, hget, hnode]
  rw [WaitsFor, hentries, List.mem_filterMap]
  constructor
  · rintro ⟨b, hb, h⟩
    obtain ⟨source, hs, hplace⟩ := Option.bind_eq_some_iff.1 h
    obtain rfl : b = .output source := by cases b <;> simp_all [Binding.sameTick?]
    exact ⟨source, ⟨node, hnode, hb⟩, (hd.place?_eq_some_iff _ _).1 hplace⟩
  · rintro ⟨source, ⟨node', hnode', hb⟩, hj⟩
    obtain rfl : node = node' := Option.some.inj (hnode.symm.trans hnode')
    exact ⟨.output source, hb, (hd.place?_eq_some_iff _ _).2 hj⟩

/-- Only places of nodes found wait, and for no others. -/
theorem exists_of_waitsFor (hd : Sound patch roots d) {i j : Nat}
    (h : WaitsFor (d.waits patch) i j) :
    ∃ id other, d.order[i]? = some id ∧ d.order[j]? = some other ∧ patch.Awaits id other := by
  have hlt : i < d.order.size := size_waits patch d ▸ lt_of_waitsFor h
  have hid := Array.getElem?_eq_getElem hlt
  obtain ⟨source, hr, hj⟩ := (waitsFor_iff hd hid).1 h
  exact ⟨_, source.node, hid, hj, source, hr, rfl⟩

theorem mem_nodesAt : id ∈ d.nodesAt places ↔ ∃ p ∈ places, d.order[p]? = some id :=
  List.mem_filterMap

/-- No node has two places. -/
theorem place_inj (hd : Sound patch roots d) {i j : Nat} (hi : d.order[i]? = some id)
    (hj : d.order[j]? = some id) : i = j := by
  have hi := (hd.place?_eq_some_iff id i).2 hi
  have hj := (hd.place?_eq_some_iff id j).2 hj
  exact Option.some.inj (hi.symm.trans hj)

theorem mem_nodesAt_iff (hd : Sound patch roots d) {i : Nat} (hid : d.order[i]? = some id) :
    id ∈ d.nodesAt places ↔ i ∈ places := by
  rw [mem_nodesAt]
  exact ⟨fun ⟨j, hj, hother⟩ => place_inj hd hid hother ▸ hj, fun hi => ⟨i, hi, hid⟩⟩

theorem nodup_nodesAt (hd : Sound patch roots d) (hp : places.Nodup) :
    (d.nodesAt places).Nodup :=
  hp.filterMap fun _ _ _ hi hj => place_inj hd hi hj

/-- What comes before a node is what lies at the places before its place. -/
theorem exists_split_of_nodesAt {before after : List NodeId}
    (h : d.nodesAt places = before ++ id :: after) :
    ∃ ps i qs, places = ps ++ i :: qs ∧ d.nodesAt ps = before ∧ d.order[i]? = some id := by
  obtain ⟨ps, qs, rfl, rfl, hq⟩ := List.filterMap_eq_append_iff.1 h
  obtain ⟨rs, i, ss, rfl, hrs, hid, -⟩ := List.filterMap_eq_cons_iff.1 hq
  refine ⟨ps ++ rs, i, ss, by simp, ?_, hid⟩
  rw [nodesAt, List.filterMap_append, List.filterMap_eq_nil_iff.2 hrs, List.append_nil]

/-- Nodes are in order if their places are. -/
theorem inOrder_nodesAt (hd : Complete patch roots d)
    (hp : InOrder (WaitsFor (d.waits patch)) places) :
    InOrder patch.Awaits (d.nodesAt places) := by
  intro before id after h other hother
  obtain ⟨source, hr, rfl⟩ := hother
  obtain ⟨ps, i, qs, rfl, rfl, hid⟩ := exists_split_of_nodesAt h
  have hmem := hd.reachable id (Array.mem_of_getElem? hid)
  -- The source has a place of its own, for which that of the node waits.
  obtain ⟨j, hj⟩ := Array.mem_iff_getElem?.1 (hd.mem_order_iff.2 (hmem.of_reads hr))
  exact (mem_nodesAt_iff hd.toSound hj).2
    (hp ps i qs rfl j ((waitsFor_iff hd.toSound hid).2 ⟨source, hr, hj⟩))

/-! ## Scheduling the nodes found -/

theorem schedule_eq_ok (hd : Complete patch roots d) (h : d.schedule patch = .ok order) :
    order.Nodup ∧ (∀ id, id ∈ order ↔ patch.Reachable roots id) ∧ InOrder patch.Awaits order := by
  have hs := run_consistent (d.waits patch)
  rw [schedule] at h
  split at h
  · next hsize =>
    obtain rfl := Except.ok.inj h
    refine ⟨nodup_nodesAt hd.toSound hs.placed_nodup, fun id => ?_,
      inOrder_nodesAt hd hs.placed_inOrder⟩
    rw [mem_nodesAt, ← hd.mem_order_iff, Array.mem_iff_getElem?]
    refine ⟨fun ⟨p, _, hp⟩ => ⟨p, hp⟩, fun ⟨p, hp⟩ => ⟨p, hs.mem_placed ?_ ?_, hp⟩⟩
    · rw [hsize, size_waits]
    · rw [size_waits]
      exact (Array.getElem?_eq_some_iff.1 hp).1
  · simp at h

/-- A node that is not scheduled is blocked. -/
theorem blocked_of_not_placed (hd : Complete patch roots d) {i : Nat} (hid : d.order[i]? = some id)
    (hnot : i ∉ (run (d.waits patch)).placed.toList) : patch.Blocked id := by
  have hclosed : ∀ i j, WaitsFor (d.waits patch) i j → j < (d.waits patch).size := by
    intro i j hij
    obtain ⟨_, _, _, hj, _⟩ := exists_of_waitsFor hd.toSound hij
    exact size_waits patch d ▸ (Array.getElem?_eq_some_iff.1 hj).1
  have hi : i < (d.waits patch).size := size_waits patch d ▸ (Array.getElem?_eq_some_iff.1 hid).1
  obtain ⟨c, hway, hcircle⟩ := exists_circle hclosed hi hnot
  -- A way from place to place becomes one from node to node.
  let nodeAt (i : Nat) : NodeId := d.order.getD i ⟨0⟩
  have hlift : ∀ i j, WaitsFor (d.waits patch) i j → patch.Awaits (nodeAt i) (nodeAt j) := by
    intro i j hij
    obtain ⟨id, other, hid, hother, hawaits⟩ := exists_of_waitsFor hd.toSound hij
    simpa [nodeAt, hid, hother] using hawaits
  have hstart : nodeAt i = id := by simp [nodeAt, hid]
  exact ⟨nodeAt c, hstart ▸ hway.lift nodeAt hlift, hcircle.lift nodeAt hlift⟩

/-- If not all nodes can be scheduled, one of them waits for itself. -/
theorem exists_circle_of_schedule_eq_error {e : GraphError} (hd : Complete patch roots d)
    (h : d.schedule patch = .error e) :
    ∃ id, patch.Reachable roots id ∧ TransGen patch.Awaits id id := by
  rw [schedule] at h
  split at h
  · simp at h
  next hsize =>
    rw [← size_waits patch d] at hsize
    obtain ⟨i, hi, hnot⟩ := (run_consistent (d.waits patch)).exists_not_placed hsize
    have hid := Array.getElem?_eq_getElem (size_waits patch d ▸ hi)
    obtain ⟨other, hway, hcircle⟩ := blocked_of_not_placed hd hid hnot
    have hreach := hd.reachable _ (Array.mem_of_getElem? hid)
    exact ⟨other, hreach.of_reflTransGen hway, hcircle⟩

end Discovery

/-! ## Resolving -/

namespace Resolution

variable {patch : Patch} {roots : List OutputRef}

/-- The resolution is one of the patch for the roots. -/
structure Resolves (patch : Patch) (roots : List OutputRef) (r : Resolution) : Prop where
  order_nodup : r.order.Nodup
  mem_order_iff : ∀ id, id ∈ r.order ↔ patch.Reachable roots id
  order_inOrder : InOrder patch.Awaits r.order
  delayed_pairwise : r.delayed.Pairwise fun a b =>
    a.node.index < b.node.index ∨ a.node = b.node ∧ a.index < b.index
  mem_delayed_iff : ∀ source, source ∈ r.delayed ↔
    ∃ id, patch.Reachable roots id ∧ patch.Recalls id source

theorem Resolves.delayed_nodup {r : Resolution} (h : r.Resolves patch roots) :
    r.delayed.Nodup :=
  h.delayed_pairwise.imp fun {a b} hab => by
    rintro rfl
    omega

theorem ofPatch_eq_ok {r : Resolution} (h : ofPatch patch roots = .ok r) :
    r.Resolves patch roots ∧ patch.Resolvable roots := by
  rw [ofPatch] at h
  split at h
  · simp at h
  next hroots =>
    obtain ⟨d, hd, h⟩ := bind_eq_ok_iff.1 h
    obtain ⟨order, horder, h⟩ := bind_eq_ok_iff.1 h
    obtain rfl := Except.ok.inj h
    have hd := Discovery.ofPatch_complete hd
    obtain ⟨hnodup, hmem, hinOrder⟩ := Discovery.schedule_eq_ok hd horder
    constructor
    · refine ⟨hnodup, hmem, hinOrder, ?_, fun source => ?_⟩
      · simpa only [OutputRef.before_iff] using
          pairwise_ascending OutputRef.before_trichotomy OutputRef.before_trans d.delayed.toList
      · rw [mem_ascending OutputRef.before_trichotomy, Array.mem_toList_iff, hd.mem_delayed_iff]
    · refine ⟨by simpa using hroots, hd.root_exists,
        fun id hid b output hb hs => hd.source_exists hid hb hs, fun id hid => ?_⟩
      exact hinOrder.not_transGen hnodup ((hmem id).2 hid)

theorem not_resolvable_of_eq_error {e : GraphError} (h : ofPatch patch roots = .error e) :
    ¬patch.Resolvable roots := by
  intro hp
  rw [ofPatch, if_neg (by simpa using hp.roots_ne_nil)] at h
  rcases bind_eq_error_iff.1 h with h | ⟨d, hd, h⟩
  · rcases Discovery.exists_of_ofPatch_eq_error h with
      ⟨root, hroot, hc⟩ | ⟨id, hid, b, s, hb, hs, hc⟩
    · exact hc (hp.root_exists root hroot)
    · exact hc (hp.source_exists id hid b s hb hs)
  · rcases bind_eq_error_iff.1 h with h | ⟨order, _, h⟩
    · obtain ⟨id, hid, hcircle⟩ :=
        Discovery.exists_circle_of_schedule_eq_error (Discovery.ofPatch_complete hd) h
      exact hp.acyclic id hid hcircle
    · cases h

theorem exists_ofPatch_eq_ok (hp : patch.Resolvable roots) : ∃ r, ofPatch patch roots = .ok r := by
  cases h : ofPatch patch roots with
  | ok r => exact ⟨r, rfl⟩
  | error e => exact absurd hp (not_resolvable_of_eq_error h)

/-- A patch is resolved for some roots exactly if nothing is wrong with it: there are
    roots, they and all that is referred to by nodes contributing to them exist, and
    no such node waits for itself. Then the order lists the nodes that contribute,
    each once and after all it waits for, and the delayed outputs are those that
    such nodes recall, in ascending order. -/
theorem ofPatch_isOk_iff (patch : Patch) (roots : List OutputRef) :
    ((∃ r, ofPatch patch roots = .ok r) ↔ patch.Resolvable roots) ∧
      ∀ r, ofPatch patch roots = .ok r → r.Resolves patch roots := by
  refine ⟨⟨fun ⟨r, h⟩ => (ofPatch_eq_ok h).2, fun hp => ?_⟩, fun r h => (ofPatch_eq_ok h).1⟩
  cases h : ofPatch patch roots with
  | ok r => exact ⟨r, rfl⟩
  | error e => exact absurd hp (not_resolvable_of_eq_error h)

end Resolution

end SignalGraph
