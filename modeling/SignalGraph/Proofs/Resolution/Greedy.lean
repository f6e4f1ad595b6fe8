import SignalGraph.Proofs.Patch.Editing
import SignalGraph.Proofs.Resolution.BreadthFirst
import SignalGraph.Proofs.Resolution.Order

/-!
# Which node goes first

At each place of the update order there may be several nodes that could come next: those
that contribute, have not been placed yet, and wait for nothing but what has been placed
(`Patch.Placeable`). It is always the one of them that has been discovered last
(`Resolution.order_greedy`). So if the nodes can be updated in the reverse order of
discovery, they are (`Greedy.eq_of_descending`).

A schedule keeps a list of what is ready. That its first job is the greatest of all jobs that
could be placed is because nothing else could be placed: the ready jobs are the placeable
ones (`Schedule.Consistent.mem_ready_iff`).
-/

namespace SignalGraph

/-! ## Greedy lists -/

/-- Each element of the list may follow those before it, and no element that may do so has a
    greater rank. -/
def Greedy {α : Type} (may : List α → α → Prop) (rank : α → Nat) (l : List α) : Prop :=
  ∀ before a after, l = before ++ a :: after →
    may before a ∧ ∀ b, may before b → rank b ≤ rank a

namespace Greedy

variable {α : Type} {may : List α → α → Prop} {rank : α → Nat} {l m : List α}

theorem nil : Greedy may rank [] := by
  intro before a after h
  simp at h

theorem concat (hl : Greedy may rank l) {a : α} (ha : may l a)
    (hmax : ∀ b, may l b → rank b ≤ rank a) : Greedy may rank (l ++ [a]) :=
  forall_split_concat hl ⟨ha, hmax⟩

/-- A greedy list is in descending order, if that order is one in which each element may
    follow those before it. -/
theorem eq_of_descending (hl : Greedy may rank l) (hperm : l.Perm m)
    (hm : ∀ before a after, m = before ++ a :: after → may before a)
    (hsorted : m.Pairwise fun a b => rank b < rank a) : l = m := by
  suffices h : ∀ before, before <+: l → before <+: m from
    (h l List.prefix_rfl).eq_of_length hperm.length_eq
  intro before
  induction before using List.reverseRecOn with
  | nil => exact fun _ => List.nil_prefix
  | append_singleton before a ih =>
    intro hbefore
    obtain ⟨after, hafter⟩ := hbefore
    have hafter : l = before ++ a :: after := by simp [← hafter]
    obtain ⟨rest, rfl⟩ := ih ⟨a :: after, hafter.symm⟩
    -- What is left of both lists is the same, and each begins with the greatest of it.
    have hrest : (a :: after).Perm rest := (List.perm_append_left_iff before).1 (hafter ▸ hperm)
    have hmem : a ∈ rest := hrest.mem_iff.1 List.mem_cons_self
    obtain ⟨b, rest, rfl⟩ := List.exists_cons_of_ne_nil (List.ne_nil_of_mem hmem)
    have hle := (hl before a after hafter).2 b (hm before b rest rfl)
    rcases List.mem_cons.1 hmem with rfl | hmem
    · exact ⟨rest, by simp⟩
    · have hlt := List.rel_of_pairwise_cons (List.pairwise_append.1 hsorted).2.1 hmem
      omega

end Greedy

/-! ## Jobs -/

namespace Schedule

variable {waits : Waits} {s : Schedule}

/-- The job has not been placed, but all it waits for has. -/
def Placeable (waits : Waits) (placed : List Nat) (job : Nat) : Prop :=
  job < waits.size ∧ job ∉ placed ∧ ∀ source, WaitsFor waits job source → source ∈ placed

namespace Consistent

/-- The ready jobs are those that can be placed. -/
theorem mem_ready_iff (hs : Consistent waits s) (job : Nat) :
    job ∈ s.ready ↔ Placeable waits s.placed.toList job := by
  rw [hs.mem_ready, hs.waiting_eq_zero_iff]
  rfl

/-- A step places the greatest job that can be placed. -/
theorem greedy_step (hs : Consistent waits s)
    (hgreedy : Greedy (Placeable waits) id s.placed.toList) :
    Greedy (Placeable waits) id (s.step (readers waits)).placed.toList := by
  cases hready : s.ready with
  | nil => rwa [Schedule.step, hready]
  | cons job ready =>
    rw [(hs.places hready).placed_eq]
    refine hgreedy.concat ((hs.mem_ready_iff job).1 (hready ▸ List.mem_cons_self)) fun other h => ?_
    have hsorted : (job :: ready).Pairwise (· > ·) := hready ▸ hs.ready_sorted
    have hmem : other ∈ job :: ready := hready ▸ (hs.mem_ready_iff other).2 h
    rcases List.mem_cons.1 hmem with rfl | hmem
    · exact Nat.le_refl _
    · exact Nat.le_of_lt (List.rel_of_pairwise_cons hsorted hmem)

theorem greedy_steps (hs : Consistent waits s)
    (hgreedy : Greedy (Placeable waits) id s.placed.toList) (n : Nat) :
    Greedy (Placeable waits) id (s.steps (readers waits) n).placed.toList := by
  induction n generalizing s with
  | zero => exact hgreedy
  | succ n ih => exact ih hs.step (hs.greedy_step hgreedy)

end Consistent

theorem greedy_run (waits : Waits) : Greedy (Placeable waits) id (run waits).placed.toList :=
  (consistent_start waits).greedy_steps .nil waits.size

end Schedule

/-! ## Nodes -/

/-- The node contributes to the roots and has not been placed, but all it waits for has. -/
def Patch.Placeable (patch : Patch) (roots : List OutputRef) (placed : List NodeId)
    (id : NodeId) : Prop :=
  patch.Reachable roots id ∧ id ∉ placed ∧ ∀ other, patch.Awaits id other → other ∈ placed

namespace Discovery

open Schedule

variable {patch : Patch} {roots : List OutputRef} {d : Discovery} {id : NodeId}
  {order : List NodeId} {places : List Nat}

/-- A node can be placed exactly if its place can. -/
theorem placeable_iff (hd : Complete patch roots d) {i : Nat} (hid : d.order[i]? = some id) :
    patch.Placeable roots (d.nodesAt places) id ↔ Schedule.Placeable (d.waits patch) places i := by
  have hreach : patch.Reachable roots id := hd.reachable id (Array.mem_of_getElem? hid)
  have hlt : i < (d.waits patch).size := size_waits patch d ▸ (Array.getElem?_eq_some_iff.1 hid).1
  refine and_congr (iff_of_true hreach hlt)
    (and_congr (mem_nodesAt_iff hd.toSound hid).not ⟨fun h j hij => ?_, fun h other hother => ?_⟩)
  · obtain ⟨source, hr, hj⟩ := (waitsFor_iff hd.toSound hid).1 hij
    exact (mem_nodesAt_iff hd.toSound hj).1 (h _ ⟨source, hr, rfl⟩)
  · obtain ⟨source, hr, rfl⟩ := hother
    obtain ⟨j, hj⟩ := Array.mem_iff_getElem?.1 (hd.mem_order_iff.2 (hreach.of_reads hr))
    exact (mem_nodesAt_iff hd.toSound hj).2
      (h j ((waitsFor_iff hd.toSound hid).2 ⟨source, hr, hj⟩))

theorem idxOf_order (hd : Sound patch roots d) {i : Nat} (hid : d.order[i]? = some id) :
    d.order.toList.idxOf id = i := by
  have hmem : id ∈ d.order.toList := Array.mem_toList_iff.2 (Array.mem_of_getElem? hid)
  refine place_inj hd ?_ hid
  rw [← Array.getElem?_toList]
  exact List.getElem?_idxOf hmem

/-- Of the nodes that could come next, the one found last does. -/
theorem greedy_schedule (hd : Complete patch roots d) (h : d.schedule patch = .ok order) :
    Greedy (patch.Placeable roots) (d.order.toList.idxOf ·) order := by
  rw [schedule] at h
  split at h
  case isFalse => cases h
  obtain rfl := Except.ok.inj h
  intro before id after hsplit
  obtain ⟨ps, i, qs, hplaces, rfl, hid⟩ := exists_split_of_nodesAt hsplit
  obtain ⟨hplaceable, hmax⟩ := greedy_run (d.waits patch) ps i qs hplaces
  refine ⟨(placeable_iff hd hid).2 hplaceable, fun other hother => ?_⟩
  obtain ⟨j, hj⟩ := Array.mem_iff_getElem?.1 (hd.mem_order_iff.2 hother.1)
  show d.order.toList.idxOf other ≤ d.order.toList.idxOf id
  rw [idxOf_order hd.toSound hid, idxOf_order hd.toSound hj]
  exact hmax j ((placeable_iff hd hj).1 hother)

end Discovery

/-! ## Resolutions -/

namespace Patch.BreadthFirst

variable {patch : Patch} {roots : List OutputRef} {found : List NodeId}

theorem pairwise_idxOf_reverse (h : patch.BreadthFirst roots found) :
    found.reverse.Pairwise fun a b => found.idxOf b < found.idxOf a := by
  rw [List.pairwise_reverse, List.pairwise_iff_getElem]
  intro i j hi hj hij
  rwa [h.nodup.idxOf_getElem, h.nodup.idxOf_getElem]

/-- In the reverse order of discovery each node can be placed in turn, if each comes after
    all it waits for. -/
theorem placeable_of_reverse (h : patch.BreadthFirst roots found)
    (hinOrder : InOrder patch.Awaits found.reverse) (before : List NodeId) (id : NodeId)
    (after : List NodeId) (hsplit : found.reverse = before ++ id :: after) :
    patch.Placeable roots before id := by
  have hnodup : (before ++ id :: after).Nodup := hsplit ▸ List.nodup_reverse.2 h.nodup
  have hmem : id ∈ found := List.mem_reverse.1 (by simp [hsplit])
  refine ⟨(h.mem_iff id).1 hmem, fun hbefore => ?_, hinOrder before id after hsplit⟩
  exact (List.nodup_append.1 hnodup).2.2 id hbefore id List.mem_cons_self rfl

end Patch.BreadthFirst

namespace Resolution

variable {patch : Patch} {roots : List OutputRef} {r : Resolution}

/-- The nodes that contribute have an order of discovery, and by any such order, at each
    place of the update order there is the node discovered last of all that could be
    placed there. So if the reverse order of discovery is possible, it is the update order. -/
theorem order_greedy (h : ofPatch patch roots = .ok r) :
    (∃ found, patch.BreadthFirst roots found) ∧ ∀ found, patch.BreadthFirst roots found →
      Greedy (patch.Placeable roots) (found.idxOf ·) r.order ∧
      (InOrder patch.Awaits found.reverse → r.order = found.reverse) := by
  have hr := (ofPatch_eq_ok h).1
  rw [ofPatch] at h
  split at h
  · cases h
  obtain ⟨d, hd, h⟩ := bind_eq_ok_iff.1 h
  obtain ⟨order, horder, h⟩ := bind_eq_ok_iff.1 h
  obtain rfl := Except.ok.inj h
  have hfirst := Discovery.ofPatch_breadthFirst hd
  refine ⟨⟨_, hfirst⟩, fun found hfound => ?_⟩
  obtain rfl := hfound.eq hfirst
  have hgreedy := Discovery.greedy_schedule (Discovery.ofPatch_complete hd) horder
  refine ⟨hgreedy, fun hinOrder => ?_⟩
  have hperm : order.Perm d.order.toList.reverse :=
    (List.perm_ext_iff_of_nodup hr.order_nodup (List.nodup_reverse.2 hfirst.nodup)).2 fun id => by
      rw [List.mem_reverse, hr.mem_order_iff, hfirst.mem_iff]
  exact hgreedy.eq_of_descending hperm (hfirst.placeable_of_reverse hinOrder)
    hfirst.pairwise_idxOf_reverse

end Resolution

/-- A sum that reads a node directly, and once more through another sum. -/
def Patch.detour : Patch :=
  let edit : Edit GraphError OutputRef := do
    let source ← constant 1
    let between ← sum (.output source) (.constant 1)
    sum (.output source) (.output between)
  edit.after {}

theorem Patch.resolution_detour : Resolution.ofPatch detour [⟨⟨2⟩, 0⟩] =
    .ok ⟨[⟨0⟩, ⟨1⟩, ⟨2⟩], []⟩ := by decide +kernel

/-- The reverse order of discovery is not possible: the sum in between would come before the
    node that it reads. -/
theorem Resolution.order_greedy_detour :
    ofPatch .detour [⟨⟨2⟩, 0⟩] = .ok ⟨[⟨0⟩, ⟨1⟩, ⟨2⟩], []⟩ ∧
    Patch.detour.BreadthFirst [⟨⟨2⟩, 0⟩] [⟨2⟩, ⟨0⟩, ⟨1⟩] ∧
    Greedy (Patch.detour.Placeable [⟨⟨2⟩, 0⟩]) ([⟨2⟩, ⟨0⟩, ⟨1⟩].idxOf ·) [⟨0⟩, ⟨1⟩, ⟨2⟩] := by
  have hfound : (Discovery.ofPatch .detour [⟨⟨2⟩, 0⟩]).map (·.order.toList) =
      .ok [⟨2⟩, ⟨0⟩, ⟨1⟩] := by decide +kernel
  obtain ⟨d, hd, horder⟩ := map_eq_ok_iff.1 hfound
  have hfirst : Patch.detour.BreadthFirst [⟨⟨2⟩, 0⟩] [⟨2⟩, ⟨0⟩, ⟨1⟩] :=
    horder ▸ Discovery.ofPatch_breadthFirst hd
  exact ⟨Patch.resolution_detour, hfirst,
    ((order_greedy Patch.resolution_detour).2 _ hfirst).1⟩

end SignalGraph
