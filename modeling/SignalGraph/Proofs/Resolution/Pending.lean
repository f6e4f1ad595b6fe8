import SignalGraph.Proofs.Patch.Expression
import SignalGraph.Proofs.Resolution.Order

/-!
# Counting down to what is ready

A schedule never asks a patch again what a node reads: it counts down, once for each entry of
the list of readers. That this comes to the same is an invariant of its steps
(`Discovery.Counts`): at any time the count of a node is the number of inputs by which it
reads, as of the same tick, nodes that have not been placed, and the nodes that are ready are
those with a count of zero that have not been placed.

Within a step, each reader released still has something to count down, and it has never been
made ready before (`Schedule.Releasable`). So no count runs below zero, no node is placed twice,
and there is nothing left to place after as many steps as there are nodes
(`Discovery.counts_steps`).
-/

namespace SignalGraph

/-- The outputs that a node reads as of the same tick, one for each input that reads one. -/
def Patch.readBy (patch : Patch) (id : NodeId) : List OutputRef :=
  match patch.node? id with
  | none => []
  | some node => node.inputs.toList.filterMap (·.sameTick?)

theorem Patch.mem_readBy {patch : Patch} {id : NodeId} {source : OutputRef} :
    source ∈ patch.readBy id ↔ patch.Reads id source := by
  have hsame : ∀ b : Binding, b.sameTick? = some source ↔ b = .output source := by
    intro b
    cases b <;> simp [Binding.sameTick?]
  rw [readBy]
  cases hnode : patch.node? id <;> simp [Reads, Binds, hnode, hsame]

namespace Schedule

variable {waits : Waits} {s : Schedule} {job reader : Nat} {ready before after : List Nat}

/-! ## Within a step -/

/-- A schedule within a step: the first job that was ready has been placed, and some of its
    readers have been released. -/
def midway (s : Schedule) (job : Nat) (ready released : List Nat) : Schedule :=
  released.foldl release { s with placed := s.placed.push job, ready }

/-- A step is over when all readers have been released. -/
theorem step_eq_midway (hready : s.ready = job :: ready) (readers : Array (List Nat)) :
    s.step readers = s.midway job ready (readersOf readers job) := by
  rw [step, hready]
  rfl

/-- The job may be released: an entry of it is still pending, so that it has not been ready. -/
structure Releasable (s : Schedule) (job : Nat) : Prop where
  waiting_pos : 0 < s.waiting job
  not_ready : job ∉ s.ready
  not_placed : job ∉ s.placed.toList

/-- All readers that a step releases may be released. -/
theorem Consistent.releasable (hs : Consistent waits s) (hready : s.ready = job :: ready)
    (hsplit : readersOf (readers waits) job = before ++ reader :: after) :
    (s.midway job ready before).Releasable reader := by
  have hjob : job ∈ s.ready := hready ▸ List.mem_cons_self
  have hcount : ∀ r, before.count r + (reader :: after).count r ≤ s.waiting r := by
    intro r
    rw [← List.count_append, ← hsplit]
    exact hs.count_readersOf_le hjob r
  have hbefore : ∀ r, before.count r ≤ s.waiting r := fun r => Nat.le_of_add_right_le (hcount r)
  have hpending : before.count reader < s.waiting reader := by
    have hle := hcount reader
    rw [List.count_cons_self] at hle
    omega
  refine ⟨?_, fun hmem => ?_, fun hmem => ?_⟩
  · rw [midway, waiting_foldl_release]
    exact Nat.sub_pos_of_lt hpending
  · rw [midway, mem_ready_foldl_release (by exact hbefore)] at hmem
    rcases hmem with hmem | ⟨-, heq⟩
    · -- What was ready before the step has nothing pending.
      have hzero := ((hs.mem_ready reader).1 (hready ▸ List.mem_cons_of_mem _ hmem)).2.2
      omega
    · exact hpending.ne' heq
  · rw [midway, placed_foldl_release, Array.toList_push, List.mem_append,
      List.mem_singleton] at hmem
    rcases hmem with hmem | rfl
    · have hzero := hs.waiting_of_placed hmem
      omega
    · have hzero := ((hs.mem_ready reader).1 hjob).2.2
      omega

/-! ## Between steps -/

namespace Consistent

/-- No job is ready twice, nor ready once it has been placed. -/
theorem nodup_placed_ready (hs : Consistent waits s) : (s.placed.toList ++ s.ready).Nodup := by
  refine List.nodup_append.2 ⟨hs.placed_nodup, hs.ready_sorted.imp fun h => h.ne', ?_⟩
  rintro placed hplaced job hjob rfl
  exact ((hs.mem_ready placed).1 hjob).2.1 hplaced

/-- As long as a job is ready, there are fewer jobs placed than there are jobs. -/
theorem size_placed_lt (hs : Consistent waits s) (hready : s.ready ≠ []) :
    s.placed.size < waits.size := by
  obtain ⟨job, hjob⟩ := List.exists_mem_of_ne_nil _ hready
  obtain ⟨hlt, hnot, -⟩ := (hs.mem_ready job).1 hjob
  refine lt_of_le_of_ne ?_ fun hsize => hnot (hs.mem_placed hsize hlt)
  simpa using hs.placed_subperm.length_le

end Consistent

end Schedule

namespace Discovery

open Schedule

variable {patch : Patch} {roots : List OutputRef} {d : Discovery} {s : Schedule} {id : NodeId}
  {r : Nat}

/-- What a schedule of the nodes found keeps between its steps. -/
structure Counts (patch : Patch) (d : Discovery) (s : Schedule) : Prop where
  /-- The count of a node is how often it reads a node that has not been placed. -/
  pending_eq : ∀ (r : Nat) (id : NodeId), d.order[r]? = some id → s.pending[r]? =
    some ((patch.readBy id).countP fun source => source.node ∉ d.nodesAt s.placed.toList)
  /-- What is ready has a count of zero and has not been placed, and there is no more of that. -/
  mem_ready : ∀ r, r ∈ s.ready ↔ ∃ id, d.order[r]? = some id ∧
    id ∉ d.nodesAt s.placed.toList ∧ s.pending[r]? = some 0
  /-- Nothing has been made ready twice. -/
  nodup : (s.placed.toList ++ s.ready).Nodup

/-- A place has an entry for each output that the node there reads. -/
theorem entries_eq (hid : d.order[r]? = some id) :
    entries (d.waits patch) r = (patch.readBy id).filterMap (d.place? ·.node) := by
  obtain ⟨hlt, rfl⟩ := Array.getElem?_eq_some_iff.1 hid
  rw [Patch.readBy]
  cases hnode : patch.node? d.order[r] with
  | none => simp [entries, waits, hlt, hnode]
  | some node =>
    simp only [entries, waits, hlt, Array.getD_eq_getD_getElem?, Array.getElem?_map,
      Array.getElem?_eq_getElem, Option.map_some, Option.getD_some, hnode, List.filterMap_filterMap]

/-- The entries that are pending are the outputs read of nodes that have not been placed. -/
theorem countP_entries (hd : Complete patch roots d) (hid : d.order[r]? = some id)
    (placed : List Nat) : (entries (d.waits patch) r).countP (· ∉ placed) =
      (patch.readBy id).countP fun source => source.node ∉ d.nodesAt placed := by
  rw [entries_eq hid, List.countP_filterMap]
  refine List.countP_congr fun source hsource => ?_
  -- What a node found reads has been found, too.
  have hreach := (hd.reachable id (Array.mem_of_getElem? hid)).of_reads (Patch.mem_readBy.1 hsource)
  obtain ⟨i, hi⟩ := Array.mem_iff_getElem?.1 (hd.mem_order_iff.2 hreach)
  simp [(hd.place?_eq_some_iff _ _).2 hi, mem_nodesAt_iff hd.toSound hi]

theorem counts (hd : Complete patch roots d) (hs : Consistent (d.waits patch) s) :
    Counts patch d s := by
  have hpending : ∀ r < d.order.size, s.pending[r]? = some (s.waiting r) := by
    intro r hr
    have hlt : r < s.pending.size := by rwa [hs.pending_size, size_waits]
    simp [waiting, hlt]
  refine ⟨fun r id hid => ?_, fun r => ?_, hs.nodup_placed_ready⟩
  · rw [hpending r (Array.getElem?_eq_some_iff.1 hid).1, hs.waiting_eq, countP_entries hd hid]
  · rw [hs.mem_ready, size_waits]
    constructor
    · rintro ⟨hlt, hnot, hzero⟩
      have hid := Array.getElem?_eq_getElem hlt
      refine ⟨_, hid, (mem_nodesAt_iff hd.toSound hid).not.2 hnot, ?_⟩
      rw [hpending r hlt, hzero]
    · rintro ⟨id, hid, hnot, hzero⟩
      have hlt := (Array.getElem?_eq_some_iff.1 hid).1
      rw [hpending r hlt] at hzero
      exact ⟨hlt, (mem_nodesAt_iff hd.toSound hid).not.1 hnot, Option.some.inj hzero⟩

/-- After any number of steps, the counts say what the nodes still wait for, and the next step
    releases only what may be released. A step that has anything to place is one of the first:
    there are no more of them than there are nodes that contribute. -/
theorem counts_steps (h : ofPatch patch roots = .ok d) (n : Nat) :
    let s := (start (d.waits patch)).steps (readers (d.waits patch)) n
    Counts patch d s ∧
      (∀ job ready before reader after, s.ready = job :: ready →
        readersOf (readers (d.waits patch)) job = before ++ reader :: after →
        (s.midway job ready before).Releasable reader) ∧
      (s.ready ≠ [] → n < d.order.size) ∧
      d.order.toList.Nodup ∧ ∀ id, id ∈ d.order ↔ patch.Reachable roots id := by
  have hd := ofPatch_complete h
  have hs := (consistent_start (d.waits patch)).steps n
  refine ⟨counts hd hs, fun job ready before reader after hready hsplit => ?_, fun hready => ?_,
    hd.nodup, fun id => hd.mem_order_iff⟩
  · exact hs.releasable hready hsplit
  · -- So far, each step has placed a job.
    have hplaced := (ready_steps_or_size (readers (d.waits patch)) n
      (start (d.waits patch))).resolve_left hready
    have hlt := hs.size_placed_lt hready
    rw [hplaced, size_waits] at hlt
    simpa [start] using hlt

/-- The square of a sum waits for the sum twice: when one of the two entries has been released,
    the other one is still pending. -/
theorem counts_steps_squared :
    ∃ d, ofPatch .squared [⟨⟨2⟩, 0⟩] = .ok d ∧
      let s := (start (d.waits .squared)).steps (readers (d.waits .squared)) 1
      s.ready = [1] ∧ s.pending = #[2, 0, 0] ∧ Counts .squared d s ∧
        (s.midway 1 [] [0]).Releasable 0 ∧ 1 < d.order.size := by
  have hwaits : (ofPatch .squared [⟨⟨2⟩, 0⟩]).map (·.waits .squared) = .ok #[[1, 1], [2], []] := by
    decide +kernel
  obtain ⟨d, hd, hwaits⟩ := map_eq_ok_iff.1 hwaits
  obtain ⟨hcounts, hreleasable, hlt, -⟩ := counts_steps hd 1
  refine ⟨d, hd, ?_⟩
  rw [hwaits] at hcounts hreleasable hlt ⊢
  have hready : ((start #[[1, 1], [2], []]).steps (readers #[[1, 1], [2], []]) 1).ready = [1] := by
    decide +kernel
  exact ⟨hready, by decide +kernel, hcounts,
    hreleasable 1 [] [0] 0 [] hready (by decide +kernel), hlt (by rw [hready]; decide)⟩

end Discovery

end SignalGraph
