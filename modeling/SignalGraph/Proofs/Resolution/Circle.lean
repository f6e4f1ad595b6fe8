import SignalGraph.Proofs.Resolution.Order

/-!
# What a refusal for a circle names

If all that is referred to exists (`Patch.Linked`), a patch is refused for circles only, and
the refusal lists the nodes that cannot be updated: those that wait for themselves, and
those that wait for such, be it through others (`Patch.Blocked`). It lists no others, and
each once: `Resolution.ofPatch_eq_cycle_iff`.

The list is read off the counts of a schedule that has come to a halt. A count that is not
zero means a job that has not been placed (`Schedule.mem_stuck_run`). Such a job is blocked,
as the way from one to the next of them must end in a circle; and a job that has been placed
is not, as it comes after all it waits for.
-/

namespace SignalGraph

open Relation

variable {patch : Patch} {roots : List OutputRef} {id : NodeId} {e : GraphError}
  {nodes nodes' : List NodeId}

namespace NodeId

variable {a b c : NodeId}

theorem before_iff : a.before b ↔ a.index < b.index := by simp [before]

theorem before_trichotomy (a b : NodeId) : a.before b ∨ a = b ∨ b.before a := by
  obtain ⟨m⟩ := a
  obtain ⟨n⟩ := b
  simp only [before_iff, NodeId.mk.injEq]
  omega

theorem before_trans (a b c : NodeId) (hab : a.before b) (hbc : b.before c) : a.before c := by
  rw [before_iff] at hab hbc ⊢
  omega

end NodeId

namespace Patch

/-- There are roots, and they and all that contributing nodes refer to exist. -/
structure Linked (patch : Patch) (roots : List OutputRef) : Prop where
  roots_ne_nil : roots ≠ []
  root_exists : ∀ output ∈ roots, patch.containsOutput output
  source_exists : ∀ id, patch.Reachable roots id → ∀ b output, patch.Binds id b →
    b.source? = some output → patch.containsOutput output

/-- The list names the nodes that contribute to the roots and are blocked, of which there
    are some, in ascending order. -/
structure ListsBlocked (patch : Patch) (roots : List OutputRef) (nodes : List NodeId) : Prop where
  ne_nil : nodes ≠ []
  ascending : nodes.Pairwise (·.index < ·.index)
  mem_iff : ∀ id, id ∈ nodes ↔ patch.Reachable roots id ∧ patch.Blocked id

/-- There is one such list only. -/
theorem ListsBlocked.eq (h : patch.ListsBlocked roots nodes)
    (h' : patch.ListsBlocked roots nodes') : nodes = nodes' := by
  have hnodup {l : List NodeId} (hl : l.Pairwise (·.index < ·.index)) : l.Nodup :=
    hl.imp fun {a b} hab heq => hab.ne (congrArg NodeId.index heq)
  have hperm : nodes.Perm nodes' := (List.perm_ext_iff_of_nodup (hnodup h.ascending)
    (hnodup h'.ascending)).2 fun id => (h.mem_iff id).trans (h'.mem_iff id).symm
  refine hperm.eq_of_pairwise (fun a b _ _ hab hba => ?_) h.ascending h'.ascending
  exact absurd hab (Nat.lt_asymm hba)

/-- A patch with blocked nodes cannot be resolved. -/
theorem ListsBlocked.not_resolvable (h : patch.ListsBlocked roots nodes) :
    ¬patch.Resolvable roots := by
  intro hp
  obtain ⟨id, hid⟩ := List.exists_mem_of_ne_nil nodes h.ne_nil
  obtain ⟨hreach, other, hway, hcircle⟩ := (h.mem_iff id).1 hid
  exact hp.acyclic other (hreach.of_reflTransGen hway) hcircle

end Patch

namespace Discovery

open Schedule

variable {d : Discovery}

/-! ## Searches -/

theorem follow_ne_cycle {output : OutputRef} {site : ReferenceSite}
    (h : d.follow patch output site = .error e) : e ≠ .cycle nodes := by
  rw [follow] at h
  split at h
  · cases h
  · obtain rfl := Except.error.inj h
    simp

theorem expand_ne_cycle (h : d.expand patch id = .error e) : e ≠ .cycle nodes := by
  rw [expand] at h
  split at h
  · obtain rfl := Except.error.inj h
    simp
  · obtain ⟨⟨b, i⟩, -, t, ht⟩ := exists_of_foldlM_eq_error h
    cases b with
    | constant value => cases ht
    | output source => exact follow_ne_cycle ht
    | feedback source => exact follow_ne_cycle (map_eq_error_iff.1 ht)

theorem walk_ne_cycle {next count : Nat} (h : d.walk patch next count = .error e) :
    e ≠ .cycle nodes := by
  induction count generalizing d next with
  | zero => cases h
  | succ count ih =>
    rw [walk] at h
    cases hid : d.order[next]? with
    | none => simp [hid] at h
    | some id =>
      rw [hid] at h
      rcases bind_eq_error_iff.1 h with h | ⟨d', _, h⟩
      · exact expand_ne_cycle h
      · exact ih h

/-- A search is not refused for circles. -/
theorem ofPatch_ne_cycle (h : Discovery.ofPatch patch roots = .error e) : e ≠ .cycle nodes := by
  rcases bind_eq_error_iff.1 h with h | ⟨d, _, h⟩
  · obtain ⟨root, -, t, ht⟩ := exists_of_foldlM_eq_error h
    exact follow_ne_cycle ht
  · exact walk_ne_cycle h

/-! ## Schedules -/

/-- A node that is scheduled comes after all that it waits for, so it is not blocked. -/
theorem not_blocked_of_placed (hd : Complete patch roots d) {i : Nat} (hid : d.order[i]? = some id)
    (hplaced : i ∈ (run (d.waits patch)).placed.toList) : ¬patch.Blocked id := by
  rintro ⟨other, hway, hcircle⟩
  have hs := run_consistent (d.waits patch)
  have hinOrder := inOrder_nodesAt hd hs.placed_inOrder
  have hmem : id ∈ d.nodesAt (run (d.waits patch)).placed.toList := mem_nodesAt.2 ⟨i, hplaced, hid⟩
  refine hinOrder.not_transGen (nodup_nodesAt hd.toSound hs.placed_nodup) ?_ hcircle
  rcases reflTransGen_iff_eq_or_transGen.1 hway with rfl | hway
  · exact hmem
  · obtain ⟨before, after, hsplit⟩ := List.append_of_mem hmem
    exact hsplit ▸ List.mem_append_left _ (hinOrder.mem_of_transGen hsplit hway)

/-- The nodes left over are those that contribute and are blocked. -/
theorem mem_nodesAt_stuck (hd : Complete patch roots d) :
    id ∈ d.nodesAt (run (d.waits patch)).stuck ↔ patch.Reachable roots id ∧ patch.Blocked id := by
  rw [mem_nodesAt, ← hd.mem_order_iff, Array.mem_iff_getElem?]
  constructor
  · rintro ⟨i, hstuck, hid⟩
    exact ⟨⟨i, hid⟩, blocked_of_not_placed hd hid (mem_stuck_run.1 hstuck).2⟩
  · rintro ⟨⟨i, hid⟩, hblocked⟩
    have hi : i < (d.waits patch).size := size_waits patch d ▸ (Array.getElem?_eq_some_iff.1 hid).1
    have hnot : i ∉ _ := fun hplaced => not_blocked_of_placed hd hid hplaced hblocked
    exact ⟨i, mem_stuck_run.2 ⟨hi, hnot⟩, hid⟩

/-- If not all nodes can be scheduled, the refusal lists those that are blocked. -/
theorem schedule_eq_error (hd : Complete patch roots d) (h : d.schedule patch = .error e) :
    ∃ nodes, e = .cycle nodes ∧ patch.ListsBlocked roots nodes := by
  obtain ⟨id, hid, hcircle⟩ := exists_circle_of_schedule_eq_error hd h
  rw [schedule] at h
  split at h
  · cases h
  · refine ⟨_, (Except.error.inj h).symm, ?_⟩
    have hmem : ∀ id, id ∈ ascending NodeId.before (d.nodesAt (run (d.waits patch)).stuck) ↔
        patch.Reachable roots id ∧ patch.Blocked id := fun id =>
      (mem_ascending NodeId.before_trichotomy).trans (mem_nodesAt_stuck hd)
    refine ⟨List.ne_nil_of_mem ((hmem id).2 ⟨hid, id, .refl, hcircle⟩), ?_, hmem⟩
    simpa only [NodeId.before_iff] using
      pairwise_ascending NodeId.before_trichotomy NodeId.before_trans _

end Discovery

namespace Resolution

theorem of_ofPatch_eq_cycle (h : ofPatch patch roots = .error (.cycle nodes)) :
    patch.Linked roots ∧ patch.ListsBlocked roots nodes := by
  rw [ofPatch] at h
  split at h
  · cases h
  next hroots =>
    rcases bind_eq_error_iff.1 h with h | ⟨d, hd, h⟩
    · exact absurd rfl (Discovery.ofPatch_ne_cycle h)
    · have hd := Discovery.ofPatch_complete hd
      rcases bind_eq_error_iff.1 h with h | ⟨order, _, h⟩
      · obtain ⟨_, heq, hlists⟩ := Discovery.schedule_eq_error hd h
        obtain rfl := GraphError.cycle.inj heq
        exact ⟨⟨by simpa using hroots, hd.root_exists,
          fun id hid b output hb hs => hd.source_exists hid hb hs⟩, hlists⟩
      · cases h

/-- If all that is referred to exists, nothing but circles is refused. -/
theorem exists_cycle_of_linked (hp : patch.Linked roots) (h : ofPatch patch roots = .error e) :
    ∃ nodes, e = .cycle nodes := by
  rw [ofPatch, if_neg (by simpa using hp.roots_ne_nil)] at h
  rcases bind_eq_error_iff.1 h with h | ⟨d, hd, h⟩
  · rcases Discovery.exists_of_ofPatch_eq_error h with
      ⟨root, hroot, hc⟩ | ⟨id, hid, b, s, hb, hs, hc⟩
    · exact absurd (hp.root_exists root hroot) hc
    · exact absurd (hp.source_exists id hid b s hb hs) hc
  · rcases bind_eq_error_iff.1 h with h | ⟨order, _, h⟩
    · obtain ⟨nodes, rfl, -⟩ := Discovery.schedule_eq_error (Discovery.ofPatch_complete hd) h
      exact ⟨nodes, rfl⟩
    · cases h

/-- A patch is refused for a circle, naming some nodes, exactly if there are roots, they and
    all that contributing nodes refer to exist, and the nodes named are those that
    contribute and from which a circle is reached by going on to what a node waits for.
    They are named in ascending order, each once, and there is at least one. -/
theorem ofPatch_eq_cycle_iff (patch : Patch) (roots : List OutputRef) (nodes : List NodeId) :
    ofPatch patch roots = .error (.cycle nodes) ↔
      patch.Linked roots ∧ patch.ListsBlocked roots nodes := by
  refine ⟨of_ofPatch_eq_cycle, fun ⟨hp, hlists⟩ => ?_⟩
  cases h : ofPatch patch roots with
  | ok r => exact absurd (ofPatch_eq_ok h).2 hlists.not_resolvable
  | error e =>
    obtain ⟨nodes', rfl⟩ := exists_cycle_of_linked hp h
    rw [(of_ofPatch_eq_cycle h).2.eq hlists]

end Resolution

end SignalGraph
