import Mathlib.Data.List.Nodup
import Mathlib.Data.List.Perm.Subperm
import SignalGraph.Proofs.Outcome
import SignalGraph.Proofs.Resolution.Dependency
import SignalGraph.Resolution.Discovery

/-!
# What a walk finds

All that a walk has found at any time contributes to the roots (`Discovery.Sound`),
and what it has found it does not lose (`Discovery.Grows`). When the walk is over,
the bindings of all nodes found have been followed, so that the nodes found are those
that contribute, and no others: `Discovery.ofPatch_complete`.

A walk that fails has met an output that does not exist:
`Discovery.exists_of_ofPatch_eq_error`.
-/

namespace SignalGraph.Discovery

variable {patch : Patch} {roots : List OutputRef} {d d' : Discovery} {id : NodeId}
  {output source : OutputRef} {b : Binding} {e : GraphError}

/-! ## Soundness -/

/-- What has been found is found at its place, and contributes to the roots. -/
structure Sound (patch : Patch) (roots : List OutputRef) (d : Discovery) : Prop where
  place_size : d.place.size = patch.nodes.size
  place?_eq_some_iff : ∀ id p, d.place? id = some p ↔ d.order[p]? = some id
  reachable : ∀ id ∈ d.order, patch.Reachable roots id
  recalled : ∀ source ∈ d.delayed, ∃ id, patch.Reachable roots id ∧ patch.Recalls id source

/-- All that `d` has found, `d'` has found, too, and in the same place. -/
structure Grows (d d' : Discovery) : Prop where
  order : ∀ (p : Nat) (id : NodeId), d.order[p]? = some id → d'.order[p]? = some id
  delayed : ∀ source ∈ d.delayed, source ∈ d'.delayed

theorem Grows.refl (d : Discovery) : Grows d d := ⟨fun _ _ h => h, fun _ h => h⟩

theorem Grows.trans {d₁ d₂ d₃ : Discovery} (h₁ : Grows d₁ d₂) (h₂ : Grows d₂ d₃) :
    Grows d₁ d₃ :=
  ⟨fun p id h => h₂.order p id (h₁.order p id h), fun s h => h₂.delayed s (h₁.delayed s h)⟩

theorem Grows.mem_order (h : Grows d d') (hid : id ∈ d.order) : id ∈ d'.order := by
  obtain ⟨p, hp⟩ := Array.mem_iff_getElem?.1 hid
  exact Array.mem_iff_getElem?.2 ⟨p, h.order p id hp⟩

namespace Sound

theorem place?_of_mem (hd : Sound patch roots d) (hid : id ∈ d.order) :
    ∃ p, d.place? id = some p := by
  obtain ⟨p, hp⟩ := Array.mem_iff_getElem?.1 hid
  exact ⟨p, (hd.place?_eq_some_iff id p).2 hp⟩

/-- Only nodes of the patch are found. -/
theorem index_lt (hd : Sound patch roots d) (hid : id ∈ d.order) :
    id.index < patch.nodes.size := by
  obtain ⟨p, hp⟩ := hd.place?_of_mem hid
  by_contra hge
  rw [← hd.place_size] at hge
  simp [place?, hge] at hp

/-- No node is found twice. -/
theorem nodup (hd : Sound patch roots d) : d.order.toList.Nodup := by
  rw [List.nodup_iff_getElem?_ne_getElem?]
  intro i j hij hj h
  rw [List.getElem?_eq_getElem hj, Array.getElem?_toList, ← hd.place?_eq_some_iff] at h
  have h' := (hd.place?_eq_some_iff d.order[j] j).2 (Array.getElem?_eq_getElem hj)
  have : i = j := Option.some.inj (h.symm.trans h')
  omega

/-- There are no more nodes to find than the patch has. -/
theorem order_size_le (hd : Sound patch roots d) : d.order.size ≤ patch.nodes.size := by
  have hsub : d.order.toList ⊆ patch.nodeIds := by
    intro id hid
    have hlt := hd.index_lt (Array.mem_toList_iff.1 hid)
    exact List.mem_map.2 ⟨id.index, List.mem_range.2 hlt, rfl⟩
  simpa [Patch.nodeIds] using (hd.nodup.subperm hsub).length_le

theorem empty (patch : Patch) (roots : List OutputRef) :
    Sound patch roots (empty patch.nodes.size) where
  place_size := by simp [Discovery.empty]
  place?_eq_some_iff id p := by
    by_cases h : id.index < patch.nodes.size <;> simp [Discovery.empty, place?, h]
  reachable := by simp [Discovery.empty]
  recalled := by simp [Discovery.empty]

end Sound

/-! ## Finding a node -/

theorem find_of_some {p : Nat} (h : d.place? id = some p) : d.find id = d := by
  simp [find, h]

theorem find_of_none (h : d.place? id = none) : d.find id =
    { d with
      order := d.order.push id
      place := d.place.setIfInBounds id.index (some d.order.size) } := by
  simp [find, h]

theorem place?_find_of_ne {id' : NodeId} (hne : id' ≠ id) :
    (d.find id).place? id' = d.place? id' := by
  have hindex : id.index ≠ id'.index := fun h => hne (congrArg NodeId.mk h.symm)
  cases h : d.place? id with
  | some p => rw [find_of_some h]
  | none => simp [find_of_none h, place?, hindex]

theorem grows_find (d : Discovery) (id : NodeId) : Grows d (d.find id) := by
  cases h : d.place? id with
  | some p =>
    rw [find_of_some h]
    exact .refl d
  | none =>
    rw [find_of_none h]
    refine ⟨fun p id' hp => ?_, fun _ h => h⟩
    have hlt := (Array.getElem?_eq_some_iff.1 hp).1
    rw [Array.getElem?_push, if_neg (by omega), hp]

namespace Sound

theorem mem_order_find (hd : Sound patch roots d) (id : NodeId) {id' : NodeId} :
    id' ∈ (d.find id).order ↔ id' ∈ d.order ∨ id' = id := by
  cases h : d.place? id with
  | some p =>
    have hid := Array.mem_iff_getElem?.2 ⟨p, (hd.place?_eq_some_iff id p).1 h⟩
    rw [find_of_some h]
    exact ⟨.inl, fun h => h.elim (fun h => h) (fun h => h ▸ hid)⟩
  | none =>
    rw [find_of_none h]
    exact Array.mem_push

theorem place?_find_self (hd : Sound patch roots d) (hid : id.index < patch.nodes.size)
    (h : d.place? id = none) : (d.find id).place? id = some d.order.size := by
  simp [find_of_none h, place?, hd.place_size, hid]

/-- A node that contributes may be found. -/
theorem find (hd : Sound patch roots d) (hid : id.index < patch.nodes.size)
    (hreach : patch.Reachable roots id) : Sound patch roots (d.find id) := by
  cases h : d.place? id with
  | some p => exact (find_of_some h).symm ▸ hd
  | none =>
    have horder : ∀ p : Nat, (d.find id).order[p]? =
        if p = d.order.size then some id else d.order[p]? := by
      intro p
      rw [find_of_none h]
      exact Array.getElem?_push
    -- The node is new, so no place that has been given away is its own.
    have hnot : ∀ p : Nat, d.order[p]? ≠ some id := by
      intro p hp
      rw [← hd.place?_eq_some_iff, h] at hp
      simp at hp
    refine ⟨?_, fun id' p => ?_, fun id' h' => ?_, fun source h' => ?_⟩
    · simp [find_of_none h, hd.place_size]
    · rw [horder]
      by_cases hne : id' = id
      · subst hne
        rw [hd.place?_find_self hid h]
        split
        · next hp => simp [hp]
        · next hp => simpa [hnot p] using Ne.symm hp
      · rw [place?_find_of_ne hne, hd.place?_eq_some_iff]
        split
        · next hp => simp [hp, Ne.symm hne]
        · rfl
    · rcases (hd.mem_order_find id).1 h' with h' | rfl
      · exact hd.reachable id' h'
      · exact hreach
    · rw [find_of_none h] at h'
      exact hd.recalled source h'

end Sound

/-! ## Following bindings -/

/-- What the binding refers to exists and has been found. -/
def Followed (patch : Patch) (d : Discovery) (b : Binding) : Prop :=
  ∀ source, b.source? = some source → patch.containsOutput source ∧ source.node ∈ d.order ∧
    (b = .feedback source → source ∈ d.delayed)

/-- All bindings of the node have been followed. -/
def Expanded (patch : Patch) (d : Discovery) (id : NodeId) : Prop :=
  ∀ b, patch.Binds id b → Followed patch d b

theorem Followed.grows (h : Followed patch d b) (hg : Grows d d') : Followed patch d' b :=
  fun source hs =>
    let ⟨hc, hm, hf⟩ := h source hs
    ⟨hc, hg.mem_order hm, fun hb => hg.delayed source (hf hb)⟩

theorem Expanded.grows (h : Expanded patch d id) (hg : Grows d d') : Expanded patch d' id :=
  fun b hb => (h b hb).grows hg

theorem follow_eq_ok_iff {site : ReferenceSite} : d.follow patch output site = .ok d' ↔
    patch.containsOutput output ∧ d.find output.node = d' := by
  rw [follow]
  split <;> simp_all

theorem follow_eq_error {site : ReferenceSite} (h : d.follow patch output site = .error e) :
    ¬patch.containsOutput output := by
  rw [follow] at h
  split at h <;> simp_all

/-- Following a reference finds its node, if the output exists. -/
theorem Sound.follow {site : ReferenceSite} (hd : Sound patch roots d)
    (hreach : patch.Reachable roots output.node) (h : d.follow patch output site = .ok d') :
    Sound patch roots d' ∧ Grows d d' ∧ patch.containsOutput output ∧ output.node ∈ d'.order := by
  obtain ⟨hc, rfl⟩ := follow_eq_ok_iff.1 h
  exact ⟨hd.find (Patch.index_lt_of_containsOutput hc) hreach, grows_find d output.node, hc,
    (hd.mem_order_find output.node).2 (.inr rfl)⟩

/-- What is remembered of the previous tick is as sound as what is found. -/
theorem Sound.followBinding {input : Binding × Nat} (hd : Sound patch roots d)
    (hreach : patch.Reachable roots id) (hb : patch.Binds id input.1)
    (h : d.followBinding patch id input = .ok d') :
    Sound patch roots d' ∧ Grows d d' ∧ Followed patch d' input.1 := by
  obtain ⟨b, i⟩ := input
  cases b with
  | constant value =>
    obtain rfl : d = d' := by simpa [Discovery.followBinding] using h
    exact ⟨hd, .refl d, by simp [Followed, Binding.source?]⟩
  | output source =>
    obtain ⟨hd', hg, hc, hm⟩ := hd.follow (hreach.source hb rfl) h
    refine ⟨hd', hg, fun s hs => ?_⟩
    obtain rfl : source = s := by simpa [Binding.source?] using hs
    exact ⟨hc, hm, by simp⟩
  | feedback source =>
    obtain ⟨d₁, h₁, rfl⟩ := map_eq_ok_iff.1 h
    obtain ⟨hd₁, hg, hc, hm⟩ := hd.follow (hreach.source hb rfl) h₁
    refine ⟨⟨hd₁.place_size, hd₁.place?_eq_some_iff, hd₁.reachable, fun s hs => ?_⟩,
      ⟨hg.order, fun s hs => Array.mem_push_of_mem _ (hg.delayed s hs)⟩, fun s hs => ?_⟩
    · rcases Array.mem_push.1 hs with hs | rfl
      · exact hd₁.recalled s hs
      · exact ⟨id, hreach, hb⟩
    · obtain rfl : source = s := by simpa [Binding.source?] using hs
      exact ⟨hc, hm, fun _ => Array.mem_push_self⟩

theorem followBinding_eq_error {input : Binding × Nat}
    (h : d.followBinding patch id input = .error e) :
    ∃ source, input.1.source? = some source ∧ ¬patch.containsOutput source := by
  obtain ⟨b, i⟩ := input
  cases b with
  | constant value => simp [followBinding] at h
  | output source => exact ⟨source, rfl, follow_eq_error h⟩
  | feedback source => exact ⟨source, rfl, follow_eq_error (map_eq_error_iff.1 h)⟩

/-! ## Expanding a node -/

theorem Sound.node?_of_mem (hd : Sound patch roots d) (hid : id ∈ d.order) :
    ∃ node, patch.node? id = some node :=
  ⟨_, Array.getElem?_eq_getElem (hd.index_lt hid)⟩

theorem binds_of_mem_zipIdx {node : Node} (hnode : patch.node? id = some node)
    {input : Binding × Nat} (h : input ∈ node.inputs.toList.zipIdx) : patch.Binds id input.1 :=
  ⟨node, hnode, List.fst_mem_of_mem_zipIdx h⟩

/-- Expanding a node found follows all its bindings. -/
theorem Sound.expand (hd : Sound patch roots d) (hid : id ∈ d.order)
    (h : d.expand patch id = .ok d') :
    Sound patch roots d' ∧ Grows d d' ∧ Expanded patch d' id := by
  obtain ⟨node, hnode⟩ := hd.node?_of_mem hid
  rw [Discovery.expand, hnode] at h
  obtain ⟨hd', hg, hdone⟩ := foldlM_eq_ok (Sound patch roots) Grows
    (fun input d => Followed patch d input.1) Grows.refl (fun _ _ _ => Grows.trans)
    (fun _ _ _ => Followed.grows)
    (fun input hin _ _ hs => hs.followBinding (hd.reachable id hid) (binds_of_mem_zipIdx hnode hin))
    hd h
  refine ⟨hd', hg, fun b hb => ?_⟩
  obtain ⟨node', hnode', hb⟩ := hb
  obtain rfl : node = node' := Option.some.inj (hnode.symm.trans hnode')
  obtain ⟨i, hi⟩ := List.mem_iff_getElem?.1 hb
  exact hdone (b, i) (List.mem_zipIdx_iff_getElem?.2 hi)

/-- Some node that contributes to the roots refers to an output that does not exist. -/
def Dangling (patch : Patch) (roots : List OutputRef) : Prop :=
  ∃ id, patch.Reachable roots id ∧ ∃ b output, patch.Binds id b ∧ b.source? = some output ∧
    ¬patch.containsOutput output

theorem Sound.dangling_of_expand (hd : Sound patch roots d) (hid : id ∈ d.order)
    (h : d.expand patch id = .error e) : Dangling patch roots := by
  obtain ⟨node, hnode⟩ := hd.node?_of_mem hid
  rw [Discovery.expand, hnode] at h
  obtain ⟨input, hin, t, ht⟩ := exists_of_foldlM_eq_error h
  obtain ⟨source, hs, hc⟩ := followBinding_eq_error ht
  exact ⟨id, hd.reachable id hid, input.1, source, binds_of_mem_zipIdx hnode hin, hs, hc⟩

/-! ## The walk -/

/-- The nodes found at places before `next` are expanded. -/
def ExpandedBelow (patch : Patch) (d : Discovery) (next : Nat) : Prop :=
  ∀ p < next, ∀ id, d.order[p]? = some id → Expanded patch d id

theorem ExpandedBelow.all {next : Nat} (h : ExpandedBelow patch d next)
    (hle : d.order.size ≤ next) : ∀ id ∈ d.order, Expanded patch d id := by
  intro id hid
  obtain ⟨p, hp⟩ := Array.mem_iff_getElem?.1 hid
  exact h p (Nat.lt_of_lt_of_le (Array.getElem?_eq_some_iff.1 hp).1 hle) id hp

theorem ExpandedBelow.succ {next : Nat} (h : ExpandedBelow patch d next)
    (hid : d.order[next]? = some id) (hg : Grows d d') (hexp : Expanded patch d' id) :
    ExpandedBelow patch d' (next + 1) := by
  intro p hp id' hid'
  have hlt := (Array.getElem?_eq_some_iff.1 hid).1
  have hget := Array.getElem?_eq_getElem (show p < d.order.size by omega)
  -- What is found on the way comes after all that had been found.
  obtain rfl : d.order[p] = id' := Option.some.inj ((hg.order p _ hget).symm.trans hid')
  rcases Nat.lt_succ_iff_lt_or_eq.1 hp with hp | rfl
  · exact (h p hp _ hget).grows hg
  · exact Option.some.inj (hid.symm.trans hget) ▸ hexp

/-- A walk that has come to `next`, and has enough steps left, expands everything it
    finds. -/
theorem Sound.walk {next count : Nat} (hd : Sound patch roots d)
    (hnext : ExpandedBelow patch d next) (hcount : patch.nodes.size ≤ next + count)
    (h : d.walk patch next count = .ok d') :
    Sound patch roots d' ∧ Grows d d' ∧ ∀ id ∈ d'.order, Expanded patch d' id := by
  induction count generalizing d next with
  | zero =>
    obtain rfl : d = d' := by simpa [Discovery.walk] using h
    exact ⟨hd, .refl d, hnext.all (Nat.le_trans hd.order_size_le hcount)⟩
  | succ count ih =>
    rw [Discovery.walk] at h
    cases hid : d.order[next]? with
    | none =>
      obtain rfl : d = d' := by simpa [hid] using h
      exact ⟨hd, .refl d, hnext.all (Array.getElem?_eq_none_iff.1 hid)⟩
    | some id =>
      rw [hid] at h
      obtain ⟨d₁, h₁, h⟩ := bind_eq_ok_iff.1 h
      obtain ⟨hd₁, hg₁, hexp⟩ := hd.expand (Array.mem_of_getElem? hid) h₁
      obtain ⟨hd', hg', hall⟩ := ih hd₁ (hnext.succ hid hg₁ hexp) (by omega) h
      exact ⟨hd', hg₁.trans hg', hall⟩

theorem Sound.dangling_of_walk {next count : Nat} (hd : Sound patch roots d)
    (h : d.walk patch next count = .error e) : Dangling patch roots := by
  induction count generalizing d next with
  | zero => simp [Discovery.walk] at h
  | succ count ih =>
    rw [Discovery.walk] at h
    cases hid : d.order[next]? with
    | none => simp [hid] at h
    | some id =>
      rw [hid] at h
      have hmem := Array.mem_of_getElem? hid
      rcases bind_eq_error_iff.1 h with h | ⟨d₁, h₁, h⟩
      · exact hd.dangling_of_expand hmem h
      · exact ih (hd.expand hmem h₁).1 h

/-! ## The whole search -/

theorem ofRoots_eq_ok (h : ofRoots patch roots = .ok d) :
    Sound patch roots d ∧ ∀ root ∈ roots, patch.containsOutput root ∧ root.node ∈ d.order := by
  obtain ⟨hd, _, hdone⟩ := foldlM_eq_ok (Sound patch roots) Grows
    (fun (root : OutputRef × Nat) d => patch.containsOutput root.1 ∧ root.1.node ∈ d.order)
    Grows.refl (fun _ _ _ => Grows.trans) (fun _ _ _ h hg => ⟨h.1, hg.mem_order h.2⟩)
    (fun root hroot _ _ hs => hs.follow (.root (List.fst_mem_of_mem_zipIdx hroot)))
    (.empty patch roots) h
  refine ⟨hd, fun root hroot => ?_⟩
  obtain ⟨i, hi⟩ := List.mem_iff_getElem?.1 hroot
  exact hdone (root, i) (List.mem_zipIdx_iff_getElem?.2 hi)

theorem ofRoots_eq_error (h : ofRoots patch roots = .error e) :
    ∃ root ∈ roots, ¬patch.containsOutput root := by
  obtain ⟨root, hroot, t, ht⟩ := exists_of_foldlM_eq_error h
  exact ⟨root.1, List.fst_mem_of_mem_zipIdx hroot, follow_eq_error ht⟩

/-- All has been found that contributes to the roots. -/
structure Complete (patch : Patch) (roots : List OutputRef) (d : Discovery) : Prop
    extends Sound patch roots d where
  root_exists : ∀ root ∈ roots, patch.containsOutput root
  root_mem : ∀ root ∈ roots, root.node ∈ d.order
  expanded : ∀ id ∈ d.order, Expanded patch d id

/-- A search that comes to an end is complete. -/
theorem ofPatch_complete (h : Discovery.ofPatch patch roots = .ok d) :
    Complete patch roots d := by
  obtain ⟨d₀, h₀, h⟩ := bind_eq_ok_iff.1 h
  obtain ⟨hd₀, hroots⟩ := ofRoots_eq_ok h₀
  have hnext : ExpandedBelow patch d₀ 0 := fun p hp => absurd hp (Nat.not_lt_zero p)
  obtain ⟨hd, hg, hexp⟩ := hd₀.walk hnext (by omega) h
  exact ⟨hd, fun root hroot => (hroots root hroot).1,
    fun root hroot => hg.mem_order (hroots root hroot).2, hexp⟩

/-- A search that fails has met an output that does not exist. -/
theorem exists_of_ofPatch_eq_error (h : Discovery.ofPatch patch roots = .error e) :
    (∃ root ∈ roots, ¬patch.containsOutput root) ∨ Dangling patch roots := by
  rcases bind_eq_error_iff.1 h with h | ⟨d₀, h₀, h⟩
  · exact .inl (ofRoots_eq_error h)
  · exact .inr ((ofRoots_eq_ok h₀).1.dangling_of_walk h)

namespace Complete

theorem mem_order_iff (hd : Complete patch roots d) :
    id ∈ d.order ↔ patch.Reachable roots id := by
  refine ⟨hd.reachable id, fun h => ?_⟩
  induction h with
  | root hroot => exact hd.root_mem _ hroot
  | source _ hb hs ih => exact (hd.expanded _ ih _ hb _ hs).2.1

theorem mem_delayed_iff (hd : Complete patch roots d) :
    source ∈ d.delayed ↔ ∃ id, patch.Reachable roots id ∧ patch.Recalls id source := by
  refine ⟨hd.recalled source, ?_⟩
  rintro ⟨id, hid, hr⟩
  exact (hd.expanded id (hd.mem_order_iff.2 hid) _ hr source rfl).2.2 rfl

theorem source_exists (hd : Complete patch roots d) (hid : patch.Reachable roots id)
    (hb : patch.Binds id b) (hs : b.source? = some source) : patch.containsOutput source :=
  (hd.expanded id (hd.mem_order_iff.2 hid) b hb source hs).1

end Complete

end SignalGraph.Discovery
