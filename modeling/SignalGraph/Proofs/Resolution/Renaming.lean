import SignalGraph.Proofs.Resolution.Order

/-!
# Names do not matter

A patch may hold a copy of what contributes to some roots of another patch, under other
names and among other nodes (`Patch.Copies`). Walks of the two patches find the same nodes
in the same order (`Discovery.Renames`): whatever else a patch holds, the walk looks at
nothing but what it finds. So they find the same places to wait for each other, and both
patches are resolved alike (`Resolution.exists_ofPatch_of_copies`).

Only the list of delayed outputs depends on names, as it is in their order. It has the same
elements in both patches.
-/

namespace SignalGraph

variable {σ : NodeId → NodeId} {patch patch' : Patch} {roots : List OutputRef} {id : NodeId}
  {source : OutputRef} {b : Binding}

/-! ## Other names -/

/-- The output under the other name of its node. -/
def OutputRef.rename (σ : NodeId → NodeId) (output : OutputRef) : OutputRef :=
  ⟨σ output.node, output.index⟩

/-- The binding, with the node that it refers to under its other name. -/
def Binding.rename (σ : NodeId → NodeId) : Binding → Binding
  | constant value => constant value
  | output source => output (source.rename σ)
  | feedback source => feedback (source.rename σ)

/-- The node, with all nodes that it refers to under their other names. -/
def Node.rename (σ : NodeId → NodeId) (node : Node) : Node :=
  { node with inputs := node.inputs.map (Binding.rename σ) }

theorem Binding.source?_rename (σ : NodeId → NodeId) (b : Binding) :
    (b.rename σ).source? = b.source?.map (·.rename σ) := by
  cases b <;> rfl

theorem Binding.sameTick?_rename (σ : NodeId → NodeId) (b : Binding) :
    (b.rename σ).sameTick? = b.sameTick?.map (·.rename σ) := by
  cases b <;> rfl

namespace Patch

/-- All that contributes to the roots is in the other patch, too, with all names changed,
    and with different names for different nodes. -/
structure Copies (σ : NodeId → NodeId) (patch : Patch) (roots : List OutputRef) (patch' : Patch) :
    Prop where
  node?_eq : ∀ id, patch.Reachable roots id →
    patch'.node? (σ id) = (patch.node? id).map (Node.rename σ)
  inj : ∀ id other, patch.Reachable roots id → patch.Reachable roots other → σ id = σ other →
    id = other

namespace Copies

variable (h : Copies σ patch roots patch')
include h

theorem binds (hid : patch.Reachable roots id) (hb : patch.Binds id b) :
    patch'.Binds (σ id) (b.rename σ) := by
  obtain ⟨node, hnode, hb⟩ := hb
  refine ⟨node.rename σ, by rw [h.node?_eq id hid, hnode]; rfl, ?_⟩
  rw [Node.rename, Vector.toList_map]
  exact List.mem_map_of_mem hb

theorem reachable (hid : patch.Reachable roots id) :
    patch'.Reachable (roots.map (·.rename σ)) (σ id) := by
  induction hid with
  | @root output hroot => exact .root (List.mem_map_of_mem (f := (·.rename σ)) hroot)
  | @source id b output hid hb hs ih =>
    have hs : (b.rename σ).source? = some (output.rename σ) := by
      rw [Binding.source?_rename, hs]
      rfl
    exact ih.source (h.binds hid hb) hs

theorem containsOutput (hid : patch.Reachable roots source.node)
    (hsource : patch.containsOutput source) : patch'.containsOutput (source.rename σ) := by
  obtain ⟨node, hnode, hlt⟩ := containsOutput_iff.1 hsource
  exact containsOutput_iff.2
    ⟨node.rename σ, by rw [OutputRef.rename, h.node?_eq _ hid, hnode]; rfl, hlt⟩

theorem rename_inj {other : OutputRef} (hsource : patch.Reachable roots source.node)
    (hother : patch.Reachable roots other.node) (heq : source.rename σ = other.rename σ) :
    source = other := by
  obtain ⟨hnode, hindex⟩ := OutputRef.mk.inj heq
  have hnode := h.inj _ _ hsource hother hnode
  cases source
  cases other
  exact congr (congrArg OutputRef.mk hnode) hindex

end Copies

end Patch

/-! ## Walks -/

namespace Discovery

variable {d d' d₁ : Discovery}

/-- The second walk has found the same nodes as the first one in the same order, under
    their other names. -/
structure Renames (σ : NodeId → NodeId) (patch : Patch) (roots : List OutputRef) (patch' : Patch)
    (d d' : Discovery) : Prop where
  sound : Sound patch roots d
  sound' : Sound patch' (roots.map (·.rename σ)) d'
  order_eq : d'.order = d.order.map σ
  delayed_eq : d'.delayed = d.delayed.map (·.rename σ)

theorem delayed_find (d : Discovery) (id : NodeId) : (d.find id).delayed = d.delayed := by
  cases hp : d.place? id with
  | some p => rw [find_of_some hp]
  | none => rw [find_of_none hp]

/-- A walk is over when it has come to the end of what has been found. -/
theorem walk_of_size_le {next count : Nat} (h : d.order.size ≤ next) :
    d.walk patch next count = .ok d := by
  cases count with
  | zero => rfl
  | succ count => rw [walk, Array.getElem?_eq_none h]

namespace Renames

variable (hc : patch.Copies σ roots patch') (hr : Renames σ patch roots patch' d d')
include hc hr

/-- A node has been found in the same place. -/
theorem place?_eq (hid : patch.Reachable roots id) : d'.place? (σ id) = d.place? id := by
  refine Option.ext fun p => ?_
  rw [hr.sound'.place?_eq_some_iff, hr.sound.place?_eq_some_iff, hr.order_eq, Array.getElem?_map,
    Option.map_eq_some_iff]
  constructor
  · rintro ⟨other, hother, heq⟩
    exact hc.inj _ _ (hr.sound.reachable other (Array.mem_of_getElem? hother)) hid heq ▸ hother
  · exact fun hp => ⟨id, hp, rfl⟩

theorem find (hid : patch.Reachable roots id) (hlt : id.index < patch.nodes.size)
    (hlt' : (σ id).index < patch'.nodes.size) :
    Renames σ patch roots patch' (d.find id) (d'.find (σ id)) where
  sound := hr.sound.find hlt hid
  sound' := hr.sound'.find hlt' (hc.reachable hid)
  order_eq := by
    have hplace := hr.place?_eq hc hid
    cases hp : d.place? id with
    | some p => rw [find_of_some hp, find_of_some (hplace.trans hp), hr.order_eq]
    | none => rw [find_of_none hp, find_of_none (hplace.trans hp), hr.order_eq, Array.map_push]
  delayed_eq := by rw [delayed_find, delayed_find, hr.delayed_eq]

theorem follow (site site' : ReferenceSite) (hreach : patch.Reachable roots source.node)
    (h : d.follow patch source site = .ok d₁) :
    ∃ d₁', d'.follow patch' (source.rename σ) site' = .ok d₁' ∧
      Renames σ patch roots patch' d₁ d₁' := by
  obtain ⟨hexists, rfl⟩ := follow_eq_ok_iff.1 h
  have hexists' := hc.containsOutput hreach hexists
  exact ⟨_, follow_eq_ok_iff.2 ⟨hexists', rfl⟩,
    hr.find hc hreach (Patch.index_lt_of_containsOutput hexists)
      (Patch.index_lt_of_containsOutput hexists')⟩

theorem followBinding {input : Binding × Nat} (hid : patch.Reachable roots id)
    (hb : patch.Binds id input.1) (h : d.followBinding patch id input = .ok d₁) :
    ∃ d₁', d'.followBinding patch' (σ id) (input.1.rename σ, input.2) = .ok d₁' ∧
      Renames σ patch roots patch' d₁ d₁' := by
  obtain ⟨b, i⟩ := input
  cases b with
  | constant value =>
    obtain rfl := Except.ok.inj h
    exact ⟨d', rfl, hr⟩
  | output source => exact hr.follow hc _ _ (hid.source hb rfl) h
  | feedback source =>
    obtain ⟨d₂, h₂, rfl⟩ := map_eq_ok_iff.1 h
    obtain ⟨d₂', h₂', hr₂⟩ := hr.follow hc _ (.input (σ id) i) (hid.source hb rfl) h₂
    have h' : d'.followBinding patch' (σ id) (.feedback (source.rename σ), i) =
        .ok { d₂' with delayed := d₂'.delayed.push (source.rename σ) } :=
      map_eq_ok_iff.2 ⟨d₂', h₂', rfl⟩
    refine ⟨_, h', (hr.sound.followBinding hid hb h).1,
      (hr.sound'.followBinding (hc.reachable hid) (hc.binds hid hb) h').1, hr₂.order_eq, ?_⟩
    rw [Array.map_push, hr₂.delayed_eq]

theorem expand (hid : id ∈ d.order) (h : d.expand patch id = .ok d₁) :
    ∃ d₁', d'.expand patch' (σ id) = .ok d₁' ∧ Renames σ patch roots patch' d₁ d₁' := by
  have hreach := hr.sound.reachable id hid
  obtain ⟨node, hnode⟩ := hr.sound.node?_of_mem hid
  have hnode' : patch'.node? (σ id) = some (node.rename σ) := by
    rw [hc.node?_eq id hreach, hnode]
    rfl
  have hinputs : (node.rename σ).inputs.toList.zipIdx =
      node.inputs.toList.zipIdx.map fun input => (input.1.rename σ, input.2) := by
    rw [Node.rename, Vector.toList_map, List.zipIdx_map]
    rfl
  simp only [Discovery.expand, hnode] at h
  simp only [Discovery.expand, hnode', hinputs]
  refine exists_foldlM_map (Renames σ patch roots patch') _ (fun input hin _ _ _ hr h => ?_) hr h
  exact hr.followBinding hc hreach (binds_of_mem_zipIdx hnode hin) h

/-- The walks go along with each other, as long as both have enough steps left. -/
theorem walk {next count count' : Nat} (hcount : patch.nodes.size ≤ next + count)
    (hcount' : patch'.nodes.size ≤ next + count') (h : d.walk patch next count = .ok d₁) :
    ∃ d₁', d'.walk patch' next count' = .ok d₁' ∧ Renames σ patch roots patch' d₁ d₁' := by
  have hsize : d'.order.size = d.order.size := by rw [hr.order_eq, Array.size_map]
  induction count generalizing d d' next count' with
  | zero =>
    -- The first walk has found no more than there are nodes.
    obtain rfl := Except.ok.inj h
    have hle := hr.sound.order_size_le
    exact ⟨d', walk_of_size_le (by omega), hr⟩
  | succ count ih =>
    by_cases hlt : next < d.order.size
    · have hle' := hr.sound'.order_size_le
      obtain ⟨count', rfl⟩ := Nat.exists_eq_succ_of_ne_zero (show count' ≠ 0 by omega)
      have hid := Array.getElem?_eq_getElem hlt
      have hid' : d'.order[next]? = some (σ d.order[next]) := by
        rw [hr.order_eq, Array.getElem?_map, hid, Option.map_some]
      rw [Discovery.walk, hid] at h
      obtain ⟨d₂, h₂, h⟩ := bind_eq_ok_iff.1 h
      obtain ⟨d₂', h₂', hr₂⟩ := hr.expand hc (Array.getElem_mem hlt) h₂
      have hcount' : patch'.nodes.size ≤ next + 1 + count' := by omega
      obtain ⟨d₁', h₁', hr₁⟩ := ih hr₂ (by omega) hcount' h (by rw [hr₂.order_eq, Array.size_map])
      refine ⟨d₁', ?_, hr₁⟩
      rw [Discovery.walk, hid']
      exact bind_eq_ok_iff.2 ⟨d₂', h₂', h₁'⟩
    · rw [walk_of_size_le (by omega)] at h
      obtain rfl := Except.ok.inj h
      exact ⟨d', walk_of_size_le (by omega), hr⟩

/-- The same places wait for the same places. -/
theorem waits_eq : d'.waits patch' = d.waits patch := by
  rw [waits, waits, hr.order_eq, Array.map_map]
  refine Array.map_congr_left fun id hid => ?_
  have hreach := hr.sound.reachable id hid
  obtain ⟨node, hnode⟩ := hr.sound.node?_of_mem hid
  simp only [Function.comp_apply, hc.node?_eq id hreach, hnode, Option.map_some, Node.rename,
    Vector.toList_map, List.filterMap_map]
  refine List.filterMap_congr fun b hb => ?_
  rw [Binding.sameTick?_rename, Option.bind_map]
  cases b with
  | output source => exact hr.place?_eq hc (hreach.source ⟨node, hnode, hb⟩ rfl)
  | constant | feedback => rfl

theorem schedule {order : List NodeId} (h : d.schedule patch = .ok order) :
    d'.schedule patch' = .ok (order.map σ) := by
  have hnodesAt : ∀ places, d'.nodesAt places = (d.nodesAt places).map σ := by
    intro places
    rw [nodesAt, nodesAt, List.map_filterMap]
    exact List.filterMap_congr fun p _ => by rw [hr.order_eq, Array.getElem?_map]
  have hsize : d'.order.size = d.order.size := by rw [hr.order_eq, Array.size_map]
  rw [Discovery.schedule] at h ⊢
  simp only [hr.waits_eq hc, hsize, hnodesAt] at h ⊢
  split at h
  · next hplaced =>
    obtain rfl := Except.ok.inj h
    rw [if_pos hplaced]
  · cases h

end Renames

/-- Walks from the beginning go along with each other. -/
theorem exists_ofPatch_of_copies (hc : patch.Copies σ roots patch')
    (h : Discovery.ofPatch patch roots = .ok d) :
    ∃ d', Discovery.ofPatch patch' (roots.map (·.rename σ)) = .ok d' ∧
      Renames σ patch roots patch' d d' := by
  have hempty : Renames σ patch roots patch' (empty patch.nodes.size) (empty patch'.nodes.size) :=
    ⟨.empty patch roots, .empty patch' _, by simp [empty], by simp [empty]⟩
  have hzip : (roots.map (·.rename σ)).zipIdx =
      roots.zipIdx.map fun root => (root.1.rename σ, root.2) := by
    rw [List.zipIdx_map]
    rfl
  obtain ⟨d₁, h₁, h⟩ := bind_eq_ok_iff.1 h
  have hroots : ∃ d₁', ofRoots patch' (roots.map (·.rename σ)) = .ok d₁' ∧
      Renames σ patch roots patch' d₁ d₁' := by
    rw [ofRoots, hzip]
    refine exists_foldlM_map (Renames σ patch roots patch') _ (fun root hroot _ _ _ hr h => ?_)
      hempty h₁
    exact hr.follow hc _ _ (.root (List.fst_mem_of_mem_zipIdx hroot)) h
  obtain ⟨d₁', h₁', hr₁⟩ := hroots
  obtain ⟨d', h', hr⟩ := hr₁.walk hc (Nat.le_add_left _ _) (Nat.le_add_left _ _) h
  exact ⟨d', bind_eq_ok_iff.2 ⟨d₁', h₁', h'⟩, hr⟩

end Discovery

/-! ## Resolutions -/

namespace Resolution

variable {r : Resolution}

/-- What is resolved is resolved alike under other names. Only the order of delayed
    outputs is another one. -/
theorem exists_ofPatch_of_copies (hc : patch.Copies σ roots patch')
    (h : ofPatch patch roots = .ok r) :
    ∃ delayed, ofPatch patch' (roots.map (·.rename σ)) = .ok ⟨r.order.map σ, delayed⟩ ∧
      delayed.Perm (r.delayed.map (·.rename σ)) := by
  have hr := (ofPatch_eq_ok h).1
  rw [ofPatch] at h
  split at h
  · cases h
  next hroots =>
    obtain ⟨d, hd, h⟩ := bind_eq_ok_iff.1 h
    obtain ⟨order, horder, h⟩ := bind_eq_ok_iff.1 h
    obtain rfl := Except.ok.inj h
    obtain ⟨d', hd', hren⟩ := Discovery.exists_ofPatch_of_copies hc hd
    have h' : ofPatch patch' (roots.map (·.rename σ)) =
        .ok ⟨order.map σ, ascending OutputRef.before d'.delayed.toList⟩ := by
      rw [ofPatch, if_neg (by simpa using hroots)]
      exact bind_eq_ok_iff.2 ⟨d', hd', bind_eq_ok_iff.2 ⟨_, hren.schedule hc horder, rfl⟩⟩
    refine ⟨_, h', ?_⟩
    -- Both lists have no repetition, so it is enough that they have the same elements.
    have hreach : ∀ source ∈ ascending OutputRef.before d.delayed.toList,
        patch.Reachable roots source.node := by
      intro source hsource
      obtain ⟨_, hid, hrecalls⟩ := (hr.mem_delayed_iff source).1 hsource
      exact hid.of_recalls hrecalls
    have hnodup := hr.delayed_nodup.map_on fun a ha b hb => hc.rename_inj (hreach a ha) (hreach b hb)
    refine (List.perm_ext_iff_of_nodup (ofPatch_eq_ok h').1.delayed_nodup hnodup).2
      fun source => ?_
    simp only [mem_ascending OutputRef.before_trichotomy, List.mem_map, Array.mem_toList_iff,
      hren.delayed_eq, Array.mem_map]

end Resolution

end SignalGraph
