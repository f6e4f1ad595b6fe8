import SignalGraph.Proofs.Patch.Addition
import SignalGraph.Proofs.Resolution.BreadthFirst
import SignalGraph.Proofs.Resolution.Circle

/-!
# What a refusal for a reference names

Several references of a patch may be to outputs that do not exist. A search is refused for
the first of them that it meets, so it has to be said, without the search, which one that
is. Take the bindings with such references out of the patch (`Patch.pruned`). A search of
what is left comes to an end, and finds the nodes in an order of discovery
(`Patch.BreadthFirst`); in this order the inputs of the patch are looked at, after the roots
(`Patch.FirstDangling`).

The two searches go along with each other until one of them is refused
(`Discovery.Sound.walk_eq_barring`). So a patch is refused for the first such reference whatever
else is wrong with it, and a reference that is not reached makes no difference
(`Resolution.ofPatch_eq_invalidReference_iff`).
-/

namespace SignalGraph

namespace Patch

variable {patch : Patch} {roots : List OutputRef} {id : NodeId} {b : Binding}
  {input i : Nat} {output output' : OutputRef} {site site' : ReferenceSite} {e : GraphError}

/-! ## Dangling references -/

/-- The input of an index refers to an output that does not exist. -/
structure Dangles (patch : Patch) (id : NodeId) (input : Nat) (output : OutputRef) : Prop where
  refers : (patch.binding? id input).bind Binding.source? = some output
  missing : ¬patch.containsOutput output

/-- The binding, or zero if it refers to an output that does not exist. -/
def prune (patch : Patch) (b : Binding) : Binding :=
  if b.source?.all patch.containsOutput then b else .constant 0

/-- The node without references to outputs that do not exist. -/
def pruneNode (patch : Patch) (node : Node) : Node :=
  { node with inputs := node.inputs.map patch.prune }

/-- The patch without references to outputs that do not exist. -/
def pruned (patch : Patch) : Patch := { patch with nodes := patch.nodes.map patch.pruneNode }

/-- The reference is to an output that does not exist, and it comes first of all such
    references: the roots come in their order, and if they exist, then come the inputs of the
    nodes that are reached through outputs that exist, in the order of discovery of their
    nodes, those of one node by index. -/
inductive FirstDangling (patch : Patch) (roots : List OutputRef) :
    OutputRef → ReferenceSite → Prop
  | root {i : Nat} {output : OutputRef} :
      roots[i]? = some output → ¬patch.containsOutput output →
      (∀ j other, roots[j]? = some other → ¬patch.containsOutput other → i ≤ j) →
      FirstDangling patch roots output (.root i)
  | input {found : List NodeId} {p : Nat} {id : NodeId} {i : Nat} {output : OutputRef} :
      (∀ root ∈ roots, patch.containsOutput root) → patch.pruned.BreadthFirst roots found →
      found[p]? = some id → patch.Dangles id i output →
      (∀ q other j output', found[q]? = some other → patch.Dangles other j output' →
        p < q ∨ p = q ∧ i ≤ j) →
      FirstDangling patch roots output (.input id i)

/-- A root, or an input of a node that is reached through outputs that exist, refers to an
    output that does not exist. -/
def HasDangling (patch : Patch) (roots : List OutputRef) : Prop :=
  (∃ root ∈ roots, ¬patch.containsOutput root) ∨
    ∃ id input output, patch.pruned.Reachable roots id ∧ patch.Dangles id input output

theorem Dangles.unique (h : patch.Dangles id input output) (h' : patch.Dangles id input output') :
    output = output' :=
  Option.some.inj (h.refers.symm.trans h'.refers)

/-- Only one reference comes first. -/
theorem FirstDangling.unique (h : patch.FirstDangling roots output site)
    (h' : patch.FirstDangling roots output' site') : output = output' ∧ site = site' := by
  cases h with
  | @root i _ hroot hmissing hfirst =>
    cases h' with
    | @root j _ hroot' hmissing' hfirst' =>
      obtain rfl : i = j := Nat.le_antisymm (hfirst j _ hroot' hmissing')
        (hfirst' i _ hroot hmissing)
      exact ⟨Option.some.inj (hroot.symm.trans hroot'), rfl⟩
    | input hroots => exact absurd (hroots _ (List.mem_of_getElem? hroot)) hmissing
  | @input found p id i _ hroots hfound hid hdangles hfirst =>
    cases h' with
    | root hroot' hmissing' => exact absurd (hroots _ (List.mem_of_getElem? hroot')) hmissing'
    | @input _ q other j _ _ hfound' hother hdangles' hfirst' =>
      obtain rfl := hfound.eq hfound'
      have hle := hfirst q other j output' hother hdangles'
      have hge := hfirst' p id i output hid hdangles
      obtain ⟨rfl, rfl⟩ : p = q ∧ i = j := by omega
      obtain rfl : id = other := Option.some.inj (hid.symm.trans hother)
      exact ⟨hdangles.unique hdangles', rfl⟩

/-! ## Pruned patches -/

theorem Reachable.roots_ne_nil (h : patch.Reachable roots id) : roots ≠ [] := by
  induction h with
  | root hroot => exact List.ne_nil_of_mem hroot
  | source _ _ _ ih => exact ih

theorem prune_of_containsOutput
    (h : ∀ source, b.source? = some source → patch.containsOutput source) :
    patch.prune b = b := by
  rw [prune, if_pos]
  cases hb : b.source? with
  | none => rfl
  | some source => exact h source hb

theorem containsOutput_of_source?_prune (h : (patch.prune b).source? = some output) :
    patch.containsOutput output := by
  rw [prune] at h
  split at h
  · next hall => simpa [h] using hall
  · cases h

theorem node?_pruned (patch : Patch) (id : NodeId) :
    patch.pruned.node? id = (patch.node? id).map patch.pruneNode :=
  Array.getElem?_map

@[simp] theorem containsOutput_pruned (patch : Patch) (output : OutputRef) :
    patch.pruned.containsOutput output = patch.containsOutput output := by
  rw [containsOutput, containsOutput, node?_pruned, Option.any_map]
  rfl

@[simp] theorem size_nodes_pruned (patch : Patch) :
    patch.pruned.nodes.size = patch.nodes.size := Array.size_map

/-- All references that are left are to outputs that exist. -/
theorem containsOutput_of_binds_pruned (hb : patch.pruned.Binds id b)
    (hs : b.source? = some output) : patch.containsOutput output := by
  obtain ⟨node, hnode, hmem⟩ := hb
  rw [node?_pruned, Option.map_eq_some_iff] at hnode
  obtain ⟨node, -, rfl⟩ := hnode
  rw [pruneNode, Vector.toList_map, List.mem_map] at hmem
  obtain ⟨b, -, rfl⟩ := hmem
  exact containsOutput_of_source?_prune hs

/-! ## First faults -/

/-- What is wrong with a reference. -/
def referenceFault? (patch : Patch) (output : OutputRef) (site : ReferenceSite) :
    Option GraphError :=
  if patch.containsOutput output then none else some (.invalidReference output site)

/-- What is wrong with the input of a node, given with its index. -/
def inputFault? (patch : Patch) (id : NodeId) (input : Binding × Nat) : Option GraphError :=
  input.1.source?.bind (patch.referenceFault? · (.input id input.2))

/-- What is wrong with the first input of a node that has something wrong with it. -/
def nodeFault? (patch : Patch) (id : NodeId) : Option GraphError :=
  (patch.node? id).bind (·.inputs.toList.zipIdx.findSome? (patch.inputFault? id))

/-- What is wrong with the first root that has something wrong with it. -/
def rootFault? (patch : Patch) (roots : List OutputRef) : Option GraphError :=
  roots.zipIdx.findSome? fun root => patch.referenceFault? root.1 (.root root.2)

theorem referenceFault?_eq_some_iff : patch.referenceFault? output site = some e ↔
    ¬patch.containsOutput output ∧ .invalidReference output site = e := by
  rw [referenceFault?]
  split <;> simp_all

theorem inputFault?_eq_none_iff : patch.inputFault? id (b, i) = none ↔
    ∀ source, b.source? = some source → patch.containsOutput source := by
  cases hs : b.source? <;> simp [inputFault?, referenceFault?, hs]

theorem inputFault?_eq_some_iff {node : Node} (hnode : patch.node? id = some node) {i : Nat}
    (hb : node.inputs.toList[i]? = some b) : patch.inputFault? id (b, i) = some e ↔
      ∃ output, patch.Dangles id i output ∧ .invalidReference output (.input id i) = e := by
  have hbinding : patch.binding? id i = some b := by
    rw [binding?, hnode, Option.bind_some, ← hb, Vector.getElem?_toList]
  rw [inputFault?, Option.bind_eq_some_iff]
  constructor
  · rintro ⟨output, hs, hfault⟩
    obtain ⟨hmissing, rfl⟩ := referenceFault?_eq_some_iff.1 hfault
    exact ⟨output, ⟨by rw [hbinding, Option.bind_some, hs], hmissing⟩, rfl⟩
  · rintro ⟨output, ⟨hs, hmissing⟩, rfl⟩
    rw [hbinding, Option.bind_some] at hs
    exact ⟨output, hs, referenceFault?_eq_some_iff.2 ⟨hmissing, rfl⟩⟩

/-- An input that dangles is one of a node, and there is something wrong with it. -/
theorem Dangles.exists_input (h : patch.Dangles id input output) :
    ∃ node b, patch.node? id = some node ∧ node.inputs.toList[input]? = some b ∧
      patch.inputFault? id (b, input) ≠ none := by
  obtain ⟨b, hb, -⟩ := Option.bind_eq_some_iff.1 h.refers
  obtain ⟨node, hnode, hb⟩ := Option.bind_eq_some_iff.1 hb
  rw [← Vector.getElem?_toList] at hb
  refine ⟨node, b, hnode, hb, ?_⟩
  rw [(inputFault?_eq_some_iff hnode hb).2 ⟨output, h, rfl⟩]
  exact Option.some_ne_none _

theorem nodeFault?_eq_some (h : patch.nodeFault? id = some e) :
    ∃ i output, patch.Dangles id i output ∧ e = .invalidReference output (.input id i) ∧
      ∀ j output', patch.Dangles id j output' → i ≤ j := by
  obtain ⟨node, hnode, h⟩ := Option.bind_eq_some_iff.1 h
  obtain ⟨i, ⟨b, k⟩, hi, hfault, hfirst⟩ := exists_of_findSome?_eq_some h
  obtain ⟨hb, rfl⟩ : node.inputs.toList[i]? = some b ∧ i = k := by
    simpa [List.getElem?_zipIdx] using hi
  obtain ⟨output, hdangles, rfl⟩ := (inputFault?_eq_some_iff hnode hb).1 hfault
  refine ⟨i, output, hdangles, rfl, fun j output' hdangles' => ?_⟩
  obtain ⟨node', b', hnode', hb', hfault'⟩ := hdangles'.exists_input
  obtain rfl : node' = node := Option.some.inj (hnode'.symm.trans hnode)
  exact hfirst j (b', j) (by simp [List.getElem?_zipIdx, hb']) hfault'

/-- Nothing is taken out of a node that has nothing wrong with it. -/
theorem node?_pruned_of_nodeFault? (h : patch.nodeFault? id = none) :
    patch.pruned.node? id = patch.node? id := by
  rw [node?_pruned]
  cases hnode : patch.node? id with
  | none => rfl
  | some node =>
    rw [nodeFault?, hnode, Option.bind_some, List.findSome?_eq_none_iff] at h
    have hprune : ∀ b ∈ node.inputs.toList, patch.prune b = b := by
      intro b hb
      obtain ⟨i, hi⟩ := List.mem_iff_getElem?.1 hb
      exact prune_of_containsOutput
        (inputFault?_eq_none_iff.1 (h (b, i) (List.mem_zipIdx_iff_getElem?.2 hi)))
    have hinputs : node.inputs.map patch.prune = node.inputs := by
      rw [← Vector.toList_inj, Vector.toList_map, List.map_congr_left hprune, List.map_id']
    rw [Option.map_some, pruneNode, hinputs]

theorem Dangles.nodeFault?_ne_none (h : patch.Dangles id input output) :
    patch.nodeFault? id ≠ none := by
  obtain ⟨node, b, hnode, hb, hfault⟩ := h.exists_input
  rw [nodeFault?, hnode, Option.bind_some, Ne, List.findSome?_eq_none_iff]
  exact fun hnone => hfault (hnone (b, input) (List.mem_zipIdx_iff_getElem?.2 hb))

theorem rootFault?_eq_some (h : patch.rootFault? roots = some e) :
    ∃ i output, e = .invalidReference output (.root i) ∧
      patch.FirstDangling roots output (.root i) := by
  obtain ⟨i, ⟨output, k⟩, hi, hfault, hfirst⟩ := exists_of_findSome?_eq_some h
  obtain ⟨hroot, rfl⟩ : roots[i]? = some output ∧ i = k := by
    simpa [List.getElem?_zipIdx] using hi
  obtain ⟨hmissing, rfl⟩ := referenceFault?_eq_some_iff.1 hfault
  refine ⟨i, output, rfl, .root hroot hmissing fun j other hother hmissing' => ?_⟩
  refine hfirst j (other, j) (by simp [List.getElem?_zipIdx, hother]) ?_
  rw [referenceFault?_eq_some_iff.2 ⟨hmissing', rfl⟩]
  exact Option.some_ne_none _

theorem rootFault?_eq_none_iff :
    patch.rootFault? roots = none ↔ ∀ root ∈ roots, patch.containsOutput root := by
  rw [rootFault?, List.findSome?_eq_none_iff]
  constructor
  · intro h root hroot
    obtain ⟨i, hi⟩ := List.mem_iff_getElem?.1 hroot
    simpa [referenceFault?] using h (root, i) (List.mem_zipIdx_iff_getElem?.2 hi)
  · intro h root hroot
    exact if_pos (h _ (List.fst_mem_of_mem_zipIdx hroot))

/-- The first fault on the way through the nodes is that of the first reference. -/
theorem firstDangling_of_findSome? {found : List NodeId}
    (hroots : ∀ root ∈ roots, patch.containsOutput root)
    (hfound : patch.pruned.BreadthFirst roots found)
    (h : found.findSome? patch.nodeFault? = some e) :
    ∃ output site, e = .invalidReference output site ∧
      patch.FirstDangling roots output site := by
  obtain ⟨p, id, hid, hfault, hfirst⟩ := exists_of_findSome?_eq_some h
  obtain ⟨i, output, hdangles, rfl, hleast⟩ := nodeFault?_eq_some hfault
  refine ⟨output, .input id i, rfl, .input hroots hfound hid hdangles ?_⟩
  intro q other j output' hother hdangles'
  rcases Nat.lt_or_eq_of_le (hfirst q other hother hdangles'.nodeFault?_ne_none) with hlt | rfl
  · exact .inl hlt
  · obtain rfl : id = other := Option.some.inj (hid.symm.trans hother)
    exact .inr ⟨rfl, hleast j output' hdangles'⟩

end Patch

/-! ## Searches -/

namespace Discovery

variable {patch : Patch} {roots : List OutputRef} {d d' : Discovery} {id : NodeId} {b : Binding}
  {e : GraphError} {i : Nat}

theorem follow_eq_barring (output : OutputRef) (site : ReferenceSite) :
    d.follow patch output site =
      barring (patch.referenceFault? output site) (d.find output.node) := by
  rw [follow, Patch.referenceFault?]
  split <;> rfl

theorem follow_pruned (d : Discovery) : d.follow patch.pruned = d.follow patch := by
  funext output site
  rw [follow, follow, Patch.containsOutput_pruned]

/-- An input is followed as in the pruned patch, unless there is something wrong with it. -/
theorem followBinding_eq_barring
    (h : d.followBinding patch.pruned id (patch.prune b, i) = .ok d') :
    d.followBinding patch id (b, i) = barring (patch.inputFault? id (b, i)) d' := by
  by_cases hb : ∀ source, b.source? = some source → patch.containsOutput source
  · rw [Patch.prune_of_containsOutput hb] at h
    rw [Patch.inputFault?_eq_none_iff.2 hb, barring_none]
    simpa only [followBinding, follow_pruned] using h
  · push Not at hb
    obtain ⟨source, hs, hmissing⟩ := hb
    -- Nothing is followed, so that what the pruned patch has there plays no part.
    cases b with
    | constant value => cases hs
    | output s | feedback s =>
      cases hs
      simp [followBinding, follow, Patch.inputFault?, Patch.referenceFault?, Binding.source?,
        hmissing, Except.map]

/-- A node is expanded as in the pruned patch, unless there is something wrong with it. -/
theorem expand_eq_barring (h : d.expand patch.pruned id = .ok d') :
    d.expand patch id = barring (patch.nodeFault? id) d' := by
  rw [expand, Patch.node?_pruned] at h
  rw [expand, Patch.nodeFault?]
  cases hnode : patch.node? id with
  | none =>
    rw [hnode] at h
    cases h
  | some node =>
    rw [hnode] at h
    simp only [Option.map_some, Patch.pruneNode, Vector.toList_map, List.zipIdx_map,
      List.foldlM_map] at h
    exact foldlM_eq_barring (fun input _ d d' h => followBinding_eq_barring h) h

/-- A walk goes as in the pruned patch, until it comes to the first node that has something
    wrong with it. -/
theorem Sound.walk_eq_barring {next count : Nat} (hd : Sound patch.pruned roots d)
    (hnext : ExpandedBelow patch.pruned d next) (hcount : patch.nodes.size ≤ next + count)
    (h : d.walk patch.pruned next count = .ok d') :
    d.walk patch next count =
      barring ((d'.order.toList.drop next).findSome? patch.nodeFault?) d' := by
  have hsize : patch.pruned.nodes.size ≤ next + count := by simpa using hcount
  induction count generalizing d next with
  | zero =>
    obtain rfl : d = d' := by simpa [Discovery.walk] using h
    have hle : d.order.toList.length ≤ next := Nat.le_trans hd.order_size_le hsize
    rw [Discovery.walk, List.drop_eq_nil_of_le hle]
    rfl
  | succ count ih =>
    rw [Discovery.walk] at h ⊢
    cases hid : d.order[next]? with
    | none =>
      obtain rfl : d = d' := by simpa [hid] using h
      rw [List.drop_eq_nil_of_le (by simpa using hid)]
      rfl
    | some id =>
      rw [hid] at h
      obtain ⟨d₁, h₁, h⟩ := bind_eq_ok_iff.1 h
      obtain ⟨hd₁, hg₁, hexp⟩ := hd.expand (Array.mem_of_getElem? hid) h₁
      have hnext₁ := hnext.succ hid hg₁ hexp
      obtain ⟨-, hg', -⟩ := hd₁.walk hnext₁ (by omega) h
      -- The node is where it has been found, also in the end.
      have hlast := hg'.order next id (hg₁.order next id hid)
      have hdrop : d'.order.toList.drop next = id :: d'.order.toList.drop (next + 1) := by
        obtain ⟨hlt, rfl⟩ := Array.getElem?_eq_some_iff.1 hlast
        exact List.drop_eq_getElem_cons hlt
      rw [hdrop, List.findSome?_cons]
      dsimp only
      rw [expand_eq_barring h₁]
      cases patch.nodeFault? id with
      | none => exact ih hd₁ hnext₁ (by omega) h (by omega)
      | some fault => rfl

theorem ofRoots_pruned (patch : Patch) (roots : List OutputRef) :
    ofRoots patch.pruned roots = ofRoots patch roots := by
  simp only [ofRoots, follow_pruned, Patch.size_nodes_pruned]

/-- The roots are looked at before all else. -/
theorem ofPatch_of_rootFault? (h : patch.rootFault? roots = some e) :
    Discovery.ofPatch patch roots = .error e := by
  let find (d : Discovery) (root : OutputRef × Nat) : Discovery := d.find root.1.node
  have hroots : ofRoots patch roots =
      barring (patch.rootFault? roots) (roots.zipIdx.foldl find (empty patch.nodes.size)) :=
    foldlM_eq_barring (g := fun d root => .ok (find d root))
      (fun root _ d d' hd => Except.ok.inj hd ▸ follow_eq_barring _ _) List.foldlM_pure
  rw [Discovery.ofPatch, hroots, h]
  rfl

/-- A search goes as in the pruned patch, until it comes to the first node that has something
    wrong with it. -/
theorem ofPatch_eq_barring (h : Discovery.ofPatch patch.pruned roots = .ok d) :
    Discovery.ofPatch patch roots = barring (d.order.toList.findSome? patch.nodeFault?) d := by
  obtain ⟨d₀, h₀, h⟩ := bind_eq_ok_iff.1 h
  have hnext : ExpandedBelow patch.pruned d₀ 0 := fun p hp => absurd hp (Nat.not_lt_zero p)
  have hwalk := (ofRoots_eq_ok h₀).1.walk_eq_barring hnext (by simp) h
  rw [Discovery.ofPatch, ← ofRoots_pruned, h₀]
  rwa [Patch.size_nodes_pruned, List.drop_zero] at hwalk

/-- A search of a pruned patch comes to an end. -/
theorem exists_ofPatch_pruned (hroots : ∀ root ∈ roots, patch.containsOutput root) :
    ∃ d, Discovery.ofPatch patch.pruned roots = .ok d := by
  cases h : Discovery.ofPatch patch.pruned roots with
  | ok d => exact ⟨d, rfl⟩
  | error e =>
    rcases exists_of_ofPatch_eq_error h with
      ⟨root, hroot, hc⟩ | ⟨id, hid, b, s, hb, hs, hc⟩
    · exact absurd (by simpa using hroots root hroot) hc
    · exact absurd (by simpa using Patch.containsOutput_of_binds_pruned hb hs) hc

end Discovery

/-! ## Resolving -/

/-- Nodes that have nothing wrong with them are scheduled as in the pruned patch. -/
theorem Discovery.schedule_pruned {patch : Patch} {d : Discovery}
    (h : d.order.toList.findSome? patch.nodeFault? = none) :
    d.schedule patch.pruned = d.schedule patch := by
  have hwaits : d.waits patch.pruned = d.waits patch := by
    refine Array.map_congr_left fun id hid => ?_
    rw [Patch.node?_pruned_of_nodeFault?]
    exact List.findSome?_eq_none_iff.1 h id (Array.mem_toList_iff.2 hid)
  rw [schedule, schedule, hwaits]

namespace Resolution

variable {patch : Patch} {roots : List OutputRef} {e : GraphError}

/-- If a search is refused, so is the patch, as there are roots. -/
theorem ofPatch_of_discovery_eq_error (hne : roots ≠ [])
    (h : Discovery.ofPatch patch roots = .error e) : ofPatch patch roots = .error e := by
  rw [ofPatch, if_neg (by simpa using hne), h]
  rfl

/-- If references dangle, the patch is refused for the first of them. -/
theorem exists_firstDangling (h : patch.HasDangling roots) :
    ∃ output site, patch.FirstDangling roots output site ∧
      ofPatch patch roots = .error (.invalidReference output site) := by
  cases hroot : patch.rootFault? roots with
  | some e =>
    obtain ⟨i, output, rfl, hfirst⟩ := Patch.rootFault?_eq_some hroot
    have hne : roots ≠ [] := by
      rintro rfl
      cases hroot
    exact ⟨output, _, hfirst,
      ofPatch_of_discovery_eq_error hne (Discovery.ofPatch_of_rootFault? hroot)⟩
  | none =>
    have hroots := Patch.rootFault?_eq_none_iff.1 hroot
    obtain ⟨d, hd⟩ := Discovery.exists_ofPatch_pruned hroots
    have hfound := Discovery.ofPatch_breadthFirst hd
    obtain ⟨root, hmem, hc⟩ | ⟨id, input, output, hreach, hdangles⟩ := h
    · exact absurd (hroots root hmem) hc
    cases hfault : d.order.toList.findSome? patch.nodeFault? with
    | none =>
      have hnone := List.findSome?_eq_none_iff.1 hfault id ((hfound.mem_iff id).2 hreach)
      exact absurd hnone hdangles.nodeFault?_ne_none
    | some e =>
      obtain ⟨output, site, rfl, hfirst⟩ := Patch.firstDangling_of_findSome? hroots hfound hfault
      refine ⟨output, site, hfirst, ofPatch_of_discovery_eq_error hreach.roots_ne_nil ?_⟩
      rw [Discovery.ofPatch_eq_barring hd, hfault, barring_some]

theorem hasDangling_of_firstDangling {output : OutputRef} {site : ReferenceSite}
    (h : patch.FirstDangling roots output site) : patch.HasDangling roots := by
  cases h with
  | root hroot hmissing => exact .inl ⟨_, List.mem_of_getElem? hroot, hmissing⟩
  | input _ hfound hid hdangles =>
    exact .inr ⟨_, _, _, (hfound.mem_iff _).1 (List.mem_of_getElem? hid), hdangles⟩

/-- References that are not reached make no difference. -/
theorem ofPatch_pruned (h : ¬patch.HasDangling roots) :
    ofPatch patch.pruned roots = ofPatch patch roots := by
  have hroots : ∀ root ∈ roots, patch.containsOutput root := fun root hroot =>
    not_not.1 fun hc => h (.inl ⟨root, hroot, hc⟩)
  obtain ⟨d, hd⟩ := Discovery.exists_ofPatch_pruned hroots
  have hfaults : d.order.toList.findSome? patch.nodeFault? = none := by
    refine List.findSome?_eq_none_iff.2 fun id hid => Option.eq_none_iff_forall_ne_some.2 ?_
    intro fault hfault
    obtain ⟨i, output, hdangles, -⟩ := Patch.nodeFault?_eq_some hfault
    have hreach := ((Discovery.ofPatch_breadthFirst hd).mem_iff id).1 hid
    exact h (.inr ⟨id, i, output, hreach, hdangles⟩)
  rw [ofPatch, ofPatch, hd, Discovery.ofPatch_eq_barring hd, hfaults, barring_none]
  simp only [bind, Except.bind, Discovery.schedule_pruned hfaults]

/-- If no reference dangles, nothing but circles is refused, as long as there are roots. -/
theorem eq_of_not_hasDangling (h : ¬patch.HasDangling roots)
    (he : ofPatch patch roots = .error e) : e = .noRoots ∨ ∃ nodes, e = .cycle nodes := by
  by_cases hne : roots = []
  · subst hne
    exact .inl (Except.error.inj he).symm
  · have hlinked : patch.pruned.Linked roots := by
      refine ⟨hne, fun root hroot => ?_, fun id _ b output hb hs => ?_⟩
      · rw [Patch.containsOutput_pruned]
        exact not_not.1 fun hc => h (.inl ⟨root, hroot, hc⟩)
      · rw [Patch.containsOutput_pruned]
        exact Patch.containsOutput_of_binds_pruned hb hs
    exact .inr (exists_cycle_of_linked hlinked ((ofPatch_pruned h).trans he))

/-- A patch is refused for a reference exactly if it is the first one to an output that does
    not exist, of those that are reached. There is a first one if there are any, whatever
    else is wrong, and if there are none, the patch is resolved as if no reference of it
    dangled. A node that does not exist is never what a patch is refused for. -/
theorem ofPatch_eq_invalidReference_iff (patch : Patch) (roots : List OutputRef) :
    (∀ output site, ofPatch patch roots = .error (.invalidReference output site) ↔
      patch.FirstDangling roots output site) ∧
    ((∃ output site, patch.FirstDangling roots output site) ↔ patch.HasDangling roots) ∧
    (¬patch.HasDangling roots → ofPatch patch roots = ofPatch patch.pruned roots) ∧
    ∀ id, ofPatch patch roots ≠ .error (.unknownNode id) := by
  by_cases hdangling : patch.HasDangling roots
  · obtain ⟨output, site, hfirst, he⟩ := exists_firstDangling hdangling
    refine ⟨fun output' site' => ⟨fun h => ?_, fun hfirst' => ?_⟩,
      iff_of_true ⟨output, site, hfirst⟩ hdangling, absurd hdangling, fun id h => ?_⟩
    · cases he.symm.trans h
      exact hfirst
    · obtain ⟨rfl, rfl⟩ := hfirst.unique hfirst'
      exact he
    · cases he.symm.trans h
  · have hnone : ∀ output site, ¬patch.FirstDangling roots output site :=
      fun _ _ hfirst => hdangling (hasDangling_of_firstDangling hfirst)
    refine ⟨fun output site => iff_of_false (fun h => ?_) (hnone output site),
      iff_of_false (fun ⟨output, site, h⟩ => hnone output site h) hdangling,
      fun _ => (ofPatch_pruned hdangling).symm, fun id h => ?_⟩
    · rcases eq_of_not_hasDangling hdangling h with h | ⟨nodes, h⟩ <;> cases h
    · rcases eq_of_not_hasDangling hdangling h with h | ⟨nodes, h⟩ <;> cases h

/-- Two nodes wait for each other, and the second one also recalls an output that does not
    exist. So does a third one, but it is not reached. -/
example :
    let add (left right : Binding) : Node := .binary "add" (· + ·) left right
    let patch : Patch := {
      nodes := #[
        add (.output ⟨⟨1⟩, 0⟩) (.constant 0),
        add (.output ⟨⟨0⟩, 0⟩) (.feedback ⟨⟨5⟩, 0⟩),
        add (.feedback ⟨⟨7⟩, 0⟩) (.constant 0)] }
    ofPatch patch [⟨⟨0⟩, 0⟩] = .error (.invalidReference ⟨⟨5⟩, 0⟩ (.input ⟨1⟩ 1)) := by
  decide +kernel

end Resolution

end SignalGraph
