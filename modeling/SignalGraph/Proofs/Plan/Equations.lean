import SignalGraph.Evaluator
import SignalGraph.Proofs.Plan.Layout

/-!
# The equations of a tick

What a tick does to the values of a patch, said of each node by itself and without an
order: the new values of a node are what its update leaves in a frame made of new
values of what it reads, and old values of what it recalls and of what it keeps
(`Patch.Updates`).

New values occur on both sides of these equations. As no node waits for itself they
have one solution only, on any set of nodes that has all that its nodes refer to
(`Patch.AgreeOn.of_updates`). The solution depends on nothing but the old values of
these nodes.
-/

namespace SignalGraph

/-- The arguments of a node. -/
abbrev Node.Argument (node : Node) : Type :=
  SignalGraph.Argument node.schema.inputs.length node.schema.outputs.length
    node.schema.states.length

/-- What the outputs and the states of all nodes are. -/
abbrev Valuation : Type := SlotKey → Binary32

/-- What an argument of a node is in a tick from old to new values. -/
def Node.argument (globals : Globals) (old new : Valuation) (id : NodeId) (node : Node) :
    node.Argument → Binary32
  | .input i =>
    match node.inputs.get i with
    | .constant value => value
    | .output source => new (.output source)
    | .feedback source => old (.output source)
  | .output i =>
    match (node.schema.outputs.get i).access with
    | .write => 0
    | .readWrite => old (.output (id.output i))
  | .state i => old (.state id i)
  | .global which => globals.value which

/-- What the update of a node leaves in its frame. -/
def Node.answer (globals : Globals) (old new : Valuation) (id : NodeId) (node : Node) : Frame :=
  node.schema.update (.ofList (node.schema.arguments.map (node.argument globals old new id)))

namespace Patch

variable (patch : Patch)

/-- The new outputs and states of a node are what its update makes of them. -/
def Updates (globals : Globals) (old new : Valuation) (id : NodeId) : Prop :=
  ∃ node, patch.node? id = some node ∧ ∀ (a : node.Argument) (place : Nat),
    node.schema.arguments[place]? = some a → ∀ key, Evaluator.resultKey? id a = some key →
      new key = (node.answer globals old new id).get place

/-- The nodes hold the same values in both valuations. -/
def AgreeOn (s : NodeId → Prop) (v w : Valuation) : Prop :=
  ∀ id, s id → ∀ key ∈ patch.keysOf id, v key = w key

/-- All that the nodes refer to exists, and belongs to one of them. -/
def Closed (s : NodeId → Prop) : Prop :=
  ∀ id, s id → ∀ b source, patch.Binds id b → b.source? = some source →
    s source.node ∧ patch.containsOutput source

variable {patch} {globals : Globals} {old new old' new' : Valuation} {id : NodeId} {node : Node}
  {key : SlotKey} {source : OutputRef} {s : NodeId → Prop} {roots : List OutputRef}

theorem Resolvable.closed (hp : patch.Resolvable roots) : patch.Closed (patch.Reachable roots) :=
  fun id hid b source hb hs => ⟨hid.source hb hs, hp.source_exists id hid b source hb hs⟩

theorem Closed.inter {t : NodeId → Prop} (hs : patch.Closed s) (ht : patch.Closed t) :
    patch.Closed fun id => s id ∧ t id := fun id hid b source hb hsource =>
  ⟨⟨(hs id hid.1 b source hb hsource).1, (ht id hid.2 b source hb hsource).1⟩,
    (hs id hid.1 b source hb hsource).2⟩

/-- An output that exists is a value of its node. -/
theorem output_mem_keysOf (h : patch.containsOutput source) :
    .output source ∈ patch.keysOf source.node := by
  obtain ⟨node, hnode, hlt⟩ := containsOutput_iff.1 h
  exact Layout.mem_keysOf_iff.2 ⟨node, hnode, rfl, by simp [Layout.offset?, hlt]⟩

/-- A value of a node is one of the results of its update. -/
theorem exists_result_of_mem_keysOf (h : key ∈ patch.keysOf id) :
    ∃ node, patch.node? id = some node ∧ ∃ (a : node.Argument) (place : Nat),
      node.schema.arguments[place]? = some a ∧ Evaluator.resultKey? id a = some key := by
  obtain ⟨node, hnode, howner, hoffset⟩ := Layout.mem_keysOf_iff.1 h
  refine ⟨node, hnode, ?_⟩
  cases key with
  | output source =>
    obtain rfl : source.node = id := Option.some.inj howner
    have hlt : source.index < node.schema.outputs.length := by simpa [Layout.offset?] using hoffset
    obtain ⟨place, hplace⟩ := List.mem_iff_getElem?.1 (node.schema.output_mem ⟨source.index, hlt⟩)
    exact ⟨_, place, hplace, rfl⟩
  | state n index =>
    obtain rfl : n = id := Option.some.inj howner
    have hlt : index < node.schema.states.length := by simpa [Layout.offset?] using hoffset
    obtain ⟨place, hplace⟩ := List.mem_iff_getElem?.1 (node.schema.state_mem ⟨index, hlt⟩)
    exact ⟨_, place, hplace, rfl⟩
  | history source => simp [SlotKey.owner?] at howner

theorem owner?_of_resultKey? {a : node.Argument} (ha : Evaluator.resultKey? id a = some key) :
    key.owner? = some id := by
  cases a <;> simp only [Evaluator.resultKey?, Option.some.injEq, reduceCtorEq] at ha <;> subst ha
  · rfl
  · rfl

/-- A result of the update of a node is one of its values. -/
theorem mem_keysOf_of_resultKey? (hnode : patch.node? id = some node) {a : node.Argument}
    (ha : Evaluator.resultKey? id a = some key) : key ∈ patch.keysOf id := by
  refine Layout.mem_keysOf_iff.2 ⟨node, hnode, owner?_of_resultKey? ha, ?_⟩
  cases a <;> simp only [Evaluator.resultKey?, Option.some.injEq, reduceCtorEq] at ha <;> subst ha
  · simp [Layout.offset?, NodeId.output]
  · simp [Layout.offset?]

theorem Updates.eq (h : patch.Updates globals old new id) (hnode : patch.node? id = some node)
    {a : node.Argument} {place : Nat} (hplace : node.schema.arguments[place]? = some a)
    (ha : Evaluator.resultKey? id a = some key) :
    new key = (node.answer globals old new id).get place := by
  obtain ⟨node', hnode', h⟩ := h
  obtain rfl : node' = node := Option.some.inj (hnode'.symm.trans hnode)
  exact h a place hplace key ha

/-- A node finds the same arguments in valuations that agree on what it keeps and
    recalls before, and on what it reads after the tick. -/
theorem argument_congr (hnode : patch.node? id = some node)
    (hkeys : ∀ key ∈ patch.keysOf id, old key = old' key)
    (hrecalls : ∀ source, patch.Recalls id source → old (.output source) = old' (.output source))
    (hreads : ∀ source, patch.Reads id source → new (.output source) = new' (.output source))
    (a : node.Argument) :
    node.argument globals old new id a = node.argument globals old' new' id a := by
  cases a with
  | input i =>
    have hbinds := binds_get hnode i
    cases hb : node.inputs.get i with
    | constant value => simp only [Node.argument, hb]
    | output source =>
      rw [hb] at hbinds
      simp only [Node.argument, hb]
      exact hreads source hbinds
    | feedback source =>
      rw [hb] at hbinds
      simp only [Node.argument, hb]
      exact hrecalls source hbinds
  | output i =>
    have hkey := mem_keysOf_of_resultKey? hnode (a := .output i) rfl
    cases hacc : (node.schema.outputs.get i).access with
    | write => simp only [Node.argument, hacc]
    | readWrite =>
      simp only [Node.argument, hacc]
      exact hkeys _ hkey
  | state i => exact hkeys _ (mem_keysOf_of_resultKey? hnode (a := .state i) rfl)
  | global which => rfl

/-- The equations have one solution: nodes that held the same values before a tick hold
    the same values after it. -/
theorem AgreeOn.of_updates {order : List NodeId} (horder : InOrder patch.Awaits order)
    (hmem : ∀ id, s id → id ∈ order) (hs : patch.Closed s) (hold : patch.AgreeOn s old old')
    (hnew : ∀ id, s id → patch.Updates globals old new id)
    (hnew' : ∀ id, s id → patch.Updates globals old' new' id) : patch.AgreeOn s new new' := by
  intro id hid
  refine horder.induction (p := fun id => s id → ∀ key ∈ patch.keysOf id, new key = new' key)
    ?_ id (hmem id hid) hid
  -- What a node waits for agrees before it does.
  intro id _ ih hid key hkey
  obtain ⟨node, hnode, a, place, hplace, ha⟩ := exists_result_of_mem_keysOf hkey
  have hargument : ∀ a : node.Argument,
      node.argument globals old new id a = node.argument globals old' new' id a := by
    refine argument_congr hnode (hold id hid) (fun source hsource => ?_) fun source hsource => ?_
    · obtain ⟨hmem, hexists⟩ := hs id hid _ source hsource rfl
      exact hold _ hmem _ (output_mem_keysOf hexists)
    · obtain ⟨hmem, hexists⟩ := hs id hid _ source hsource rfl
      exact ih _ ⟨source, hsource, rfl⟩ hmem _ (output_mem_keysOf hexists)
  have hanswer : node.answer globals old new id = node.answer globals old' new' id := by
    rw [Node.answer, Node.answer, List.map_congr_left fun a _ => hargument a]
  rw [(hnew id hid).eq hnode hplace ha, hanswer, ← (hnew' id hid).eq hnode hplace ha]

end Patch

end SignalGraph
