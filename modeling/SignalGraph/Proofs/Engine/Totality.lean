import SignalGraph.Proofs.Engine.Agreement
import SignalGraph.Proofs.Plan.Assignment

/-!
# Only resolution fails

Compilation and direct evaluation look for slots all the time, and are written to cope
with a slot that is missing: it is refused, passed over, or read as zero. A patch that
has been resolved never puts them to the test (`Evaluator.only_resolution_fails`). All
that is looked up belongs to a node that contributes, and has a slot.

For direct evaluation this is said through a tick that gives up where the other one
would cope (`Evaluator.advance?`): both come to the same, whatever happened before.
-/

namespace SignalGraph

namespace Plan

/-- Nothing that compilation looks up is missing. -/
structure Complete (patch : Patch) (roots : List OutputRef) (r : Resolution) (plan : Plan) :
    Prop where
  layout_eq : Layout.ofResolution patch r = .ok plan.layout
  exists_step : ∀ id ∈ r.order, ∃ step, Step.ofNode patch plan.layout id = .ok step
  exists_root_slot : ∀ root ∈ roots, ∃ slot, plan.layout.slot? (.output root) = some slot
  exists_latch_slots : ∀ source ∈ r.delayed,
    (∃ slot, plan.layout.slot? (.output source) = some slot) ∧
      ∃ slot, plan.layout.slot? (.history source) = some slot
  length_latches : plan.latches.length = r.delayed.length

variable {patch : Patch} {roots : List OutputRef} {r : Resolution} {plan : Plan}

theorem Compiled.complete (h : Compiled patch roots r plan) : Complete patch roots r plan where
  layout_eq := h.layout_eq
  exists_step _ hid := Step.exists_ofNode h.resolves h.resolvable h.allocates hid
  exists_root_slot root hroot :=
    h.exists_slot (.root hroot) (Patch.output_mem_keysOf (h.resolvable.root_exists root hroot))
  exists_latch_slots _ := h.exists_latch_slots
  length_latches := h.latches.length_eq.symm

end Plan

namespace Evaluator

/-! ## Evaluation that gives up -/

/-- What is held under a key. None, if nothing is. -/
def look? (layout : Layout) (values : Array Binary32) (key : SlotKey) : Option Binary32 :=
  (layout.slot? key).bind (values[·]?)

/-- Puts a word under a key. None, if nothing is held there. -/
def put? (layout : Layout) (values : Array Binary32) (key : SlotKey) (word : Binary32) :
    Option (Array Binary32) :=
  (layout.slot? key).bind (store? values · word)

/-- The word that an argument of a node stands for. None, if it has no slot. -/
def argument? (layout : Layout) (globals : Globals) (values : Array Binary32) (id : NodeId)
    (node : Node) : node.Argument → Option Binary32
  | .input i =>
    match node.inputs.get i with
    | .constant value => some value
    | .output source => look? layout values (.output source)
    | .feedback source => look? layout values (.history source)
  | .output i =>
    match (node.schema.outputs.get i).access with
    | .write => some 0
    | .readWrite => look? layout values (.output (id.output i))
  | .state i => look? layout values (.state id i)
  | .global which => some (globals.value which)

/-- Updates a node. None, if it does not exist, or if an argument or a result of it has
    no slot. -/
def updateNode? (patch : Patch) (layout : Layout) (globals : Globals) (values : Array Binary32)
    (id : NodeId) : Option (Array Binary32) := do
  let node ← patch.node? id
  let arguments := node.schema.arguments
  let frame := node.schema.update
    (.ofList (← arguments.mapM (argument? layout globals values id node)))
  arguments.zipIdx.foldlM
    (fun values (a, place) =>
      match resultKey? id a with
      | some key => put? layout values key (frame.get place)
      | none => some values)
    values

/-- Remembers an output for the next tick. None, if it has no slot or no history. -/
def remember? (layout : Layout) (values : Array Binary32) (output : OutputRef) :
    Option (Array Binary32) := do
  put? layout values (.history output) (← look? layout values (.output output))

/-- Runs a tick. None, if anything is missing that it looks for. -/
def advance? (e : Evaluator) (globals : Globals) : Option Evaluator := do
  let values ← e.resolution.order.foldlM (updateNode? e.patch e.layout globals) e.values
  let values ← e.resolution.delayed.foldlM (remember? e.layout) values
  pure { e with values }

variable {patch : Patch} {roots : List OutputRef} {r : Resolution} {layout : Layout} {plan : Plan}
  {globals : Globals} {values : Array Binary32} {key : SlotKey} {id : NodeId} {node : Node}
  {source : OutputRef}

theorem look?_eq (hl : layout.Allocates patch r) (hsize : values.size = layout.size)
    (hkey : ∃ slot, layout.slot? key = some slot) :
    look? layout values key = some (look layout values key) := by
  obtain ⟨slot, hslot⟩ := hkey
  have hlt : slot < values.size := hsize ▸ hl.slot_lt hslot
  simp [look?, look, hslot, hlt]

theorem put?_eq (hl : layout.Allocates patch r) (hsize : values.size = layout.size)
    (hkey : ∃ slot, layout.slot? key = some slot) (word : Binary32) :
    put? layout values key word = some (put layout values key word) := by
  obtain ⟨slot, hslot⟩ := hkey
  rw [put?, put, hslot]
  exact store?_eq (hsize ▸ hl.slot_lt hslot)

section

variable (h : Plan.Compiled patch roots r plan) (hsize : values.size = plan.layout.size)
include h hsize

/-- All arguments of a node that contributes have slots. -/
theorem argument?_eq (globals : Globals) (hid : patch.Reachable roots id)
    (hnode : patch.node? id = some node) (a : node.Argument) :
    argument? plan.layout globals values id node a =
      some (argument plan.layout globals values id node a) := by
  cases a with
  | input i =>
    have hbinds := Patch.binds_get hnode i
    cases hb : node.inputs.get i with
    | constant value => simp only [argument?, argument, hb]
    | output source =>
      rw [hb] at hbinds
      simp only [argument?, argument, hb]
      exact look?_eq h.allocates hsize <| h.exists_slot (hid.of_reads hbinds) <|
        Patch.output_mem_keysOf (h.resolvable.source_exists id hid _ source hbinds rfl)
    | feedback source =>
      rw [hb] at hbinds
      simp only [argument?, argument, hb]
      exact look?_eq h.allocates hsize <| h.allocates.exists_history_slot_iff.2 <|
        (h.resolves.mem_delayed_iff source).2 ⟨id, hid, hbinds⟩
  | output i =>
    cases hacc : (node.schema.outputs.get i).access with
    | write => simp only [argument?, argument, hacc]
    | readWrite =>
      simp only [argument?, argument, hacc]
      exact look?_eq h.allocates hsize <|
        h.exists_slot hid (Patch.mem_keysOf_of_resultKey? hnode (a := .output i) rfl)
  | state i =>
    exact look?_eq h.allocates hsize <|
      h.exists_slot hid (Patch.mem_keysOf_of_resultKey? hnode (a := .state i) rfl)
  | global which => rfl

/-- The node exists, and nothing is missing for its update. -/
theorem updateNode?_eq (globals : Globals) (hid : patch.Reachable roots id) :
    updateNode? patch plan.layout globals values id =
      some (updateNode patch plan.layout globals values id) := by
  obtain ⟨node, hnode⟩ := h.resolvable.exists_node hid
  have harguments := mapM_eq_some fun a (_ : a ∈ node.schema.arguments) =>
    argument?_eq h hsize globals hid hnode a
  rw [updateNode_eq hnode]
  simp only [updateNode?, hnode, harguments, Option.bind_eq_bind, Option.bind_some]
  refine (foldlM_eq_some (·.size = plan.layout.size) (fun a _ t ht => ?_) hsize).1
  refine ⟨?_, (size_store a).trans ht⟩
  rw [store]
  cases ha : resultKey? id a.1 with
  | none => rfl
  | some key =>
    exact put?_eq h.allocates ht (h.exists_slot hid (Patch.mem_keysOf_of_resultKey? hnode ha)) _

/-- An output that is recalled has a slot and a history. -/
theorem remember?_eq (hsource : source ∈ r.delayed) :
    remember? plan.layout values source = some (remember plan.layout values source) := by
  obtain ⟨houtput, hhistory⟩ := h.exists_latch_slots hsource
  rw [remember?, look?_eq h.allocates hsize houtput, remember_eq houtput]
  exact put?_eq h.allocates hsize hhistory _

end

/-- A tick finds all that it looks for. -/
theorem Agrees.advance?_eq {e : Evaluator} {engine : Engine} (h : e.Agrees engine)
    (hsize : e.values.size = engine.plan.layout.size) (globals : Globals) :
    e.advance? globals = some (e.advance globals) := by
  have hnodes := foldlM_eq_some (·.size = engine.plan.layout.size)
    (fun id hid _ ht => ⟨updateNode?_eq h.compiled ht globals
      ((h.compiled.resolves.mem_order_iff id).1 hid), size_updateNode.trans ht⟩) hsize
  have hdelayed := foldlM_eq_some (·.size = engine.plan.layout.size)
    (fun _ hsource _ ht => ⟨remember?_eq h.compiled ht hsource, size_remember.trans ht⟩) hnodes.2
  rw [advance?, h.layout_eq, hnodes.1, Option.bind_eq_bind, Option.bind_some, hdelayed.1,
    advance_eq, h.layout_eq, tick]
  rfl

/-- Compilation and direct evaluation fail exactly if resolution does, for the same
    reason. After it compilation finds all that it looks up, and copies each delayed
    output; and whatever has been asked of an evaluator, its next tick finds all that it
    looks up, too. -/
theorem only_resolution_fails (patch : Patch) (roots : List OutputRef) :
    (∀ fault, Plan.compile patch roots = .error fault ↔
      Resolution.ofPatch patch roots = .error fault) ∧
    (∀ fault, ofPatch patch roots = .error fault ↔
      Resolution.ofPatch patch roots = .error fault) ∧
    ∀ r, Resolution.ofPatch patch roots = .ok r →
      (∃ plan, Plan.compile patch roots = .ok plan ∧ plan.Complete patch roots r) ∧
      ∃ e, ofPatch patch roots = .ok e ∧ ∀ script globals,
        (e.run script).advance? globals = some ((e.run script).advance globals) := by
  cases hr : Resolution.ofPatch patch roots with
  | error fault =>
    have hcompile : Plan.compile patch roots = .error fault := bind_eq_error_iff.2 (.inl hr)
    have hevaluate : ofPatch patch roots = .error fault := bind_eq_error_iff.2 (.inl hr)
    simp [hcompile, hevaluate]
  | ok r =>
    obtain ⟨engine, e, hengine, he, hagrees⟩ := exists_agrees hr
    obtain ⟨plan, hplan, rfl⟩ := map_eq_ok_iff.1 hengine
    obtain ⟨r', hc⟩ := Plan.compile_eq_ok hplan
    obtain rfl : r = r' := Except.ok.inj (hr.symm.trans hc.resolution_eq)
    refine ⟨by simp [hplan], by simp [he], fun r' hr' => ?_⟩
    obtain rfl := Except.ok.inj hr'
    refine ⟨⟨plan, hplan, hc.complete⟩, e, he, fun script globals => ?_⟩
    -- The values of an engine in use have the size of its layout, and they are those of `e`.
    have hrun := (Engine.running_ofPlan hc {}).run hc script
    have hsame := hagrees.run script
    refine hsame.advance?_eq ?_ globals
    rw [hsame.values_eq, hrun.plan_eq, hrun.settled.size_eq]

/-- The echo can be resolved for its first node, but not for no root at all. -/
theorem only_resolution_fails_echo :
    Plan.compile .echo [] = .error .noRoots ∧ ofPatch .echo [] = .error .noRoots ∧
    (∃ plan, Plan.compile .echo [⟨⟨0⟩, 0⟩] = .ok plan ∧ plan.latches.length = 1) ∧
    ∃ e, ofPatch .echo [⟨⟨0⟩, 0⟩] = .ok e ∧
      (e.run [.advance ⟨1⟩]).advance? ⟨0⟩ = some ((e.run [.advance ⟨1⟩]).advance ⟨0⟩) := by
  obtain ⟨hcompile, hevaluate, _⟩ := only_resolution_fails .echo []
  obtain ⟨_, _, hresolved⟩ := only_resolution_fails .echo [⟨⟨0⟩, 0⟩]
  obtain ⟨⟨plan, hplan, hcomplete⟩, e, he, hadvance⟩ := hresolved _ Patch.resolution_echo
  exact ⟨(hcompile _).2 rfl, (hevaluate _).2 rfl, ⟨plan, hplan, hcomplete.length_latches⟩,
    e, he, hadvance [.advance ⟨1⟩] ⟨0⟩⟩

end Evaluator

end SignalGraph
