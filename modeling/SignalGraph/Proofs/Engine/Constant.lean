import SignalGraph.Proofs.Engine.Simulation
import SignalGraph.Proofs.Patch.Constant
import SignalGraph.Proofs.Patch.Editing
import SignalGraph.Proofs.Plan.Catalog

/-!
# Constants and nodes of constant value

It cannot be heard whether an input is bound to a constant or reads a node of this value
(`Engine.run_indep_constant`). The additional node changes the order of discovery, and with
it the update order and all slots. But it holds its value from the beginning on, as nothing
sets it (`Patch.Supplied.holds_of_performs`), and whoever reads it reads the value of the
same tick, be it the first one. So commands do to all other nodes what they did without it
(`Patch.Supplied.performs`).
-/

namespace SignalGraph

variable {patch patch' : Patch} {roots : List OutputRef} {id : NodeId} {node : Node}
  {value : Binary32} {globals : Globals} {v w : Valuation} {command : Command} {key : SlotKey}

namespace Patch.Supplied

variable (h : Supplied value patch patch')
include h

/-! ## What is as before -/

theorem keysOf_eq (hnode : patch.node? id = some node) : patch'.keysOf id = patch.keysOf id := by
  obtain ⟨inputs, hinputs, -⟩ := h.node?_eq id node hnode
  rw [keysOf_of_node hinputs, keysOf_of_node hnode]
  rfl

theorem initialWord_eq (hnode : patch.node? id = some node) (howner : key.owner? = some id) :
    patch'.initialWord key = patch.initialWord key := by
  obtain ⟨inputs, hinputs, -⟩ := h.node?_eq id node hnode
  cases key with
  | state n index =>
    obtain rfl : n = id := Option.some.inj howner
    simp [initialWord, stateValue?, hinputs, hnode]
  | output source => rfl
  | history source => rfl

/-- A node that is supplied is updated as before, if it is supplied with the constant. -/
theorem updates (hnode : patch.node? id = some node)
    (hsource : patch'.Reads id (patch.nextId.output 0) →
      w (.output (patch.nextId.output 0)) = value)
    (hupdates : patch'.Updates globals v w id) : patch.Updates globals v w id := by
  obtain ⟨inputs, hinputs, hcases⟩ := h.node?_eq id node hnode
  have hargument : ∀ a : node.Argument, Node.argument globals v w id { node with inputs } a =
      node.argument globals v w id a := by
    intro a
    cases a with
    | input i =>
      rcases hcases i with hsame | ⟨hconstant, hnew⟩
      · simp only [Node.argument, hsame]
      · have hreads : patch'.Binds id (inputs.get i) := binds_get hinputs i
        rw [hnew] at hreads
        simp only [Node.argument, hconstant, hnew, hsource hreads]
    | output i => rfl
    | state i => rfl
    | global which => rfl
  have hanswer : Node.answer globals v w id { node with inputs } = node.answer globals v w id :=
    congrArg (fun arguments => node.schema.update (.ofList arguments))
      (List.map_congr_left fun a _ => hargument a)
  refine ⟨node, hnode, fun a place hplace key hkey => ?_⟩
  rw [← hanswer]
  exact hupdates.eq hinputs hplace hkey

/-! ## Commands -/

theorem agreeOn_initialWord (hp : patch.Resolvable roots)
    (hagree : patch'.AgreeOn (patch'.Reachable roots) w patch'.initialWord) :
    patch.AgreeOn (patch.Reachable roots) w patch.initialWord := by
  intro id hid key hkey
  obtain ⟨node, hnode⟩ := hp.exists_node hid
  rw [hagree id (h.reachable hid) key (h.keysOf_eq hnode ▸ hkey),
    h.initialWord_eq hnode (Layout.owner?_of_mem_keysOf hkey)]

/-- The new node holds the constant, if it contributes. -/
def Holds (value : Binary32) (patch patch' : Patch) (roots : List OutputRef) (v : Valuation) :
    Prop :=
  patch'.Reachable roots patch.nextId → v (.state patch.nextId 0) = value

theorem holds_of_agreeOn (hagree : patch'.AgreeOn (patch'.Reachable roots) w patch'.initialWord) :
    Holds value patch patch' roots w := by
  intro hreach
  rw [hagree _ hreach _ (state_mem_keysOf_holder h.nextId_eq), initialWord_holder h.nextId_eq]

/-- No command changes what the new node holds. -/
theorem holds_of_performs (hexternals : ∀ id ∈ patch.externals, id ≠ patch.nextId)
    (hv : Holds value patch patch' roots v)
    (hperforms : patch'.Performs (patch'.Reachable roots) v w command) :
    Holds value patch patch' roots w := by
  cases command with
  | advance globals =>
    intro hreach
    rw [(Node.holder_of_updates h.nextId_eq (hperforms _ hreach)).1, hv hreach]
  | setInput external word =>
    intro hreach
    have hother : patch'.externals[external.index]? ≠ some patch.nextId := by
      rw [h.externals_eq]
      exact fun hnode => hexternals _ (Array.mem_of_getElem? hnode) rfl
    rw [hperforms _ hreach _ (state_mem_keysOf_holder h.nextId_eq), setInput_state, if_neg hother,
      hv hreach]
  | reset => exact h.holds_of_agreeOn hperforms

/-- As long as the new node holds the constant, commands do what they did without it. -/
theorem performs (hp : patch.Resolvable roots) (hv : Holds value patch patch' roots v)
    (hperforms : patch'.Performs (patch'.Reachable roots) v w command) :
    patch.Performs (patch.Reachable roots) v w command := by
  cases command with
  | advance globals =>
    intro id hid
    obtain ⟨node, hnode⟩ := hp.exists_node hid
    refine h.updates hnode (fun hreads => ?_) (hperforms id (h.reachable hid))
    have hreach : patch'.Reachable roots patch.nextId := (h.reachable hid).of_reads hreads
    rw [(Node.holder_of_updates h.nextId_eq (hperforms _ hreach)).2, hv hreach]
  | setInput external word =>
    intro id hid key hkey
    obtain ⟨node, hnode⟩ := hp.exists_node hid
    rw [hperforms id (h.reachable hid) key (h.keysOf_eq hnode ▸ hkey), setInput, setInput,
      h.externals_eq]
  | reset => exact h.agreeOn_initialWord hp hperforms

end Patch.Supplied

/-- A sum of two constants. -/
def Patch.total : Patch := (Call.sum (.constant 1) (.constant 2)).edit.after {}

theorem Patch.built_total : total.Built :=
  .call (.sum (.constant 1) (.constant 2)) .refl nofun

theorem Patch.resolution_total : Resolution.ofPatch total [⟨⟨0⟩, 0⟩] = .ok ⟨[⟨0⟩], []⟩ := by
  decide +kernel

/-! ## Engines -/

namespace Engine

open Patch

variable {r r' : Resolution} {plan plan' : Plan}

section

variable (hs : Supplied value patch patch') (h : Plan.Compiled patch roots r plan)
  (h' : Plan.Compiled patch' roots r' plan')
include hs h h'

/-- What has a slot without the new node has one with it. -/
theorem exists_slot_of_supplied (hkey : ∃ slot, plan.layout.slot? key = some slot) :
    ∃ slot, plan'.layout.slot? key = some slot := by
  obtain ⟨slot, hslot⟩ := hkey
  rcases h.reachable_of_slot? hslot with ⟨id, hid, hkey⟩ | ⟨source, hsource, rfl⟩
  · obtain ⟨node, hnode⟩ := h.resolvable.exists_node hid
    exact h'.exists_slot (hs.reachable hid) (hs.keysOf_eq hnode ▸ hkey)
  · obtain ⟨id, hid, hrecalls⟩ := (h.resolves.mem_delayed_iff source).1 hsource
    exact h'.allocates.exists_history_slot_iff.2 <|
      (h'.resolves.mem_delayed_iff source).2 ⟨id, hs.reachable hid, hs.binds hrecalls rfl⟩

variable (hexternals : ∀ id ∈ patch.externals, id ≠ patch.nextId)
include hexternals

/-- The nodes that contribute without the new node hold the same values with it. -/
theorem agreeOn_run_supplied (config config' : Config) (script : List Command) :
    patch.AgreeOn (patch.Reachable roots) ((ofPlan plan config).run script).valuation
      ((ofPlan plan' config').run script).valuation := by
  have hinitial := agreeOn_initialWord h' config'
  refine (running_ofPlan h config).agreeOn_run h h.resolvable.closed (fun _ hid => hid)
    (fun engine' => Running plan' r' engine' ∧
      Supplied.Holds value patch patch' roots engine'.valuation)
    valuation (fun engine' command hinv => ?_)
    ⟨running_ofPlan h' config', hs.holds_of_agreeOn hinitial⟩
    ((agreeOn_initialWord h config).trans
      (hs.agreeOn_initialWord h.resolvable hinitial).symm) script
  have hperforms := hinv.1.performs h' command
  exact ⟨⟨hinv.1.perform h' command, hs.holds_of_performs hexternals hinv.2 hperforms⟩,
    hs.performs h.resolvable hinv.2 hperforms⟩

theorem value?_supplied (config config' : Config) (script : List Command)
    (hkey : ∃ slot, plan.layout.slot? key = some slot) :
    ((ofPlan plan' config').run script).value? key =
      ((ofPlan plan config).run script).value? key := by
  have hrun := (running_ofPlan h config).run h script
  have hrun' := (running_ofPlan h' config').run h' script
  rw [hrun.value?_eq hkey, hrun'.value?_eq (exists_slot_of_supplied hs h h' hkey)]
  have hagree := agreeOn_run_supplied hs h h' hexternals config config' script
  refine congrArg some (hrun.valuation_eq_of_agreeOn h hagree (fun source hsource => ?_) hkey).symm
  refine hrun'.valuation_history (h'.allocates.exists_history_slot_iff.1 ?_)
  exact exists_slot_of_supplied hs h h' (h.allocates.exists_history_slot_iff.2 hsource)

end

/-- An input that is bound to a finite constant may read a new node of this value instead:
    the patch still compiles, and after each script all that has had a slot before has the
    same value, and so have the roots. -/
theorem run_indep_constant (hbuilt : patch.Built) (h : Plan.compile patch roots = .ok plan)
    {index : Nat} (hbinding : patch.binding? id index = some (.constant value))
    (hvalue : value.isFinite) :
    ∃ patch', (connectConstant id index value).run patch = .ok () patch' ∧
      ∃ plan', Plan.compile patch' roots = .ok plan' ∧ ∀ config config' script,
        let engine := (ofPlan plan config).run script
        let engine' := (ofPlan plan' config').run script
        (∀ key, (engine.value? key).isSome → engine'.value? key = engine.value? key) ∧
        ∀ i, engine'.sample? i = engine.sample? i := by
  obtain ⟨r, hc⟩ := Plan.compile_eq_ok h
  obtain ⟨patch', hedit, hs⟩ := exists_run_connectConstant hvalue hbinding
  obtain ⟨r', hr'⟩ := Resolution.exists_ofPatch_eq_ok (hs.resolvable hc.resolvable)
  obtain ⟨plan', hplan'⟩ := Plan.exists_compile_eq_ok hr'
  obtain ⟨_, hc'⟩ := Plan.compile_eq_ok hplan'
  -- Host inputs are nodes that were there before.
  have hexternals : ∀ id ∈ patch.externals, id ≠ patch.nextId := by
    rintro id hid rfl
    exact Nat.lt_irrefl _ (hbuilt.external_lt hid)
  refine ⟨patch', hedit, plan', hplan', fun config config' script => ?_⟩
  intro engine engine'
  have hrun : Running plan r engine := (running_ofPlan hc config).run hc script
  have hrun' : Running plan' _ engine' := (running_ofPlan hc' config').run hc' script
  have hvalue : ∀ key, (engine.value? key).isSome → engine'.value? key = engine.value? key :=
    fun key hkey => value?_supplied hs hc hc' hexternals config config' script
      (hrun.exists_slot_of_value? hkey)
  refine ⟨hvalue, fun i => ?_⟩
  rw [hrun.sample?_eq hc, hrun'.sample?_eq hc']
  cases hroot : roots[i]? with
  | none => rfl
  | some root => exact hvalue _ (hrun.isSome_value?_root hc (List.mem_of_getElem? hroot))

/-- The second term of the total may come from a node. -/
theorem run_indep_constant_total : ∃ plan patch' plan',
    Plan.compile .total [⟨⟨0⟩, 0⟩] = .ok plan ∧
    Patch.total.binding? ⟨0⟩ 1 = some (.constant 2) ∧
    (connectConstant ⟨0⟩ 1 2).run .total = .ok () patch' ∧
    Plan.compile patch' [⟨⟨0⟩, 0⟩] = .ok plan' ∧
    ((ofPlan plan').run [.advance ⟨1⟩]).sample? 0 =
      ((ofPlan plan).run [.advance ⟨1⟩]).sample? 0 := by
  obtain ⟨plan, hplan⟩ := Plan.exists_compile_eq_ok Patch.resolution_total
  have hbinding : Patch.total.binding? ⟨0⟩ 1 = some (.constant 2) := by decide +kernel
  obtain ⟨patch', hedit, plan', hplan', hrun⟩ :=
    run_indep_constant Patch.built_total hplan hbinding (by decide +kernel)
  exact ⟨plan, patch', plan', hplan, hbinding, hedit, hplan', (hrun {} {} [.advance ⟨1⟩]).2 0⟩

end Engine

end SignalGraph
