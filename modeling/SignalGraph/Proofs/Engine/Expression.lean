import SignalGraph.Proofs.Engine.Simulation
import SignalGraph.Proofs.Patch.Expression
import SignalGraph.Proofs.Plan.Catalog

/-!
# Evaluating expressions

Engines evaluate what has been written down: a patch that expresses the roots compiles, and
after each tick a root has the value of its expression at what the host inputs are then
(`Engine.sample?_eq_eval`).

Between ticks, nodes of constant value hold their constants, and host inputs what the host
has last set (`Patch.Tracks`). No command changes that (`Patch.Holds.tracks_of_performs`).
In a tick, values go up from there through all parts of the expressions
(`Patch.Represents.read_eq`).
-/

namespace SignalGraph

/-- What the host inputs are. -/
abbrev Inputs : Type := ExternalId → Binary32

namespace Inputs

/-- The words that the host inputs start from. -/
def start (initial : List Binary32) : Inputs := fun id => initial.getD id.index 0

/-- What the host inputs are after a command. -/
def perform (initial : List Binary32) (inputs : Inputs) : Command → Inputs
  | .advance _ => inputs
  | .setInput id value => Function.update inputs id value
  | .reset => start initial

/-- What the host inputs are after a script. -/
def run (initial : List Binary32) (script : List Command) : Inputs :=
  script.foldl (perform initial) (start initial)

end Inputs

namespace Patch

variable {patch : Patch} {roots : List OutputRef} {initial : List Binary32}
  {terms : List (OutputRef × Expression)} {inputs : Inputs} {v w : Valuation} {command : Command}
  {globals : Globals} {b : Binding} {e : Expression}

/-- The nodes that contribute hold their constants, and what the host inputs are. -/
structure Tracks (patch : Patch) (roots : List OutputRef) (inputs : Inputs) (v : Valuation) :
    Prop where
  constant : ∀ id value, patch.Reachable roots id → patch.node? id = some (.constant value) →
    v (.state id 0) = value
  input : ∀ id (i : ExternalId), patch.Reachable roots id → patch.externals[i.index]? = some id →
    v (.state id 0) = inputs i

theorem Holds.tracks_initialWord (h : patch.Holds initial terms)
    (hagree : patch.AgreeOn (patch.Reachable roots) w patch.initialWord) :
    patch.Tracks roots (Inputs.start initial) w where
  constant id value hid hnode := by
    rw [hagree id hid _ (state_mem_keysOf_holder hnode), initialWord_holder hnode]
  input id i hid hi := by
    obtain ⟨word, hword, hnode⟩ := h.external_eq i.index id hi
    rw [hagree id hid _ (state_mem_keysOf_holder hnode), initialWord_holder hnode, Inputs.start,
      List.getD_eq_getElem?_getD, hword, Option.getD_some]

/-- A node of constant value is no host input. -/
theorem Holds.ne_external (h : patch.Holds initial terms) {id : NodeId} {value : Binary32}
    (hnode : patch.node? id = some (.constant value)) (i : Nat) :
    patch.externals[i]? ≠ some id := by
  intro hi
  obtain ⟨word, -, hnode'⟩ := h.external_eq i id hi
  have hunit : "constant" = "external" :=
    congrArg (·.schema.unit) (Option.some.inj (hnode.symm.trans hnode'))
  exact absurd hunit (by decide)

/-- What nodes hold stays, but for a host input that is set. -/
theorem Holds.tracks_of_performs (h : patch.Holds initial terms) (hv : patch.Tracks roots inputs v)
    (hperforms : patch.Performs (patch.Reachable roots) v w command) :
    patch.Tracks roots (inputs.perform initial command) w := by
  cases command with
  | advance globals =>
    refine ⟨fun id value hid hnode => ?_, fun id i hid hi => ?_⟩
    · rw [(Node.holder_of_updates hnode (hperforms id hid)).1, hv.constant id value hid hnode]
    · obtain ⟨word, -, hnode⟩ := h.external_eq i.index id hi
      rw [(Node.holder_of_updates hnode (hperforms id hid)).1, hv.input id i hid hi]
      rfl
  | setInput external word =>
    refine ⟨fun id value hid hnode => ?_, fun id i hid hi => ?_⟩
    · rw [hperforms id hid _ (state_mem_keysOf_holder hnode), setInput_state,
        if_neg (h.ne_external hnode external.index), hv.constant id value hid hnode]
    · obtain ⟨_, -, hnode⟩ := h.external_eq i.index id hi
      rw [hperforms id hid _ (state_mem_keysOf_holder hnode), setInput_state, Inputs.perform]
      by_cases hset : i = external
      · subst hset
        rw [if_pos hi, Function.update_self]
      · have hother : patch.externals[external.index]? ≠ some id := fun hexternal =>
          hset (congrArg ExternalId.mk (h.external_inj _ _ id hi hexternal))
        rw [if_neg hother, Function.update_of_ne hset, hv.input id i hid hi]
  | reset => exact h.tracks_initialWord hperforms

/-- In a tick, what represents an expression takes on its value. -/
theorem Represents.read_eq (h : patch.Represents b e)
    (hreach : ∀ source, b = .output source → patch.Reachable roots source.node)
    (hv : patch.Tracks roots inputs v)
    (hupdates : ∀ id, patch.Reachable roots id → patch.Updates globals v w id) :
    b.read v w = e.eval inputs := by
  induction h with
  | word value => rfl
  | @number id value hnode =>
    have hid : patch.Reachable roots id := hreach _ rfl
    exact (Node.holder_of_updates hnode (hupdates id hid)).2.trans (hv.constant id value hid hnode)
  | @input id i _ hi hnode =>
    have hid : patch.Reachable roots id := hreach _ rfl
    exact (Node.holder_of_updates hnode (hupdates id hid)).2.trans (hv.input id i hid hi)
  | @apply id op left right l r hnode _ _ ihl ihr =>
    have hid : patch.Reachable roots id := hreach _ rfl
    -- What the node reads contributes, too.
    have hleft : left.read v w = l.eval inputs := ihl fun source hsource =>
      hid.of_reads ((binds_apply_iff hnode).2 (.inl hsource.symm))
    have hright : right.read v w = r.eval inputs := ihr fun source hsource =>
      hid.of_reads ((binds_apply_iff hnode).2 (.inr hsource.symm))
    rw [Expression.eval, ← hleft, ← hright]
    exact Node.binary_of_updates hnode (hupdates id hid)

end Patch

/-! ## Engines -/

namespace Engine

open Patch

variable {patch : Patch} {roots : List OutputRef} {initial : List Binary32}
  {terms : List (OutputRef × Expression)} {r : Resolution} {plan : Plan}

/-- An engine in use holds constants and what the host inputs are. -/
theorem Running.tracks_run (h : Plan.Compiled patch roots r plan)
    (hholds : patch.Holds initial terms) {engine : Engine} (hrun : Running plan r engine)
    {inputs : Inputs} (htracks : patch.Tracks roots inputs engine.valuation)
    (script : List Command) :
    patch.Tracks roots (script.foldl (Inputs.perform initial) inputs)
      (engine.run script).valuation := by
  induction script generalizing engine inputs with
  | nil => exact htracks
  | cons command script ih =>
    exact ih (hrun.perform h command) (hholds.tracks_of_performs htracks (hrun.performs h command))

/-- A patch that has been made by calls that write expressions down compiles for any of the
    outputs that the calls have given, and whatever the host did before, after a tick each
    root has the value of its expression. -/
theorem sample?_eq_eval (h : Expresses patch initial terms) (hne : roots ≠ [])
    (hroots : ∀ root ∈ roots, ∃ e, (root, e) ∈ terms) :
    ∃ engine, ofPatch patch roots = .ok engine ∧
      ∀ script globals i root e, roots[i]? = some root → (root, e) ∈ terms →
        ((engine.run script).advance globals).sample? i =
          some (e.eval (Inputs.run initial script)) := by
  have hholds := h.holds
  have hp : patch.Resolvable roots := resolvable_of_represents hne fun root hroot =>
    (hroots root hroot).imp fun e hmem => hholds.represents root e hmem
  obtain ⟨r, hr⟩ := Resolution.exists_ofPatch_eq_ok hp
  obtain ⟨plan, hplan⟩ := Plan.exists_compile_eq_ok hr
  obtain ⟨r, hc⟩ := Plan.compile_eq_ok hplan
  refine ⟨ofPlan plan, by rw [ofPatch, hplan]; rfl, fun script globals i root e hroot hmem => ?_⟩
  have hrun := (running_ofPlan hc {}).run hc script
  have htracks := (running_ofPlan hc {}).tracks_run hc hholds
    (hholds.tracks_initialWord (agreeOn_initialWord hc {})) script
  have hreach : patch.Reachable roots root.node := .root (List.mem_of_getElem? hroot)
  have hread := (hholds.represents root e hmem).read_eq (by rintro _ ⟨⟩; exact hreach) htracks
    (hrun.performs hc (.advance globals))
  rw [Inputs.run, ← hread]
  exact (hrun.perform hc (.advance globals)).sample?_of_root hc hroot

/-- The square and the sum in it, after the host has set the input to three. -/
theorem sample?_eq_eval_squared : Expresses squared [0] squaredTerms ∧ ∃ engine,
    ofPatch .squared [⟨⟨2⟩, 0⟩, ⟨⟨1⟩, 0⟩] = .ok engine ∧
    let engine := (engine.run [.advance ⟨1⟩, .setInput ⟨0⟩ 3]).advance ⟨1⟩
    engine.sample? 0 = some 16 ∧ engine.sample? 1 = some 4 := by
  have hroots : ([⟨⟨2⟩, 0⟩, ⟨⟨1⟩, 0⟩] : List OutputRef) ≠ [] := nofun
  obtain ⟨engine, hengine, heval⟩ :=
    sample?_eq_eval expresses_squared hroots (by simp [squaredTerms])
  have hvalues := heval [.advance ⟨1⟩, .setInput ⟨0⟩ 3] ⟨1⟩
  have hsquare := hvalues 0 _ _ rfl List.mem_cons_self
  have hsum := hvalues 1 _ _ rfl (List.mem_cons_of_mem _ List.mem_cons_self)
  exact ⟨expresses_squared, engine, hengine, hsquare.trans (congrArg some (by decide +kernel)),
    hsum.trans (congrArg some (by decide +kernel))⟩

end Engine

end SignalGraph
