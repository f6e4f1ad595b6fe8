import SignalGraph.Proofs.Patch.Addition
import SignalGraph.Proofs.Resolution.Dependency

/-!
# Patches for expressions

Host inputs, constants, sums, differences and products of what has been made before: calls
like these write down expressions, in which parts may be shared (`Patch.Expresses`). Each
output that they give can be read back from the patch as the expression that it stands for
(`Patch.Represents`), however the patch is extended.

A patch that represents the expressions of its roots can be resolved
(`Patch.resolvable_of_represents`). It has no room for circles, as an expression is of
finite depth.
-/

namespace SignalGraph

/-- The operations of arithmetic. -/
inductive Operation where
  | sum
  | difference
  | product
deriving DecidableEq

namespace Operation

/-- What an operation makes of two words. -/
def apply : Operation → Binary32 → Binary32 → Binary32
  | sum => (· + ·)
  | difference => (· - ·)
  | product => (· * ·)

/-- The call that adds a node for an operation. -/
def call : Operation → Binding → Binding → Edit GraphError OutputRef
  | sum => Patch.sum
  | difference => Patch.difference
  | product => Patch.product

/-- The unit for an operation. -/
def unit : Operation → String
  | sum => "add"
  | difference => "subtract"
  | product => "multiply"

/-- The node for an operation. -/
def node (op : Operation) (left right : Binding) : Node := .binary op.unit op.apply left right

theorem run_call (op : Operation) (left right : Binding) (patch : Patch) :
    (op.call left right).run patch =
      .ok ((⟨patch.nodes.size⟩ : NodeId).output 0) (patch.push (op.node left right)) := by
  cases op <;> exact Patch.run_binary ..

end Operation

/-- An expression over the host inputs. -/
inductive Expression where
  /-- A word. -/
  | number (value : Binary32)
  /-- A host input. -/
  | input (id : ExternalId)
  /-- An operation on two expressions. -/
  | apply (op : Operation) (left right : Expression)

/-- The value of an expression, for given values of the host inputs. -/
def Expression.eval (inputs : ExternalId → Binary32) : Expression → Binary32
  | number value => value
  | input id => inputs id
  | apply op left right => op.apply (left.eval inputs) (right.eval inputs)

namespace Patch

open Relation

variable {patch patch' : Patch} {initial : List Binary32}
  {terms : List (OutputRef × Expression)} {b left right : Binding} {e l r : Expression}
  {op : Operation} {id : NodeId} {source part output : OutputRef} {word : Binary32}
  {unit : String}

/-! ## Writing expressions down -/

/-- The binding stands for an expression: a word, or one of the outputs given so far. -/
inductive Stands (terms : List (OutputRef × Expression)) : Binding → Expression → Prop
  | constant (value : Binary32) : Stands terms (.constant value) (.number value)
  | output {source : OutputRef} {e : Expression} : (source, e) ∈ terms →
      Stands terms (.output source) e

/-- The patch has been made by calls that write expressions down, with host inputs that start
    from the words `initial`. The calls have given the outputs of `terms`, each for an
    expression, the last one first. -/
inductive Expresses : Patch → List Binary32 → List (OutputRef × Expression) → Prop
  | empty : Expresses {} [] []
  | input {patch patch' : Patch} {initial : List Binary32}
      {terms : List (OutputRef × Expression)} {word : Binary32} {id : ExternalId}
      {output : OutputRef} : Expresses patch initial terms →
      (external word).run patch = .ok (id, output) patch' →
      Expresses patch' (initial ++ [word]) ((output, .input id) :: terms)
  | number {patch patch' : Patch} {initial : List Binary32}
      {terms : List (OutputRef × Expression)} {word : Binary32} {output : OutputRef} :
      Expresses patch initial terms → (constant word).run patch = .ok output patch' →
      Expresses patch' initial ((output, .number word) :: terms)
  | apply {patch patch' : Patch} {initial : List Binary32}
      {terms : List (OutputRef × Expression)} (op : Operation) {left right : Binding}
      {l r : Expression} {output : OutputRef} : Expresses patch initial terms →
      Stands terms left l → Stands terms right r →
      (op.call left right).run patch = .ok output patch' →
      Expresses patch' initial ((output, .apply op l r) :: terms)

/-! ## Reading them back -/

/-- What the binding reads is the expression, as the nodes of the patch show. -/
inductive Represents (patch : Patch) : Binding → Expression → Prop
  | word (value : Binary32) : Represents patch (.constant value) (.number value)
  | number {id : NodeId} {value : Binary32} : patch.node? id = some (.constant value) →
      Represents patch (.output (id.output 0)) (.number value)
  | input {id : NodeId} {i : ExternalId} {word : Binary32} :
      patch.externals[i.index]? = some id → patch.node? id = some (.external word) →
      Represents patch (.output (id.output 0)) (.input i)
  | apply {id : NodeId} {op : Operation} {left right : Binding} {l r : Expression} :
      patch.node? id = some (op.node left right) → Represents patch left l →
      Represents patch right r → Represents patch (.output (id.output 0)) (.apply op l r)

/-- What has been written down stays. -/
theorem Represents.extend (h : patch.Represents b e) (hext : patch.Extends patch') :
    patch'.Represents b e := by
  induction h with
  | word value => exact .word value
  | number hnode => exact .number (hext.node?_eq _ _ hnode)
  | input hid hnode => exact .input (hext.external_eq _ _ hid) (hext.node?_eq _ _ hnode)
  | apply hnode _ _ ihl ihr => exact .apply (hext.node?_eq _ _ hnode) ihl ihr

/-- All expressions can be read back, and host inputs are different nodes that start from
    the given words. -/
structure Holds (patch : Patch) (initial : List Binary32)
    (terms : List (OutputRef × Expression)) : Prop where
  represents : ∀ output e, (output, e) ∈ terms → patch.Represents (.output output) e
  externals_size : patch.externals.size = initial.length
  external_eq : ∀ (i : Nat) id, patch.externals[i]? = some id →
    ∃ word, initial[i]? = some word ∧ patch.node? id = some (.external word)
  external_inj : ∀ (i j : Nat) id, patch.externals[i]? = some id →
    patch.externals[j]? = some id → i = j

theorem Holds.stands (h : patch.Holds initial terms) (hb : Stands terms b e) :
    patch.Represents b e := by
  cases hb with
  | constant value => exact .word value
  | output hmem => exact h.represents _ _ hmem

theorem Holds.cons (h : patch.Holds initial terms) (hext : patch.Extends patch')
    (hexternals : patch'.externals = patch.externals)
    (hnew : patch'.Represents (.output output) e) :
    patch'.Holds initial ((output, e) :: terms) where
  represents output' e' hmem := by
    rcases List.mem_cons.1 hmem with heq | hmem
    · obtain ⟨rfl, rfl⟩ := Prod.mk.inj heq
      exact hnew
    · exact (h.represents _ _ hmem).extend hext
  externals_size := hexternals ▸ h.externals_size
  external_eq i id hid := (h.external_eq i id (hexternals ▸ hid)).imp fun _ hword =>
    ⟨hword.1, hext.node?_eq _ _ hword.2⟩
  external_inj i j id hi hj := h.external_inj i j id (hexternals ▸ hi) (hexternals ▸ hj)

theorem Holds.withExternal (h : patch.Holds initial terms) (word : Binary32) :
    (patch.withExternal word).Holds (initial ++ [word])
      (((⟨patch.nodes.size⟩ : NodeId).output 0, .input ⟨patch.externals.size⟩) :: terms) := by
  have hext := extends_withExternal patch word
  have hnew : (patch.withExternal word).externals[patch.externals.size]? =
      some ⟨patch.nodes.size⟩ := getElem?_externals_withExternal.trans (if_pos rfl)
  -- The node is not one of the earlier host inputs, which are nodes of the patch.
  have hfresh : ∀ i : Nat, patch.externals[i]? ≠ some ⟨patch.nodes.size⟩ := by
    intro i hi
    obtain ⟨_, -, hnode⟩ := h.external_eq i _ hi
    exact Nat.lt_irrefl _ (Array.getElem?_eq_some_iff.1 hnode).1
  refine ⟨fun output e hmem => ?_, ?_, fun i id hi => ?_,
    external_inj_withExternal h.external_inj hfresh⟩
  · rcases List.mem_cons.1 hmem with heq | hmem
    · cases heq
      exact .input hnew (node?_push_self ..)
    · exact (h.represents _ _ hmem).extend hext
  · simp [Patch.withExternal, h.externals_size]
  · rw [getElem?_externals_withExternal] at hi
    split at hi
    · next heq =>
      cases hi
      exact ⟨word, by simp [heq, h.externals_size], node?_push_self ..⟩
    · obtain ⟨word', hword', hnode⟩ := h.external_eq i id hi
      have hlt : i < initial.length := (List.getElem?_eq_some_iff.1 hword').1
      exact ⟨word', (List.getElem?_append_left hlt).trans hword', hext.node?_eq _ _ hnode⟩

/-- What calls write down can be read back. -/
theorem Expresses.holds (h : Expresses patch initial terms) : patch.Holds initial terms := by
  induction h with
  | empty => exact ⟨nofun, rfl, nofun, nofun⟩
  | @input patch _ _ _ word _ _ _ hrun ih =>
    cases (run_external word patch).symm.trans hrun
    exact ih.withExternal word
  | @number patch _ _ _ word _ _ hrun ih =>
    rw [run_constant] at hrun
    split at hrun
    · cases hrun
      exact ih.cons (extends_push patch _) rfl (.number (node?_push_self ..))
    · cases hrun
  | @apply patch _ _ _ op left right _ _ _ _ hleft hright hrun ih =>
    cases (op.run_call left right patch).symm.trans hrun
    have hext := extends_push patch (op.node left right)
    exact ih.cons hext rfl (.apply (node?_push_self ..) ((ih.stands hleft).extend hext)
      ((ih.stands hright).extend hext))

/-- The square of a host input plus one. The sum is shared. -/
def squared : Patch :=
  let sum := (withExternal {} 0).push (Operation.sum.node (.output ⟨⟨0⟩, 0⟩) (.constant 1))
  sum.push (Operation.product.node (.output ⟨⟨1⟩, 0⟩) (.output ⟨⟨1⟩, 0⟩))

/-- What the calls for the square have given. -/
def squaredTerms : List (OutputRef × Expression) :=
  let sum : Expression := .apply .sum (.input ⟨0⟩) (.number 1)
  [(⟨⟨2⟩, 0⟩, .apply .product sum sum), (⟨⟨1⟩, 0⟩, sum), (⟨⟨0⟩, 0⟩, .input ⟨0⟩)]

theorem expresses_squared : Expresses squared [0] squaredTerms := by
  have hinput : Expresses (withExternal {} 0) [0] [(⟨⟨0⟩, 0⟩, .input ⟨0⟩)] :=
    .input .empty (run_external 0 {})
  have hsum := hinput.apply .sum (.output List.mem_cons_self) (.constant 1)
    (Operation.run_call ..)
  exact hsum.apply .product (.output List.mem_cons_self) (.output List.mem_cons_self)
    (Operation.run_call ..)

/-! ## Resolving them -/

/-- What represents an expression is the only output of a node that holds a value, or that
    applies an operation to what represents the parts. -/
theorem Represents.node_cases (h : patch.Represents (.output source) e) :
    source = source.node.output 0 ∧
      ((∃ unit word, patch.node? source.node = some (.holder unit word)) ∨
        ∃ (op : Operation) (left right : Binding) (l r : Expression), e = .apply op l r ∧
          patch.node? source.node = some (op.node left right) ∧
          patch.Represents left l ∧ patch.Represents right r) := by
  cases h with
  | number hnode => exact ⟨rfl, .inl ⟨"constant", _, hnode⟩⟩
  | input _ hnode => exact ⟨rfl, .inl ⟨"external", _, hnode⟩⟩
  | apply hnode hl hr => exact ⟨rfl, .inr ⟨_, _, _, _, _, rfl, hnode, hl, hr⟩⟩

/-- A node that holds a value reads nothing. -/
theorem not_binds_holder (hnode : patch.node? id = some (.holder unit word)) :
    ¬patch.Binds id b := by
  rintro ⟨node, hnode', hb⟩
  cases hnode.symm.trans hnode'
  cases hb

theorem binds_apply_iff (hnode : patch.node? id = some (op.node left right)) :
    patch.Binds id b ↔ b = left ∨ b = right := by
  have hmem : b ∈ (op.node left right).inputs.toList ↔ b ∈ [left, right] := Iff.rfl
  rw [← List.mem_pair, ← hmem]
  constructor
  · rintro ⟨node, hnode', hb⟩
    cases hnode.symm.trans hnode'
    exact hb
  · exact fun hb => ⟨_, hnode, hb⟩

/-- No part of an expression is of the previous tick. -/
theorem Represents.eq_output (h : patch.Represents b e) (hb : b.source? = some source) :
    b = .output source := by
  cases h <;> cases hb <;> rfl

/-- What a node refers to represents a part of the expression that the node represents. -/
theorem Represents.of_binds (h : patch.Represents (.output source) e)
    (hb : patch.Binds source.node b) (hpart : b.source? = some part) :
    ∃ e', patch.Represents (.output part) e' ∧ sizeOf e' < sizeOf e := by
  obtain ⟨-, ⟨unit, word, hnode⟩ | ⟨op, left, right, l, r, rfl, hnode, hl, hr⟩⟩ := h.node_cases
  · exact absurd hb (not_binds_holder hnode)
  · rcases (binds_apply_iff hnode).1 hb with rfl | rfl
    · exact ⟨l, hl.eq_output hpart ▸ hl, by simp +arith⟩
    · exact ⟨r, hr.eq_output hpart ▸ hr, by simp +arith⟩

/-- There is no circle below an expression, as one would be below a part of it. -/
theorem Represents.not_transGen {source : OutputRef} {e : Expression}
    (h : patch.Represents (.output source) e) :
    ¬TransGen patch.Awaits source.node source.node := by
  intro hcircle
  obtain ⟨_, ⟨part, hreads, rfl⟩, hback⟩ := TransGen.head'_iff.1 hcircle
  obtain ⟨e', hpart, hlt⟩ := h.of_binds hreads rfl
  exact hpart.not_transGen (.tail' hback ⟨part, hreads, rfl⟩)
termination_by sizeOf e

/-- All that contributes to expressions represents an expression. -/
theorem represents_of_reachable {roots : List OutputRef}
    (hroots : ∀ root ∈ roots, ∃ e, patch.Represents (.output root) e)
    (hid : patch.Reachable roots id) : ∃ e, patch.Represents (.output (id.output 0)) e := by
  induction hid with
  | @root output hroot =>
    obtain ⟨e, h⟩ := hroots output hroot
    exact ⟨e, h.node_cases.1 ▸ h⟩
  | @source id b output _ hb hsource ih =>
    obtain ⟨e, h⟩ := ih
    obtain ⟨e', hpart, -⟩ := h.of_binds hb hsource
    exact ⟨e', hpart.node_cases.1 ▸ hpart⟩

theorem Represents.containsOutput (h : patch.Represents (.output source) e) :
    patch.containsOutput source := by
  obtain ⟨hsource, hnode⟩ := h.node_cases
  rw [containsOutput_iff, hsource]
  rcases hnode with ⟨unit, word, hnode⟩ | ⟨op, left, right, l, r, -, hnode, -⟩
  · exact ⟨_, hnode, Nat.zero_lt_one⟩
  · exact ⟨_, hnode, Nat.zero_lt_one⟩

/-- Expressions can be resolved. -/
theorem resolvable_of_represents {roots : List OutputRef} (hne : roots ≠ [])
    (hroots : ∀ root ∈ roots, ∃ e, patch.Represents (.output root) e) :
    patch.Resolvable roots where
  roots_ne_nil := hne
  root_exists root hroot := by
    obtain ⟨e, h⟩ := hroots root hroot
    exact h.containsOutput
  source_exists id hid b source hb hsource := by
    obtain ⟨e, h⟩ := represents_of_reachable hroots hid
    obtain ⟨e', hpart, -⟩ := h.of_binds hb hsource
    exact hpart.containsOutput
  acyclic id hid := by
    obtain ⟨e, h⟩ := represents_of_reachable hroots hid
    exact h.not_transGen

end Patch

end SignalGraph
