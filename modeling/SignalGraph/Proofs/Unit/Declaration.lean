import Mathlib.Data.List.Forall2
import Mathlib.Data.List.Nodup
import Mathlib.Data.Option.Basic
import SignalGraph.Unit.Schema

/-!
# Declarations that are accepted

`Schema.ofDeclaration` looks at a declaration stage by stage and stops at the first fault.
What it looks for can be said without stages (`Declaration.WellFormed`), and so can what
each fault says about a declaration (`Declaration.Has`). A declaration that is in order has
none of the faults, so it is enough to follow the stages once: whatever comes out of them is
true (`Schema.ofDeclaration_isOk_iff`).

Names stand for arguments through a cascade of searches. As long as no two ports share a
name, and none has the name of a global, the search for the name of an argument finds that
argument and no other one (`Declaration.argument?_name`). This is what a port that is not
bound, and an argument that is bound twice, hang on.
-/

namespace SignalGraph

theorem Global.ofName?_eq_some_iff {name : String} {g : Global} :
    ofName? name = some g ↔ g.name = name := by
  cases g
  by_cases h : deltaTime.name = name <;> simp [ofName?, all, h]

theorem Global.isSome_ofName?_iff {name : String} :
    (ofName? name).isSome ↔ ∃ g : Global, g.name = name := by
  simp [Option.isSome_iff_exists, ofName?_eq_some_iff]

/-- The name of an argument of a unit with these ports. -/
def Argument.name (inputs : List InputPort) (outputs : List OutputPort)
    (states : List StateCell) : Argument inputs.length outputs.length states.length → String
  | .input i => (inputs.get i).name
  | .output i => (outputs.get i).name
  | .state i => (states.get i).name
  | .global which => which.name

namespace Declaration

variable {d : Declaration}

/-! ## What should be -/

/-- The names of the arguments that the update asks for, if there is one. -/
def argumentNames (d : Declaration) : List String := (d.update.map (·.arguments)).getD []

/-- Nothing is wrong with the declaration. -/
structure WellFormed (d : Declaration) : Prop where
  update_isSome : d.update.isSome
  portNames_nodup : d.portNames.Nodup
  portName_ne : ∀ name ∈ d.portNames, ∀ g : Global, g.name ≠ name
  input_float : ∀ p ∈ d.inputs, p.type = .float
  output_float : ∀ p ∈ d.outputs, p.type = .float
  state_inhabited : ∀ cell ∈ d.states, cell.type ≠ .enum 0
  default_fits : ∀ cell ∈ d.states, cell.default.fits cell.type
  argumentNames_length : d.argumentNames.length ≤ maxArguments
  argumentNames_nodup : d.argumentNames.Nodup
  argumentName_known : ∀ name ∈ d.argumentNames, name ∈ d.portNames ∨ ∃ g : Global, g.name = name
  port_bound : ∀ name ∈ d.portNames, name ∈ d.argumentNames

/-- What a fault says about the declaration. -/
def Has (d : Declaration) : SchemaError → Prop
  | .missingUpdate unit => unit = d.unit ∧ d.update = none
  | .unknownPort unit argument => unit = d.unit ∧ argument ∈ d.argumentNames ∧
      argument ∉ d.portNames ∧ ∀ g : Global, g.name ≠ argument
  | .invalidValueType unit port type => unit = d.unit ∧
      (type ≠ .float ∧ ((∃ p ∈ d.inputs, p.name = port ∧ p.type = type) ∨
          ∃ p ∈ d.outputs, p.name = port ∧ p.type = type) ∨
        type = .enum 0 ∧ ∃ cell ∈ d.states, cell.name = port ∧ cell.type = type)
  | .invalidDefault unit port => unit = d.unit ∧
      ∃ cell ∈ d.states, cell.name = port ∧ cell.default.fits cell.type = false
  | .duplicatePort unit port => unit = d.unit ∧ port ∈ d.portNames ∧
      (1 < d.portNames.count port ∨ ∃ g : Global, g.name = port)
  | .duplicateArgument unit argument => unit = d.unit ∧ 1 < d.argumentNames.count argument
  | .unboundPort unit port => unit = d.unit ∧ port ∈ d.portNames ∧ port ∉ d.argumentNames
  | .tooManyArguments unit count => unit = d.unit ∧ count = d.argumentNames.length ∧
      maxArguments < count

/-- A declaration that is in order has no fault. -/
theorem WellFormed.not_has (h : d.WellFormed) (fault : SchemaError) : ¬d.Has fault := by
  cases fault with
  | missingUpdate unit =>
    rintro ⟨-, hnone⟩
    simpa [hnone] using h.update_isSome
  | unknownPort unit argument =>
    rintro ⟨-, hmem, hport, hglobal⟩
    rcases h.argumentName_known argument hmem with hknown | ⟨g, hg⟩
    · exact hport hknown
    · exact hglobal g hg
  | invalidValueType unit port type =>
    rintro ⟨-, ⟨htype, ⟨p, hp, -, rfl⟩ | ⟨p, hp, -, rfl⟩⟩ | ⟨htype, cell, hcell, -, rfl⟩⟩
    · exact htype (h.input_float p hp)
    · exact htype (h.output_float p hp)
    · exact h.state_inhabited cell hcell htype
  | invalidDefault unit port =>
    rintro ⟨-, cell, hcell, -, hfits⟩
    exact absurd (h.default_fits cell hcell) (by simp [hfits])
  | duplicatePort unit port =>
    rintro ⟨-, hmem, hcount | ⟨g, hg⟩⟩
    · exact absurd (List.nodup_iff_count_le_one.1 h.portNames_nodup port) (by omega)
    · exact h.portName_ne port hmem g hg
  | duplicateArgument unit argument =>
    rintro ⟨-, hcount⟩
    exact absurd (List.nodup_iff_count_le_one.1 h.argumentNames_nodup argument) (by omega)
  | unboundPort unit port =>
    rintro ⟨-, hport, hnot⟩
    exact hnot (h.port_bound port hport)
  | tooManyArguments unit count =>
    rintro ⟨-, rfl, hlt⟩
    exact absurd h.argumentNames_length (by omega)

/-! ## Names -/

theorem mem_portNames_iff {name : String} : name ∈ d.portNames ↔
    (∃ p ∈ d.inputs, p.name = name) ∨ (∃ p ∈ d.outputs, p.name = name) ∨
      ∃ cell ∈ d.states, cell.name = name := by
  simp [portNames]

/-- The name of an argument is that of a port, unless the argument is a global. -/
theorem name_mem_portNames {a : d.Argument} (ha : ∀ g, a ≠ .global g) :
    a.name d.inputs d.outputs d.states ∈ d.portNames := by
  rw [mem_portNames_iff]
  cases a with
  | input i => exact .inl ⟨_, List.get_mem d.inputs i, rfl⟩
  | output i => exact .inr (.inl ⟨_, List.get_mem d.outputs i, rfl⟩)
  | state i => exact .inr (.inr ⟨_, List.get_mem d.states i, rfl⟩)
  | global which => exact absurd rfl (ha which)

theorem exists_of_mem_portNames {name : String} (h : name ∈ d.portNames) :
    ∃ a : d.Argument, (∀ g, a ≠ .global g) ∧ a.name d.inputs d.outputs d.states = name := by
  rcases mem_portNames_iff.1 h with ⟨p, hp, rfl⟩ | ⟨p, hp, rfl⟩ | ⟨cell, hcell, rfl⟩
  · obtain ⟨i, rfl⟩ := List.get_of_mem hp
    exact ⟨.input i, by simp, rfl⟩
  · obtain ⟨i, rfl⟩ := List.get_of_mem hp
    exact ⟨.output i, by simp, rfl⟩
  · obtain ⟨i, rfl⟩ := List.get_of_mem hcell
    exact ⟨.state i, by simp, rfl⟩

/-- If a name is refused, it is in the list twice or is that of a global. -/
theorem of_firstRepeated?_eq_some {seen names : List String} {name : String}
    (h : firstRepeated? seen names = some name) :
    name ∈ names ∧ (1 < (seen ++ names).count name ∨ ∃ g : Global, g.name = name) := by
  induction names generalizing seen with
  | nil => simp [firstRepeated?] at h
  | cons first names ih =>
    rw [firstRepeated?] at h
    split at h
    · next hfirst =>
      obtain rfl := Option.some.inj h
      refine ⟨List.mem_cons_self, hfirst.imp (fun hseen => ?_) Global.isSome_ofName?_iff.1⟩
      have hpos := List.count_pos_iff.2 hseen
      rw [List.count_append, List.count_cons_self]
      omega
    · obtain ⟨hmem, hrest⟩ := ih h
      refine ⟨List.mem_cons_of_mem first hmem, hrest.imp_left fun hcount => ?_⟩
      rwa [List.perm_middle.count_eq]

theorem of_firstRepeated?_eq_none {seen names : List String}
    (h : firstRepeated? seen names = none) :
    names.Nodup ∧ ∀ name ∈ names, name ∉ seen ∧ ∀ g : Global, g.name ≠ name := by
  induction names generalizing seen with
  | nil => simp
  | cons first names ih =>
    rw [firstRepeated?] at h
    split at h
    · cases h
    · next hfirst =>
      rw [not_or, Global.isSome_ofName?_iff, not_exists] at hfirst
      obtain ⟨hnodup, hnames⟩ := ih h
      refine ⟨List.nodup_cons.2 ⟨fun hmem => ?_, hnodup⟩, fun name hname => ?_⟩
      · exact (hnames first hmem).1 List.mem_cons_self
      · rcases List.mem_cons.1 hname with rfl | hname
        · exact hfirst
        · exact ⟨fun hseen => (hnames name hname).1 (List.mem_cons_of_mem first hseen),
            (hnames name hname).2⟩

/-! ## Names stand for arguments -/

theorem argument?_eq_some_iff {name : String} {a : d.Argument} : d.argument? name = some a ↔
    (∃ g, Global.ofName? name = some g ∧ .global g = a) ∨
    Global.ofName? name = none ∧
      ((∃ i, d.inputs.findFinIdx? (·.name = name) = some i ∧ .input i = a) ∨
      d.inputs.findFinIdx? (·.name = name) = none ∧
        ((∃ i, d.outputs.findFinIdx? (·.name = name) = some i ∧ .output i = a) ∨
        d.outputs.findFinIdx? (·.name = name) = none ∧
          ∃ i, d.states.findFinIdx? (·.name = name) = some i ∧ .state i = a)) := by
  simp only [argument?, Option.orElse_eq_orElse, Option.orElse_eq_or, Option.or_eq_some_iff,
    Option.map_eq_some_iff, Option.map_eq_none_iff]

theorem argument?_eq_none_iff {name : String} : d.argument? name = none ↔
    name ∉ d.portNames ∧ ∀ g : Global, g.name ≠ name := by
  have hglobal : Global.ofName? name = none ↔ ∀ g : Global, g.name ≠ name := by
    rw [← Option.not_isSome_iff_eq_none, Global.isSome_ofName?_iff, not_exists]
  simp only [argument?, Option.orElse_eq_orElse, Option.orElse_eq_or, Option.or_eq_none_iff,
    Option.map_eq_none_iff, hglobal, List.findFinIdx?_eq_none_iff, decide_eq_true_eq,
    mem_portNames_iff, not_or, not_exists, not_and]
  exact and_comm

/-- The argument of a name has that name. -/
theorem name_of_argument?_eq_some {name : String} {a : d.Argument}
    (h : d.argument? name = some a) : a.name d.inputs d.outputs d.states = name := by
  rcases argument?_eq_some_iff.1 h with ⟨g, hg, rfl⟩ | ⟨-, ⟨i, hi, rfl⟩ | ⟨-, ⟨i, hi, rfl⟩ |
    ⟨-, i, hi, rfl⟩⟩⟩
  · exact Global.ofName?_eq_some_iff.1 hg
  all_goals exact of_decide_eq_true (List.findFinIdx?_eq_some_iff.1 hi).1

/-- Where names are distinct, the search for one ends where it is. -/
theorem findFinIdx?_get {α : Type} {f : α → String} {l : List α} (h : (l.map f).Nodup)
    (i : Fin l.length) : l.findFinIdx? (f · = f (l.get i)) = some i := by
  refine List.findFinIdx?_eq_some_iff.2 ⟨decide_eq_true rfl, fun j hji hj => ?_⟩
  have hget : l.get j = l.get i :=
    List.inj_on_of_nodup_map h (List.get_mem l j) (List.get_mem l i) (of_decide_eq_true hj)
  exact Fin.ne_of_lt hji (List.nodup_iff_injective_get.1 (.of_map f h) hget)

theorem findFinIdx?_eq_none {α : Type} {f : α → String} {l : List α} {name : String}
    (h : name ∉ l.map f) : l.findFinIdx? (f · = name) = none :=
  List.findFinIdx?_eq_none_iff.2 fun x hx hname =>
    h (List.mem_map.2 ⟨x, hx, of_decide_eq_true hname⟩)

/-- If no two ports share a name, and none has the name of a global, then the name of an
    argument stands for this argument. -/
theorem argument?_name (hnodup : d.portNames.Nodup)
    (hglobal : ∀ name ∈ d.portNames, ∀ g : Global, g.name ≠ name) (a : d.Argument) :
    d.argument? (a.name d.inputs d.outputs d.states) = some a := by
  obtain ⟨hports, hstates, hdisjoint⟩ := List.nodup_append.1 hnodup
  obtain ⟨hinputs, houtputs, hdisjoint'⟩ := List.nodup_append.1 hports
  have hport (ha : ∀ g, a ≠ .global g) :
      Global.ofName? (a.name d.inputs d.outputs d.states) = none := by
    rw [← Option.not_isSome_iff_eq_none, Global.isSome_ofName?_iff, not_exists]
    exact hglobal _ (name_mem_portNames ha)
  rw [argument?_eq_some_iff]
  cases a with
  | global g => exact .inl ⟨g, Global.ofName?_eq_some_iff.2 rfl, rfl⟩
  | input i => exact .inr ⟨hport (by simp), .inl ⟨i, findFinIdx?_get hinputs i, rfl⟩⟩
  | output i =>
    have hmem : (d.outputs.get i).name ∈ d.outputs.map (·.name) :=
      List.mem_map_of_mem (List.get_mem d.outputs i)
    refine .inr ⟨hport (by simp), .inr ⟨findFinIdx?_eq_none fun h => ?_, .inl ?_⟩⟩
    · exact hdisjoint' _ h _ hmem rfl
    · exact ⟨i, findFinIdx?_get houtputs i, rfl⟩
  | state i =>
    have hmem : (d.states.get i).name ∈ d.states.map (·.name) :=
      List.mem_map_of_mem (List.get_mem d.states i)
    refine .inr ⟨hport (by simp), .inr ⟨findFinIdx?_eq_none fun h => ?_, .inr
      ⟨findFinIdx?_eq_none fun h => ?_, i, findFinIdx?_get hstates i, rfl⟩⟩⟩
    · exact hdisjoint _ (List.mem_append_left _ h) _ hmem rfl
    · exact hdisjoint _ (List.mem_append_right _ h) _ hmem rfl

/-- Names of different arguments are different. -/
theorem nodup_of_map_argument? {names : List String} {arguments : List d.Argument}
    (h : names.map d.argument? = arguments.map some) (hnodup : arguments.Nodup) :
    names.Nodup :=
  .of_map d.argument? (h ▸ hnodup.map (Option.some_injective _))

/-- Arguments have the names that stand for them. -/
theorem map_name_of_map_argument? {names : List String} {arguments : List d.Argument}
    (h : names.map d.argument? = arguments.map some) :
    arguments.map (Argument.name d.inputs d.outputs d.states) = names := by
  rw [← List.forall₂_eq_eq_eq, List.forall₂_map_left_iff, List.forall₂_map_right_iff] at h
  induction h with
  | nil => rfl
  | cons ha _ ih => rw [List.map_cons, name_of_argument?_eq_some ha, ih]

/-! ## Binding -/

/-- The arguments bound are those that the names stand for, each once. -/
theorem of_bindArguments_eq_ok {bound arguments : List d.Argument} {names : List String}
    (h : d.bindArguments bound names = .ok arguments) :
    ∃ rest, arguments = bound ++ rest ∧ names.map d.argument? = rest.map some := by
  induction names generalizing bound with
  | nil =>
    obtain rfl : bound = arguments := by simpa [bindArguments] using h
    exact ⟨[], by simp⟩
  | cons name names ih =>
    rw [bindArguments] at h
    split at h
    · cases h
    · next a ha =>
      split at h
      · cases h
      · obtain ⟨rest, rfl, hrest⟩ := ih h
        exact ⟨a :: rest, by simp, by simp [ha, hrest]⟩

/-- A name that is refused stands for nothing, or has been asked for before. -/
theorem of_bindArguments_eq_error {bound : List d.Argument} {earlier names : List String}
    {fault : SchemaError} (hbound : earlier.map d.argument? = bound.map some)
    (h : d.bindArguments bound names = .error fault) :
    (∃ name ∈ names, d.argument? name = none ∧ fault = .unknownPort d.unit name) ∨
      ∃ name, 1 < (earlier ++ names).count name ∧ fault = .duplicateArgument d.unit name := by
  induction names generalizing bound earlier with
  | nil => simp [bindArguments] at h
  | cons name names ih =>
    rw [bindArguments] at h
    split at h
    · next hnone => exact .inl ⟨name, List.mem_cons_self, hnone, (Except.error.inj h).symm⟩
    · next a ha =>
      split at h
      · next hmem =>
        refine .inr ⟨name, ?_, (Except.error.inj h).symm⟩
        -- Two names that stand for one argument are the same.
        obtain ⟨name', hname', ha'⟩ := List.mem_map.1 (hbound ▸ List.mem_map_of_mem hmem)
        obtain rfl : name' = name :=
          (name_of_argument?_eq_some ha').symm.trans (name_of_argument?_eq_some ha)
        have hpos := List.count_pos_iff.2 hname'
        rw [List.count_append, List.count_cons_self]
        omega
      · have hbound' : (earlier ++ [name]).map d.argument? = (bound ++ [a]).map some := by
          simp [hbound, ha]
        rcases ih hbound' h with ⟨name', hname', hfault⟩ | ⟨name', hcount, hfault⟩
        · exact .inl ⟨name', List.mem_cons_of_mem name hname', hfault⟩
        · exact .inr ⟨name', by simpa using hcount, hfault⟩

/-- A port that is not bound is none of the arguments. -/
theorem exists_of_unbound?_eq_some {arguments : List d.Argument} {port : String}
    (h : d.unbound? arguments = some port) :
    ∃ a, a ∉ arguments ∧ (∀ g, a ≠ .global g) ∧ a.name d.inputs d.outputs d.states = port := by
  simp only [unbound?, Option.orElse_eq_orElse, Option.orElse_eq_or, Option.or_eq_some_iff,
    Option.map_eq_some_iff] at h
  rcases h with ⟨i, hi, rfl⟩ | ⟨-, ⟨i, hi, rfl⟩ | ⟨-, i, hi, rfl⟩⟩
  · exact ⟨.input i, by simpa using List.find?_some hi, by simp, rfl⟩
  · exact ⟨.output i, by simpa using List.find?_some hi, by simp, rfl⟩
  · exact ⟨.state i, by simpa using List.find?_some hi, by simp, rfl⟩

/-! ## Faults -/

theorem of_nameFault?_eq_some {fault : SchemaError} (h : d.nameFault? = some fault) :
    d.Has fault := by
  obtain ⟨name, hname, rfl⟩ := Option.map_eq_some_iff.1 h
  exact ⟨rfl, of_firstRepeated?_eq_some hname⟩

theorem of_nameFault?_eq_none (h : d.nameFault? = none) :
    d.portNames.Nodup ∧ ∀ name ∈ d.portNames, ∀ g : Global, g.name ≠ name := by
  obtain ⟨hnodup, hnames⟩ := of_firstRepeated?_eq_none (Option.map_eq_none_iff.1 h)
  exact ⟨hnodup, fun name hname => (hnames name hname).2⟩

theorem of_signalFault?_eq_some {fault : SchemaError} (h : d.signalFault? = some fault) :
    d.Has fault := by
  obtain ⟨signal, hsignal, rfl⟩ := Option.map_eq_some_iff.1 h
  have htype : signal.2 ≠ .float := by simpa using List.find?_some hsignal
  refine ⟨rfl, ?_⟩
  rcases List.mem_append.1 (List.mem_of_find?_eq_some hsignal) with hmem | hmem
  · obtain ⟨p, hp, rfl⟩ := List.mem_map.1 hmem
    exact .inl ⟨htype, .inl ⟨p, hp, rfl, rfl⟩⟩
  · obtain ⟨p, hp, rfl⟩ := List.mem_map.1 hmem
    exact .inl ⟨htype, .inr ⟨p, hp, rfl, rfl⟩⟩

theorem of_signalFault?_eq_none (h : d.signalFault? = none) :
    (∀ p ∈ d.inputs, p.type = .float) ∧ ∀ p ∈ d.outputs, p.type = .float := by
  simpa [signalFault?, signals, or_imp, forall_and] using h

theorem of_stateFault?_eq_some {fault : SchemaError} (h : d.stateFault? = some fault) :
    d.Has fault := by
  obtain ⟨cell, hcell, hfault⟩ := List.exists_of_findSome?_eq_some h
  rw [cellFault?] at hfault
  split at hfault
  · next htype =>
    obtain rfl := Option.some.inj hfault
    exact ⟨rfl, .inr ⟨htype, cell, hcell, rfl, rfl⟩⟩
  · split at hfault
    · cases hfault
    · next hfits =>
      obtain rfl := Option.some.inj hfault
      exact ⟨rfl, cell, hcell, rfl, Bool.eq_false_iff.2 hfits⟩

theorem of_stateFault?_eq_none (h : d.stateFault? = none) :
    ∀ cell ∈ d.states, cell.type ≠ .enum 0 ∧ cell.default.fits cell.type := by
  intro cell hcell
  have hnone := List.findSome?_eq_none_iff.1 h cell hcell
  rw [cellFault?] at hnone
  split at hnone
  · cases hnone
  · next htype =>
    split at hnone
    · next hfits => exact ⟨htype, hfits⟩
    · cases hnone

theorem has_of_fault {fault : SchemaError}
    (h : (d.nameFault? <|> d.signalFault? <|> d.stateFault?) = some fault) : d.Has fault := by
  simp only [Option.orElse_eq_orElse, Option.orElse_eq_or, Option.or_eq_some_iff] at h
  rcases h with h | ⟨-, h | ⟨-, h⟩⟩
  · exact of_nameFault?_eq_some h
  · exact of_signalFault?_eq_some h
  · exact of_stateFault?_eq_some h

/-- Ports are in order if they have none of the first faults. -/
theorem of_fault_eq_none (h : (d.nameFault? <|> d.signalFault? <|> d.stateFault?) = none) :
    (d.portNames.Nodup ∧ ∀ name ∈ d.portNames, ∀ g : Global, g.name ≠ name) ∧
      ((∀ p ∈ d.inputs, p.type = .float) ∧ ∀ p ∈ d.outputs, p.type = .float) ∧
      ∀ cell ∈ d.states, cell.type ≠ .enum 0 ∧ cell.default.fits cell.type := by
  simp only [Option.orElse_eq_orElse, Option.orElse_eq_or, Option.or_eq_none_iff] at h
  exact ⟨of_nameFault?_eq_none h.1, of_signalFault?_eq_none h.2.1, of_stateFault?_eq_none h.2.2⟩

section

variable {update : Update} {arguments : List d.Argument} (hupdate : d.update = some update)
include hupdate

theorem argumentNames_eq : d.argumentNames = update.arguments := by simp [argumentNames, hupdate]

theorem has_of_bindArguments_eq_error {fault : SchemaError}
    (h : d.bindArguments [] update.arguments = .error fault) : d.Has fault := by
  have hnames := argumentNames_eq hupdate
  have hearlier : ([] : List String).map d.argument? = ([] : List d.Argument).map some := rfl
  rcases of_bindArguments_eq_error hearlier h with
    ⟨name, hname, hnone, rfl⟩ | ⟨name, hcount, rfl⟩
  · exact ⟨rfl, hnames ▸ hname, argument?_eq_none_iff.1 hnone⟩
  · exact ⟨rfl, hnames ▸ hcount⟩

/-- The names asked for stand for the arguments, one by one. -/
theorem map_argument?_argumentNames (h : d.bindArguments [] update.arguments = .ok arguments) :
    d.argumentNames.map d.argument? = arguments.map some := by
  obtain ⟨_, rfl, hrest⟩ := of_bindArguments_eq_ok h
  rwa [argumentNames_eq hupdate]

/-- The name of a port that is not bound has not been asked for: it stands for the port, so
    asking for it binds the port. -/
theorem has_unboundPort (hfault : (d.nameFault? <|> d.signalFault? <|> d.stateFault?) = none)
    (hbind : d.bindArguments [] update.arguments = .ok arguments) {port : String}
    (hport : d.unbound? arguments = some port) : d.Has (.unboundPort d.unit port) := by
  obtain ⟨hnodup, hglobal⟩ := (of_fault_eq_none hfault).1
  obtain ⟨a, ha, hne, rfl⟩ := exists_of_unbound?_eq_some hport
  refine ⟨rfl, name_mem_portNames hne, fun hmem => ha ?_⟩
  have hsome := List.mem_map_of_mem (f := d.argument?) hmem
  rw [argument?_name hnodup hglobal, map_argument?_argumentNames hupdate hbind] at hsome
  simpa using hsome

/-- Nothing is wrong with a declaration that has gone through all stages. -/
theorem wellFormed_of_stages (hfault : (d.nameFault? <|> d.signalFault? <|> d.stateFault?) = none)
    (hlength : update.arguments.length ≤ maxArguments)
    (hbind : d.bindArguments [] update.arguments = .ok arguments)
    (hbound : d.unbound? arguments = none) : d.WellFormed := by
  obtain ⟨⟨hnodup, hglobal⟩, ⟨hinputs, houtputs⟩, hstates⟩ := of_fault_eq_none hfault
  have hargs := map_argument?_argumentNames hupdate hbind
  have hdistinct := (d.bindArguments_ok hbind List.nodup_nil).1
  have hmem := d.mem_of_unbound?_eq_none hbound
  constructor
  case update_isSome => simp [hupdate]
  case portNames_nodup => exact hnodup
  case portName_ne => exact hglobal
  case input_float => exact hinputs
  case output_float => exact houtputs
  case state_inhabited => exact fun cell hcell => (hstates cell hcell).1
  case default_fits => exact fun cell hcell => (hstates cell hcell).2
  case argumentNames_length => rwa [argumentNames_eq hupdate]
  case argumentNames_nodup => exact nodup_of_map_argument? hargs hdistinct
  case argumentName_known =>
    intro name hname
    by_contra hunknown
    rw [not_or, not_exists] at hunknown
    have hnone := hargs ▸ List.mem_map_of_mem (f := d.argument?) hname
    simp [argument?_eq_none_iff.2 hunknown] at hnone
  case port_bound =>
    intro name hname
    obtain ⟨a, ha, rfl⟩ := exists_of_mem_portNames hname
    rw [← map_name_of_map_argument? hargs]
    refine List.mem_map_of_mem ?_
    cases a with
    | input i => exact hmem.1 i
    | output i => exact hmem.2.1 i
    | state i => exact hmem.2.2 i
    | global g => exact absurd rfl (ha g)

end

end Declaration

/-! ## Checking -/

namespace Schema

/-- The schema says what the declaration says, and its arguments are those that the names
    of the declaration stand for: each port once, and each global at most once. -/
structure Describes (s : Schema) (d : Declaration) : Prop where
  unit_eq : s.unit = d.unit
  inputs_eq : s.inputs = d.inputs
  outputs_eq : s.outputs = d.outputs
  states_eq : s.states = d.states
  update_eq : d.update.map (·.run) = some s.update
  name_arguments : s.arguments.map (Argument.name s.inputs s.outputs s.states) = d.argumentNames
  count_input : ∀ i, s.arguments.count (.input i) = 1
  count_output : ∀ i, s.arguments.count (.output i) = 1
  count_state : ∀ i, s.arguments.count (.state i) = 1
  count_global : ∀ g, s.arguments.count (.global g) ≤ 1

variable {d : Declaration} {s : Schema}

/-- What the check refuses a declaration for is true of it. -/
theorem has_of_ofDeclaration_eq_error {fault : SchemaError} (h : ofDeclaration d = .error fault) :
    d.Has fault := by
  rw [ofDeclaration] at h
  split at h
  · next hupdate =>
    obtain rfl := Except.error.inj h
    exact ⟨rfl, hupdate⟩
  next update hupdate =>
  split at h
  · next hfault =>
    obtain rfl := Except.error.inj h
    exact Declaration.has_of_fault hfault
  next hfault =>
  split at h
  · split at h
    · next hbind =>
      obtain rfl := Except.error.inj h
      exact Declaration.has_of_bindArguments_eq_error hupdate hbind
    · next hbind =>
      split at h
      · next hport =>
        obtain rfl := Except.error.inj h
        exact Declaration.has_unboundPort hupdate hfault hbind hport
      · cases h
  · next hlength =>
    obtain rfl := Except.error.inj h
    rw [← Declaration.argumentNames_eq hupdate] at hlength ⊢
    exact ⟨rfl, rfl, Nat.not_le.1 hlength⟩

/-- A declaration that the check accepts is in order, and the schema describes it. -/
theorem of_ofDeclaration_eq_ok (h : ofDeclaration d = .ok s) : d.WellFormed ∧ s.Describes d := by
  rw [ofDeclaration] at h
  split at h
  · cases h
  next update hupdate =>
  split at h
  · cases h
  next hfault =>
  split at h
  case isFalse => cases h
  next hlength =>
  split at h
  · cases h
  next arguments hbind =>
  split at h
  · cases h
  next hbound =>
  obtain rfl := Except.ok.inj h
  have hdistinct := (d.bindArguments_ok hbind List.nodup_nil).1
  have hmem := d.mem_of_unbound?_eq_none hbound
  refine ⟨Declaration.wellFormed_of_stages hupdate hfault hlength hbind hbound,
    rfl, rfl, rfl, rfl, by rw [hupdate]; rfl, Declaration.map_name_of_map_argument? <|
      Declaration.map_argument?_argumentNames hupdate hbind, fun i => ?_, fun i => ?_,
    fun i => ?_, fun g => List.nodup_iff_count_le_one.1 hdistinct _⟩
  · exact List.count_eq_one_of_mem hdistinct (hmem.1 i)
  · exact List.count_eq_one_of_mem hdistinct (hmem.2.1 i)
  · exact List.count_eq_one_of_mem hdistinct (hmem.2.2 i)

/-- A declaration is accepted exactly if nothing is wrong with it. Then the schema says the
    same, with the arguments that the names stand for in their places, each port once and
    each global at most once. What a declaration is refused for is true of it. -/
theorem ofDeclaration_isOk_iff (d : Declaration) :
    ((∃ s, ofDeclaration d = .ok s) ↔ d.WellFormed) ∧
    (∀ s, ofDeclaration d = .ok s → s.Describes d) ∧
    ∀ fault, ofDeclaration d = .error fault → d.Has fault := by
  refine ⟨⟨fun ⟨s, hs⟩ => (of_ofDeclaration_eq_ok hs).1, fun hd => ?_⟩,
    fun s hs => (of_ofDeclaration_eq_ok hs).2, fun fault => has_of_ofDeclaration_eq_error⟩
  cases h : ofDeclaration d with
  | ok s => exact ⟨s, rfl⟩
  | error fault => exact absurd (has_of_ofDeclaration_eq_error h) (hd.not_has fault)

end Schema

end SignalGraph
