import SignalGraph.Catalog.Envelope
import SignalGraph.Proofs.Binary.Arithmetic

/-!
# Envelopes in use

An envelope keeps two words from tick to tick, its stage and its level (`Envelope.Cells`), and
all else that it reads may change from tick to tick. As long as `sustain` is a number and time
does not run backwards, the level starts in `[0, 1]` and stays there, whatever the times are
and whatever the gate is (`Envelope.run_bounded`).

All of this comes from what one tick can do: there are five ways for an envelope to go on
while the gate is high (`Envelope.Sounds`), and one while it is not (`Envelope.Fades`). That
nothing else can happen rests on the signs of rounded results only.
-/

namespace SignalGraph.Catalog.Envelope

open Binary Binary32

/-! ## What the controls come to -/

/-- The gate is high. -/
def Controls.High (c : Controls) : Prop := gateThreshold < c.gate

instance (c : Controls) : Decidable c.High := inferInstanceAs (Decidable (_ < _))

/-- The level to hold, between zero and one. -/
def Controls.hold (c : Controls) : Binary32 := c.sustain.clamp 0 1

variable {c : Controls} {dt x time target level level' : Binary32} {s s' : State} {n : Int32}

theorem hold_bounds (hsustain : c.sustain.isNaN = false) : 0 ≤ c.hold ∧ c.hold ≤ 1 :=
  clamp_bounds hsustain (by decide)

/-- No time is too short to divide by. -/
theorem epsilon_le_divisor (time : Binary32) : epsilon ≤ divisor time :=
  le_maxNumber _ (by decide)

theorem divisor_pos (time : Binary32) : 0 < divisor time :=
  Binary.lt_of_lt_of_le (by decide) (epsilon_le_divisor time)

/-- Whatever the time is, the share of a stage in it that a tick makes up is not negative. -/
theorem slope_nonneg (hfinite : dt.isFinite) (hdt : 0 ≤ dt) (hzero : 0 ≤ x) (hone : x ≤ 1)
    (time : Binary32) : 0 ≤ dt * x / divisor time := by
  have hx := isFinite_of_le_one hzero hone
  have hnonneg := Binary.mul_nonneg hfinite hdt hx hzero
  have hle := mul_le hfinite hdt hx (le_one_iff.1 hone).2
  have hfinite' := isFinite_of_le (zero_le_iff.1 hnonneg).2 hle hfinite
  exact Binary.div_nonneg hfinite' hnonneg (divisor_pos time)

/-! ## What a tick can do -/

/-- The level is between zero and one. -/
structure State.Bounded (s : State) : Prop where
  zero_le : 0 ≤ s.level
  le_one : s.level ≤ 1

/-- How an envelope goes on while the gate is high, with the level `target` to be held. -/
inductive Sounds (target : Binary32) : State → State → Prop
  | rise {level level' : Binary32} : level ≤ level' → level' < 1 →
      Sounds target ⟨.attack, level⟩ ⟨.attack, level'⟩
  | peak {level : Binary32} {stage : Stage} : stage ≠ .attack →
      Sounds target ⟨.attack, level⟩ ⟨stage, 1⟩
  | fall {level level' : Binary32} : level' ≤ level → target < level' →
      Sounds target ⟨.decay, level⟩ ⟨.decay, level'⟩
  | land {level : Binary32} : Sounds target ⟨.decay, level⟩ ⟨.sustain, target⟩
  | hold {level : Binary32} : Sounds target ⟨.sustain, level⟩ ⟨.sustain, target⟩

/-- How an envelope goes on while the gate is not high. -/
structure Fades (s s' : State) : Prop where
  stage_eq : s'.stage = .attack
  zero_le : 0 ≤ s'.level
  le : s'.level ≤ s.level

/-- `sustain` is a number, and time does not run backwards. -/
structure Regular (c : Controls) (dt : Binary32) : Prop where
  sustain_eq : c.sustain.isNaN = false
  isFinite : dt.isFinite
  zero_le : 0 ≤ dt

instance (c : Controls) (dt : Binary32) : Decidable (Regular c dt) :=
  decidable_of_iff (c.sustain.isNaN = false ∧ dt.isFinite ∧ 0 ≤ dt)
    ⟨fun ⟨hsustain, hfinite, hdt⟩ => ⟨hsustain, hfinite, hdt⟩, fun h => ⟨h.1, h.2, h.3⟩⟩

theorem step_attack (hhigh : c.High) : step c dt ⟨.attack, level⟩ =
    let level' := level + dt / divisor c.attack
    if 1 ≤ level' then ⟨if 0 < c.decay.maxNumber 0 then .decay else .sustain, 1⟩
    else ⟨.attack, level'⟩ := if_pos hhigh

theorem step_decay (hhigh : c.High) : step c dt ⟨.decay, level⟩ =
    let level' := level - dt * (1 - c.hold) / divisor (c.decay.maxNumber 0)
    if level' ≤ c.hold then ⟨.sustain, c.hold⟩ else ⟨.decay, level'⟩ := if_pos hhigh

theorem step_sustain (hhigh : c.High) : step c dt ⟨.sustain, level⟩ = ⟨.sustain, c.hold⟩ :=
  if_pos hhigh

theorem step_low (hlow : ¬c.High) : step c dt s =
    let level' := s.level - dt * c.hold / divisor c.release
    ⟨.attack, if level' < 0 then 0 else level'⟩ := if_neg hlow

theorem step_sounds (h : Regular c dt) (hs : s.Bounded) (hhigh : c.High) :
    Sounds c.hold s (step c dt s) := by
  obtain ⟨stage, level⟩ := s
  have hlevel : level.isFinite := isFinite_of_le_one hs.zero_le hs.le_one
  have hone : (1 : Binary32).isNaN = false := isNaN_of_isFinite isFinite_one
  obtain ⟨hzero, hle⟩ := hold_bounds h.sustain_eq
  cases stage with
  | attack =>
    rw [step_attack hhigh]
    dsimp only
    split
    next =>
      refine .peak ?_
      split <;> decide
    next hlt =>
      -- The sum is a number, so that it is below one if it is not at least one.
      have hrise := le_add hlevel (Binary.div_nonneg h.isFinite h.zero_le (divisor_pos c.attack))
      exact .rise hrise ((not_le_iff hone hrise.2.1).1 hlt)
  | decay =>
    rw [step_decay hhigh]
    dsimp only
    split
    next => exact .land
    next hlt =>
      obtain ⟨hrest, hrest'⟩ := one_sub_bounds hzero hle
      have hfall := sub_le hlevel
        (slope_nonneg h.isFinite h.zero_le hrest hrest' (c.decay.maxNumber 0))
      exact .fall hfall ((not_le_iff hfall.1 hle.1).1 hlt)
  | sustain => exact step_sustain hhigh ▸ .hold

theorem step_fades (h : Regular c dt) (hs : s.Bounded) (hlow : ¬c.High) :
    Fades s (step c dt s) := by
  have hlevel : s.level.isFinite := isFinite_of_le_one hs.zero_le hs.le_one
  obtain ⟨hzero, hle⟩ := hold_bounds h.sustain_eq
  have hfall := sub_le hlevel (slope_nonneg h.isFinite h.zero_le hzero hle c.release)
  rw [step_low hlow]
  dsimp only
  split
  next => exact ⟨rfl, le_self isNaN_zero, hs.zero_le⟩
  next hlt => exact ⟨rfl, (not_lt_iff hfall.1 isNaN_zero).1 hlt, hfall⟩

theorem Sounds.bounded (h : Sounds target s s') (hs : s.Bounded) (hzero : 0 ≤ target)
    (hone : target ≤ 1) : s'.Bounded := by
  cases h with
  | rise hle hlt => exact ⟨Binary.le_trans hs.zero_le hle, Binary.le_of_lt hlt⟩
  | peak => exact ⟨(by decide : (0 : Binary32) ≤ 1), (by decide : (1 : Binary32) ≤ 1)⟩
  | fall hle hlt =>
    exact ⟨Binary.le_trans hzero (Binary.le_of_lt hlt), Binary.le_trans hle hs.le_one⟩
  | land => exact ⟨hzero, hone⟩
  | hold => exact ⟨hzero, hone⟩

theorem Fades.bounded (h : Fades s s') (hs : s.Bounded) : s'.Bounded :=
  ⟨h.zero_le, Binary.le_trans h.le hs.le_one⟩

/-- A tick leaves the level between zero and one. -/
theorem step_bounded (h : Regular c dt) (hs : s.Bounded) : (step c dt s).Bounded := by
  by_cases hhigh : c.High
  · obtain ⟨hzero, hone⟩ := hold_bounds h.sustain_eq
    exact (step_sounds h hs hhigh).bounded hs hzero hone
  · exact (step_fades h hs hhigh).bounded hs

/-! ## Tick after tick -/

/-- What an envelope keeps from tick to tick. -/
structure Cells where
  /-- The number of the stage. -/
  stage : Int32
  /-- The level. -/
  level : Binary32
deriving DecidableEq

/-- What an envelope reads at a tick, its cells apart. -/
structure Tick where
  /-- The inputs. -/
  controls : Controls
  /-- The length of the tick. -/
  dt : Binary32

/-- The state that the cells stand for. -/
def Cells.state (cells : Cells) : State := ⟨.ofInt cells.stage, cells.level⟩

/-- The cells that a state is kept in. -/
def State.cells (s : State) : Cells := ⟨s.stage.toInt, s.level⟩

/-- The frame of the arguments of the update. -/
def Tick.frame (t : Tick) (cells : Cells) : Frame :=
  .ofList [t.controls.gate, t.controls.attack, t.controls.decay, t.controls.sustain,
    t.controls.release, .ofInt32 cells.stage, cells.level, t.dt]

/-- What the update leaves in the cells. -/
def Cells.tick (cells : Cells) (t : Tick) : Cells :=
  let frame := update (t.frame cells)
  ⟨frame.getInt 5, frame.get 6⟩

/-- The cells after ticks, one after the other. -/
def Cells.run (cells : Cells) (ticks : List Tick) : Cells := ticks.foldl tick cells

theorem State.state_cells (s : State) : s.cells.state = s := by
  rw [cells, Cells.state, Stage.ofInt_toInt]

/-- The update makes a step of the state that it finds in the cells. -/
theorem Cells.tick_eq (cells : Cells) (t : Tick) :
    cells.tick t = (step t.controls t.dt cells.state).cells := by
  have hupdate : update (t.frame cells) =
      ((t.frame cells).setInt 5 (step t.controls t.dt cells.state).stage.toInt).set 6
        (step t.controls t.dt cells.state).level := by
    simp [update, Tick.frame, Frame.get_ofList, Frame.getInt, maxArguments, Cells.state]
  rw [tick, hupdate, State.cells]
  simp [Frame.get_set, Frame.getInt, Frame.setInt, maxArguments]

/-- The state after ticks, one after the other. -/
def State.run (s : State) (ticks : List Tick) : State :=
  ticks.foldl (fun s t => step t.controls t.dt s) s

/-- Cells that hold a state go on holding the state. -/
theorem State.run_cells (s : State) (ticks : List Tick) :
    s.cells.run ticks = (s.run ticks).cells := by
  induction ticks generalizing s with
  | nil => rfl
  | cons t ticks ih =>
    have htick : s.cells.tick t = (step t.controls t.dt s).cells := by
      rw [Cells.tick_eq, State.state_cells]
    rw [Cells.run, List.foldl_cons, htick]
    exact ih _

theorem State.Bounded.run (hs : s.Bounded) {ticks : List Tick}
    (h : ∀ t ∈ ticks, Regular t.controls t.dt) : (s.run ticks).Bounded := by
  induction ticks generalizing s with
  | nil => exact hs
  | cons t ticks ih =>
    obtain ⟨ht, hticks⟩ := List.forall_mem_cons.1 h
    exact ih (step_bounded ht hs) hticks

/-- The numbers that a cell for the stage may hold are those of stages. -/
theorem fits_iff :
    (StateValue.int n).fits (.enum Stage.count) ↔ ∃ stage : Stage, n = stage.toInt := by
  constructor
  · intro h
    have hrange : 0 ≤ n.toInt ∧ n.toInt < Stage.count := by
      simpa only [StateValue.fits, Bool.and_eq_true, decide_eq_true_eq] using h
    have hcount : (Stage.count : Int) = 3 := rfl
    have hcases : n.toInt = 0 ∨ n.toInt = 1 ∨ n.toInt = 2 := by omega
    rcases hcases with hn | hn | hn
    · exact ⟨.attack, Int32.toInt_inj.1 hn⟩
    · exact ⟨.decay, Int32.toInt_inj.1 hn⟩
    · exact ⟨.sustain, Int32.toInt_inj.1 hn⟩
  · rintro ⟨stage, rfl⟩
    cases stage <;> decide

theorem bounded_zero (stage : Stage) : State.Bounded ⟨stage, 0⟩ :=
  ⟨(by decide : (0 : Binary32) ≤ 0), (by decide : (0 : Binary32) ≤ 1)⟩

/-- The cells of an envelope that starts from level zero hold a state with a level between zero
    and one. -/
theorem exists_state_run (hstage : (StateValue.int n).fits (.enum Stage.count)) {ticks : List Tick}
    (h : ∀ t ∈ ticks, Regular t.controls t.dt) :
    ∃ s : State, (⟨n, 0⟩ : Cells).run ticks = s.cells ∧ s.Bounded := by
  obtain ⟨stage, rfl⟩ := fits_iff.1 hstage
  exact ⟨_, State.run_cells ⟨stage, 0⟩ ticks, (bounded_zero stage).run h⟩

/-- Whatever the gate and the times are, from tick to tick: while `sustain` is a number and time
    does not run backwards, the level is a number between zero and one, and the stage is one
    of the three. -/
theorem run_bounded (hstage : (StateValue.int n).fits (.enum Stage.count)) {ticks : List Tick}
    (h : ∀ t ∈ ticks, Regular t.controls t.dt) :
    let cells := (⟨n, 0⟩ : Cells).run ticks
    cells.level.isNaN = false ∧ 0 ≤ cells.level ∧ cells.level ≤ 1 ∧
      (StateValue.int cells.stage).fits (.enum Stage.count) := by
  obtain ⟨s, hcells, hs⟩ := exists_state_run hstage h
  dsimp only
  rw [hcells]
  exact ⟨hs.zero_le.2.1, hs.zero_le, hs.le_one, fits_iff.2 ⟨s.stage, rfl⟩⟩

/-- A gate, an attack and a decay that are no numbers, a time below zero and times without end
    leave the level between zero and one. -/
theorem run_bounded_wild :
    let cells := (⟨2, 0⟩ : Cells).run
      [⟨⟨.invalid, .invalid, .invalid, -0.5, -1⟩, 0.5⟩,
        ⟨⟨1, -0.5, .invalid, .signedInfinity false, 0⟩, 0.25⟩,
        ⟨⟨.signedInfinity false, 1, .signedInfinity true, 0.5, .invalid⟩, 0⟩,
        ⟨⟨-0.5, 1, 1, 3, .signedInfinity false⟩, 8⟩]
    cells.level.isNaN = false ∧ 0 ≤ cells.level ∧ cells.level ≤ 1 ∧
      (StateValue.int cells.stage).fits (.enum Stage.count) :=
  run_bounded (by decide) (by decide)

/-! ## The stages, one after the other -/

/-- Between two ticks, no stage is left but for the next one while the gate is high, and the
    level goes the way of its stage. -/
structure Disciplined (c : Controls) (cells cells' : Cells) : Prop where
  rise : c.High → cells.stage = Stage.attack.toInt → cells'.stage = Stage.attack.toInt →
    cells.level ≤ cells'.level
  peak : cells.stage = Stage.attack.toInt → cells'.stage ≠ Stage.attack.toInt → cells'.level = 1
  fall : c.High → cells.stage = Stage.decay.toInt → cells'.stage = Stage.decay.toInt →
    cells'.level ≤ cells.level ∧ c.hold < cells'.level
  hold : c.High → cells.stage = Stage.decay.toInt ∨ cells.stage = Stage.sustain.toInt →
    cells'.stage = Stage.sustain.toInt → cells'.level = c.hold
  fade : ¬c.High → cells'.stage = Stage.attack.toInt ∧ cells'.level ≤ cells.level
  leave : cells.stage = Stage.sustain.toInt → cells'.stage ≠ Stage.sustain.toInt → ¬c.High

theorem Stage.toInt_inj {stage stage' : Stage} : stage.toInt = stage'.toInt ↔ stage = stage' := by
  cases stage <;> cases stage' <;> decide

theorem Stage.attack_toInt_le (stage : Stage) : attack.toInt ≤ stage.toInt := by
  cases stage <;> decide

theorem Sounds.stage_le (h : Sounds target s s') : s.cells.stage ≤ s'.cells.stage := by
  cases h with
  | rise | fall | hold => exact Int32.le_refl _
  | peak => exact Stage.attack_toInt_le _
  | land => exact (by decide : Stage.decay.toInt ≤ Stage.sustain.toInt)

theorem Sounds.disciplined (h : Sounds c.hold s s') (hhigh : c.High) :
    Disciplined c s.cells s'.cells := by
  -- Each way to go on is what one of the fields says; the others are about other stages.
  cases h <;> constructor <;> simp_all [State.cells, Stage.toInt_inj]

theorem Fades.disciplined (h : Fades s s') (hlow : ¬c.High) : Disciplined c s.cells s'.cells where
  rise hhigh := absurd hhigh hlow
  peak _ hstage := absurd (congrArg Stage.toInt h.stage_eq) hstage
  fall hhigh := absurd hhigh hlow
  hold hhigh := absurd hhigh hlow
  fade _ := ⟨congrArg Stage.toInt h.stage_eq, h.le⟩
  leave _ _ := hlow

theorem step_disciplined (h : Regular c dt) (hs : s.Bounded) :
    Disciplined c s.cells (step c dt s).cells := by
  by_cases hhigh : c.High
  · -- That the level is in bounds is what makes the step one of the five.
    exact (step_sounds h hs hhigh).disciplined hhigh
  · exact (step_fades h hs hhigh).disciplined hhigh

/-- While the gate stays high, no stage is gone back to. -/
theorem State.Bounded.stage_le_run (hs : s.Bounded) {ticks : List Tick}
    (h : ∀ t ∈ ticks, Regular t.controls t.dt) (hhigh : ∀ t ∈ ticks, t.controls.High) :
    s.cells.stage ≤ (s.run ticks).cells.stage := by
  induction ticks generalizing s with
  | nil => exact Int32.le_refl _
  | cons t ticks ih =>
    obtain ⟨ht, hticks⟩ := List.forall_mem_cons.1 h
    obtain ⟨hhigh, hrest⟩ := List.forall_mem_cons.1 hhigh
    exact Int32.le_trans (step_sounds ht hs hhigh).stage_le (ih (step_bounded ht hs) hticks hrest)

/-- The stages come one after the other: whatever happened before, they do not go back while the
    gate stays high, and each tick is disciplined. -/
theorem run_disciplined (hstage : (StateValue.int n).fits (.enum Stage.count))
    {before later : List Tick} (h : ∀ t ∈ before ++ later, Regular t.controls t.dt) :
    let cells := (⟨n, 0⟩ : Cells).run before
    ((∀ t ∈ later, t.controls.High) → cells.stage ≤ (cells.run later).stage) ∧
      ∀ t : Tick, Regular t.controls t.dt → Disciplined t.controls cells (cells.tick t) := by
  obtain ⟨hbefore, hlater⟩ := List.forall_mem_append.1 h
  obtain ⟨s, hcells, hs⟩ := exists_state_run hstage hbefore
  dsimp only
  rw [hcells]
  refine ⟨fun hhigh => ?_, fun t ht => ?_⟩
  · rw [State.run_cells]
    exact hs.stage_le_run hlater hhigh
  · rw [Cells.tick_eq, State.state_cells]
    exact step_disciplined ht hs

/-- A gate that opens halfway up and stays open does so until the level to hold is reached. -/
theorem run_disciplined_steady :
    let steady : Tick := ⟨⟨1, 0.5, 0.5, 0.25, .invalid⟩, 0.25⟩
    let cells := (⟨0, 0⟩ : Cells).run [⟨⟨.invalid, 0, 0, 1, 0⟩, 1⟩, steady]
    cells.stage ≤ (cells.run [steady, steady, steady]).stage ∧
      Disciplined steady.controls cells (cells.tick steady) := by
  intro steady cells
  have hregular : ∀ t ∈ [⟨⟨.invalid, 0, 0, 1, 0⟩, 1⟩, steady] ++ [steady, steady, steady],
      Regular t.controls t.dt := by decide
  obtain ⟨hstage, hticks⟩ := run_disciplined (n := 0) (by decide) hregular
  exact ⟨hstage (by decide), hticks steady (by decide)⟩

end SignalGraph.Catalog.Envelope
