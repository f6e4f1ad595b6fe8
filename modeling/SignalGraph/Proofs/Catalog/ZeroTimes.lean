import SignalGraph.Engine.Config
import SignalGraph.Proofs.Catalog.Envelope

/-!
# Envelopes with no time for a stage

A time of zero acts as `Binary32.epsilon`, which is short: at any sample rate that an engine
accepts, a tick takes eight times as long at least. So the one step of a stage of no time goes eight
times its way, and no rounding takes that back: the level has risen to one, or fallen to the
level to hold, in a tick.

What the level falls by once the gate is low is measured by the level to hold, though, and not by
the level that it falls from. The gate may go low anywhere above the level to hold; there, a
release of no time is over in a tick only if the level to hold is great enough
(`Envelope.completes_iff`), as an eighth is (`Envelope.step_low_zero`). With nothing to hold the
level does not fall at all (`Envelope.State.Bounded.le_run_low`).
-/

namespace SignalGraph.Catalog.Envelope

open Binary Binary32

variable {c : Controls} {dt x time target : Binary32} {s : State} {n : Int32} {config : Config}

/-! ## The length of a tick -/

theorem toRat_epsilon : epsilon.toRat = 1 / 8388608 := by
  rw [toRat_eq_div (n := 1) (d := 8388608) (by decide) (by decide) (by decide +kernel)]
  norm_num

/-- A length that no tick is shorter than. -/
def shortest : Binary32 := 1 / 1048576

theorem toRat_shortest : shortest.toRat = 1 / 1048576 := by
  rw [toRat_eq_div (n := 1) (d := 1048576) (by decide +kernel) (by decide) (by decide +kernel)]
  norm_num

theorem toRat_epsilon_ne_zero : epsilon.toRat ≠ 0 := by rw [toRat_epsilon]; norm_num

theorem toRat_eighth : (0.125 : Binary32).toRat = 1 / 8 := by
  rw [toRat_eq_div (n := 1) (d := 8) (by decide) (by decide) (by decide +kernel)]
  norm_num

theorem toRat_rate : (1048576 : Binary32).toRat = 1048576 := by
  rw [toRat_eq_div (n := 1048576) (by decide) Nat.one_ne_zero (by decide +kernel)]
  norm_num

/-- What the length of a tick can be. -/
structure TickLength (dt : Binary32) : Prop where
  shortest_le : shortest ≤ dt
  le_one : dt ≤ 1

theorem TickLength.zero_le (hdt : TickLength dt) : 0 ≤ dt :=
  Binary.le_trans (by decide +kernel) hdt.shortest_le

theorem TickLength.isFinite (hdt : TickLength dt) : dt.isFinite :=
  isFinite_of_le_one hdt.zero_le hdt.le_one

theorem TickLength.le_toRat (hdt : TickLength dt) : 1 / 1048576 ≤ dt.toRat :=
  toRat_shortest ▸ (le_iff.1 hdt.shortest_le).2.2

/-- The sample rates that are accepted leave so much time for a tick. -/
theorem tickLength_deltaTime (h : config.check = .ok ()) : TickLength config.deltaTime := by
  have hrate : Config.minSampleRate ≤ config.sampleRate ∧
      config.sampleRate ≤ Config.maxSampleRate := by
    by_contra hrate
    rw [Config.check, if_neg hrate] at h
    cases h
  obtain ⟨hmin, hmax⟩ := hrate
  have hmin' : 1 ≤ config.sampleRate.toNat := UInt32.le_iff_toNat_le.1 hmin
  have hmax' : config.sampleRate.toNat ≤ 768000 := UInt32.le_iff_toNat_le.1 hmax
  have hrate : Nearest (config.sampleRate.toNat : ℤ) (ofInt config.sampleRate.toNat : Binary32) :=
    nearest_ofInt _
  have hone : (1 : Binary32) ≤ ofInt config.sampleRate.toNat := by
    refine hrate.of_toRat_le (by decide) ?_
    rw [toRat_one]
    exact_mod_cast hmin'
  have hle : (ofInt config.sampleRate.toNat : Binary32) ≤ 1048576 := by
    refine hrate.le_of_toRat (by decide) ?_
    rw [toRat_rate]
    exact_mod_cast hmax'.trans (by decide)
  obtain ⟨-, hnum, hone'⟩ := le_iff.1 hone
  obtain ⟨-, -, hle'⟩ := le_iff.1 hle
  rw [toRat_one] at hone'
  rw [toRat_rate] at hle'
  have hfinite := isFinite_of_le (by linarith) hle (by decide)
  have hlength := nearest_div isFinite_one hfinite (by linarith)
  rw [toRat_one] at hlength
  refine ⟨hlength.of_toRat_le (by decide +kernel) ?_, hlength.le_of_toRat (by decide) ?_⟩
  · rw [toRat_shortest]
    exact one_div_le_one_div_of_le (by linarith) hle'
  · rw [toRat_one]
    exact (div_le_one (by linarith)).2 hone'

/-! ## Stages of no time -/

theorem divisor_of_le_zero (h : time ≤ 0) : divisor time = epsilon :=
  maxNumber_of_lt (Binary.lt_of_le_of_lt (maxNumber_le h (by decide)) (by decide))

theorem divisor_maxNumber_of_le_zero (h : time ≤ 0) : divisor (time.maxNumber 0) = epsilon :=
  divisor_of_le_zero (maxNumber_le h (by decide))

/-- A tick makes up all of a stage of no time. -/
theorem one_le_div_epsilon (hdt : TickLength dt) : 1 ≤ dt / epsilon := by
  have hexact := nearest_div hdt.isFinite (by decide : epsilon.isFinite) toRat_epsilon_ne_zero
  refine hexact.of_toRat_le (by decide) ?_
  rw [toRat_one, toRat_epsilon]
  linarith [hdt.le_toRat]

theorem mul_bounds (hdt : TickLength dt) (hzero : 0 ≤ x) (hone : x ≤ 1) :
    0 ≤ dt * x ∧ dt * x ≤ 1 := by
  have hx := isFinite_of_le_one hzero hone
  exact ⟨Binary.mul_nonneg hdt.isFinite hdt.zero_le hx hzero,
    Binary.le_trans (mul_le hdt.isFinite hdt.zero_le hx (le_one_iff.1 hone).2) hdt.le_one⟩

/-- What a tick takes off in a stage of no time is rounded from the product with its length. -/
theorem nearest_share (hdt : TickLength dt) (hzero : 0 ≤ x) (hone : x ≤ 1) :
    Nearest ((dt * x).toRat / (1 / 8388608)) (dt * x / epsilon) := by
  obtain ⟨hproduct, hproduct'⟩ := mul_bounds hdt hzero hone
  rw [← toRat_epsilon]
  exact nearest_div (isFinite_of_le_one hproduct hproduct') (by decide) toRat_epsilon_ne_zero

theorem share_nonneg (hdt : TickLength dt) (hzero : 0 ≤ x) (hone : x ≤ 1) :
    0 ≤ dt * x / epsilon := by
  obtain ⟨hproduct, hproduct'⟩ := mul_bounds hdt hzero hone
  exact Binary.div_nonneg (isFinite_of_le_one hproduct hproduct') hproduct (by decide)

theorem share_isFinite (hdt : TickLength dt) (hzero : 0 ≤ x) (hone : x ≤ 1) :
    (dt * x / epsilon).isFinite := by
  obtain ⟨hproduct, hproduct'⟩ := mul_bounds hdt hzero hone
  have hle : dt * x / epsilon ≤ 1 / epsilon := by
    have hexact := nearest_div isFinite_one (by decide : epsilon.isFinite) toRat_epsilon_ne_zero
    refine (nearest_share hdt hzero hone).le hexact ?_
    rw [toRat_epsilon, toRat_one]
    linarith [(le_one_iff.1 hproduct').2]
  exact isFinite_of_le (zero_le_iff.1 (share_nonneg hdt hzero hone)).2 hle (by decide +kernel)

/-- An eighth of the way from zero to one is made up eight times. -/
theorem one_le_share (hdt : TickLength dt) (hx : 1 / 8 ≤ x.toRat) (hone : x ≤ 1) :
    1 ≤ dt * x / epsilon := by
  have hzero : 0 ≤ x := zero_le_iff.2 ⟨hone.1, by linarith⟩
  have hproduct : epsilon ≤ dt * x := by
    have hexact := nearest_mul hdt.isFinite (isFinite_of_le_one hzero hone)
    refine hexact.of_toRat_le (by decide) ?_
    rw [toRat_epsilon]
    have hlength := hdt.le_toRat
    calc (1 : ℚ) / 8388608 = 1 / 1048576 * (1 / 8) := by norm_num
      _ ≤ dt.toRat * x.toRat := mul_le_mul hlength hx (by norm_num) (by linarith)
  obtain ⟨-, -, hle⟩ := le_iff.1 hproduct
  rw [toRat_epsilon] at hle
  refine (nearest_share hdt hzero hone).of_toRat_le (by decide) ?_
  rw [toRat_one]
  linarith

theorem unit_le : (1 : ℚ) / Format.single.one ≤ 1 / 1125899906842624 := by
  have hone : 1125899906842624 ≤ Format.single.one := by decide +kernel
  exact one_div_le_one_div_of_le (by norm_num) (by exact_mod_cast hone)

/-- What a tick takes off is more than twice what is to be taken off, though it is rounded
    twice. -/
theorem two_mul_lt_share (hdt : TickLength dt) (hx : 1 / 33554432 ≤ x.toRat) (hone : x ≤ 1) :
    2 * x.toRat < (dt * x / epsilon).toRat := by
  have hzero : 0 ≤ x := zero_le_iff.2 ⟨hone.1, by linarith⟩
  obtain ⟨hproduct, hproduct'⟩ := mul_bounds hdt hzero hone
  have hlength : x.toRat / 1048576 ≤ dt.toRat * x.toRat := by
    rw [div_eq_inv_mul, ← one_div]
    exact mul_le_mul_of_nonneg_right hdt.le_toRat (by linarith)
  -- Of the factor of eight, each of the two roundings takes less than a half.
  have hhalf : dt.toRat * x.toRat < 2 * (dt * x).toRat :=
    (nearest_mul hdt.isFinite (isFinite_of_le_one hzero hone)).lt_two_mul
      (isFinite_of_le_one hproduct hproduct') (by linarith [unit_le])
  have hhalf' : (dt * x).toRat / (1 / 8388608) < 2 * (dt * x / epsilon).toRat :=
    (nearest_share hdt hzero hone).lt_two_mul (share_isFinite hdt hzero hone)
      (by linarith [unit_le])
  linarith

/-- What is below one is below it by a step at least. -/
theorem toRat_le_of_lt_one (h : x < 1) : x.toRat ≤ 1 - 1 / 16777216 := by
  have hstep : (1 : Binary32).rank = (ofBits 0x3f7fffff).rank + 1 := by decide
  have hbelow : (ofBits 0x3f7fffff).toRat = 16777215 / 16777216 := by
    rw [toRat_eq_div (n := 16777215) (d := 16777216) (by decide) (by decide) (by decide +kernel)]
    norm_num
  have hle : x.toRat ≤ (ofBits 0x3f7fffff).toRat := rank_le_rank_iff.1 (by have := h.2.2; omega)
  linarith

/-- A decay of no time goes all the way down from wherever the level is. -/
theorem sub_share_le (hdt : TickLength dt) (hzero : 0 ≤ target) (hone : target ≤ 1)
    (hs : s.Bounded) : s.level - dt * (1 - target) / epsilon ≤ target := by
  obtain ⟨hrest, hrest'⟩ := one_sub_bounds hzero hone
  have hexact := nearest_sub (isFinite_of_le_one hs.zero_le hs.le_one)
    (share_isFinite hdt hrest hrest')
  refine hexact.le_of_toRat hzero.2.1 ?_
  have hlevel := (le_one_iff.1 hs.le_one).2
  have hshare : 1 - target.toRat ≤ (dt * (1 - target) / epsilon).toRat := by
    by_cases hlt : target < 1
    · have hstep := toRat_le_of_lt_one hlt
      have hhalf : 1 - target.toRat < 2 * (1 - target).toRat := by
        have hexact := nearest_sub isFinite_one (isFinite_of_le_one hzero hone)
        rw [toRat_one] at hexact
        exact hexact.lt_two_mul (isFinite_of_le_one hrest hrest') (by linarith [unit_le])
      linarith [two_mul_lt_share hdt (x := 1 - target) (by linarith) hrest']
    · -- There is nothing to take off, which is less than a unit.
      have hge := (not_lt_iff hzero.2.1 hone.2.1).1 hlt
      rw [le_iff, toRat_one] at hge
      linarith [(zero_le_iff.1 (share_nonneg hdt hrest hrest')).2]
  linarith

/-! ## Stages that are over in a tick -/

theorem step_attack_zero (hdt : TickLength dt) (hs : s.Bounded) (hhigh : c.High)
    (hstage : s.stage = .attack) (htime : c.attack ≤ 0) :
    (step c dt s).level = 1 ∧ (step c dt s).stage ≠ .attack := by
  obtain ⟨stage, level⟩ := s
  obtain rfl : stage = .attack := hstage
  have hrise : 1 ≤ level + dt / divisor c.attack := by
    rw [divisor_of_le_zero htime]
    exact le_add_of_le hs.zero_le (isFinite_of_le_one hs.zero_le hs.le_one) (one_le_div_epsilon hdt)
  rw [step_attack hhigh]
  dsimp only
  rw [if_pos hrise]
  exact ⟨rfl, by split <;> decide⟩

theorem step_decay_zero (hdt : TickLength dt) (hs : s.Bounded) (hsustain : c.sustain.isNaN = false)
    (hhigh : c.High) (hstage : s.stage = .decay) (htime : c.decay ≤ 0) :
    step c dt s = ⟨.sustain, c.hold⟩ := by
  obtain ⟨stage, level⟩ := s
  obtain rfl : stage = .decay := hstage
  obtain ⟨hzero, hone⟩ := hold_bounds hsustain
  have hfall := sub_share_le hdt hzero hone hs
  rw [step_decay hhigh, divisor_maxNumber_of_le_zero htime]
  exact if_pos hfall

/-- The level is zero after a release of no time if it was not above what a tick takes off. -/
theorem step_low_zero_iff (hdt : TickLength dt) (hs : s.Bounded)
    (hsustain : c.sustain.isNaN = false) (hlow : ¬c.High) (htime : c.release ≤ 0) :
    (step c dt s).level.magnitude = 0 ↔ s.level ≤ dt * c.hold / epsilon := by
  obtain ⟨hzero, hone⟩ := hold_bounds hsustain
  have hshare := share_nonneg hdt hzero hone
  have hlevel := isFinite_of_le_one hs.zero_le hs.le_one
  have hexact := nearest_sub hlevel (share_isFinite hdt hzero hone)
  rw [step_low hlow, divisor_of_le_zero htime]
  dsimp only
  constructor
  · intro hend
    by_contra habove
    have hpos := Binary.sub_pos hlevel hshare ((not_le_iff hs.zero_le.2.1 hshare.2.1).1 habove)
    have hnonneg := Binary.le_of_lt hpos
    rw [if_neg ((not_lt_iff hexact.isNaN_eq isNaN_zero).2 hnonneg),
      magnitude_eq_zero_iff hnonneg] at hend
    exact (not_lt_iff isNaN_zero hexact.isNaN_eq).2 hend hpos
  · intro hle
    have hfall : s.level - dt * c.hold / epsilon ≤ 0 := by
      refine hexact.le_of_toRat isNaN_zero ?_
      rw [toRat_zero]
      linarith [(le_iff.1 hle).2.2]
    split
    next => decide
    next hlt =>
      exact (magnitude_eq_zero_iff ((not_lt_iff hexact.isNaN_eq isNaN_zero).1 hlt)).2 hfall

/-- With an eighth to hold, a release of no time is over in a tick wherever the gate goes low. -/
theorem step_low_zero (hdt : TickLength dt) (hs : s.Bounded) (hsustain : c.sustain.isNaN = false)
    (hlow : ¬c.High) (htime : c.release ≤ 0) (hhold : 0.125 ≤ c.hold) :
    (step c dt s).level.magnitude = 0 := by
  have hone := (hold_bounds hsustain).2
  refine (step_low_zero_iff hdt hs hsustain hlow htime).2 (Binary.le_trans hs.le_one ?_)
  have hhold' : 1 / 8 ≤ c.hold.toRat := toRat_eighth ▸ (le_iff.1 hhold).2.2
  exact one_le_share hdt hhold' hone

/-- What a stage of no time is to come to in a tick. -/
structure Completes (c : Controls) (cells cells' : Cells) : Prop where
  attack : c.High → cells.stage = Stage.attack.toInt → c.attack ≤ 0 →
    cells'.level = 1 ∧ cells'.stage ≠ Stage.attack.toInt
  decay : c.High → cells.stage = Stage.decay.toInt → c.decay ≤ 0 →
    cells'.level = c.hold ∧ cells'.stage = Stage.sustain.toInt
  release : ¬c.High → c.release ≤ 0 → cells'.level.magnitude = 0

/-- Whatever happened before, an attack and a decay of no time are over in a tick at any sample
    rate, and a release of no time is so just if the level is not above what a tick takes off,
    which is measured by the level to hold. -/
theorem completes_iff (hstage : (StateValue.int n).fits (.enum Stage.count)) {before : List Tick}
    (h : ∀ t ∈ before, Regular t.controls t.dt) (hconfig : config.check = .ok ())
    (hsustain : c.sustain.isNaN = false) :
    let cells := (⟨n, 0⟩ : Cells).run before
    Completes c cells (cells.tick ⟨c, config.deltaTime⟩) ↔
      (¬c.High → c.release ≤ 0 → cells.level ≤ config.deltaTime * c.hold / epsilon) := by
  obtain ⟨s, hcells, hs⟩ := exists_state_run hstage h
  have hdt := tickLength_deltaTime hconfig
  dsimp only
  rw [hcells, Cells.tick_eq, State.state_cells]
  constructor
  · intro hcompletes hlow htime
    exact (step_low_zero_iff hdt hs hsustain hlow htime).1 (hcompletes.release hlow htime)
  · intro hrelease
    refine ⟨fun hhigh hattack htime => ?_, fun hhigh hdecay htime => ?_, fun hlow htime => ?_⟩
    · obtain ⟨hlevel, hleft⟩ := step_attack_zero hdt hs hhigh (Stage.toInt_inj.1 hattack) htime
      exact ⟨hlevel, mt Stage.toInt_inj.1 hleft⟩
    · rw [step_decay_zero hdt hs hsustain hhigh (Stage.toInt_inj.1 hdecay) htime]
      exact ⟨rfl, rfl⟩
    · exact (step_low_zero_iff hdt hs hsustain hlow htime).2 (hrelease hlow htime)

/-- A quarter to hold is enough for a release of no time from the top. -/
theorem completes_quarter :
    let config : Config := {}
    let cells := (⟨0, 0⟩ : Cells).run [⟨⟨1, 0, 1, 0.25, 0⟩, 0.125⟩]
    Completes ⟨0, 0, 1, 0.25, 0⟩ cells
      (cells.tick ⟨⟨0, 0, 1, 0.25, 0⟩, config.deltaTime⟩) := by
  have hconfig : ({} : Config).check = .ok () := rfl
  exact (completes_iff (n := 0) (by decide) (by decide) hconfig (by decide)).2
    fun _ _ => by decide +kernel

/-- With nothing to hold, a release of no time leaves the level at the top. -/
theorem not_completes_silent :
    let config : Config := {}
    let cells := (⟨0, 0⟩ : Cells).run [⟨⟨1, 0, 0, 0, 0⟩, config.deltaTime⟩]
    let cells' := cells.tick ⟨⟨0, 0, 0, 0, 0⟩, config.deltaTime⟩
    config.check = .ok () ∧ cells = ⟨2, 1⟩ ∧ cells' = ⟨0, 1⟩ ∧
      ¬Completes ⟨0, 0, 0, 0, 0⟩ cells cells' := by
  refine ⟨rfl, by decide +kernel, by decide +kernel, fun h => ?_⟩
  exact absurd (h.release (by decide) (by decide)) (by decide +kernel)

/-! ## Nothing to hold -/

/-- With nothing to hold a tick takes nothing off, however long it is and however short the
    release. -/
theorem le_step_low (h : Regular c dt) (hs : s.Bounded) (hlow : ¬c.High) (hhold : c.hold ≤ 0) :
    s.level ≤ (step c dt s).level := by
  obtain ⟨hzero, hone⟩ := hold_bounds h.sustain_eq
  have hfinite := isFinite_of_le_one hzero hone
  have hlevel := isFinite_of_le_one hs.zero_le hs.le_one
  have hproduct : dt * c.hold ≤ 0 := by
    refine (nearest_mul h.isFinite hfinite).le_of_toRat isNaN_zero ?_
    have hle := (le_iff.1 hhold).2.2
    rw [toRat_zero] at hle ⊢
    exact mul_nonpos_of_nonneg_of_nonpos (zero_le_iff.1 h.zero_le).2 hle
  have hnonneg := Binary.mul_nonneg h.isFinite h.zero_le hfinite hzero
  have hfinite' := isFinite_of_le (zero_le_iff.1 hnonneg).2 hproduct (by decide)
  have hnone := Binary.div_nonpos hfinite' hproduct (divisor_pos c.release)
  have hsome := slope_nonneg h.isFinite h.zero_le hzero hone c.release
  have hkept : s.level ≤ s.level - dt * c.hold / divisor c.release := by
    have hexact := nearest_sub hlevel (isFinite_of_le (zero_le_iff.1 hsome).2 hnone (by decide))
    refine hexact.of_toRat_le hs.zero_le.2.1 ?_
    have hle := (le_iff.1 hnone).2.2
    rw [toRat_zero] at hle
    linarith
  rw [step_low hlow]
  dsimp only
  rwa [if_neg ((not_lt_iff hkept.2.1 isNaN_zero).2 (Binary.le_trans hs.zero_le hkept))]

/-- As long as the gate is not high and there is nothing to hold, the level does not fall. -/
theorem State.Bounded.le_run_low (hs : s.Bounded) {ticks : List Tick}
    (h : ∀ t ∈ ticks, Regular t.controls t.dt) (hlow : ∀ t ∈ ticks, ¬t.controls.High)
    (hhold : ∀ t ∈ ticks, t.controls.hold ≤ 0) : s.level ≤ (s.run ticks).level := by
  induction ticks generalizing s with
  | nil => exact le_self hs.zero_le.2.1
  | cons t ticks ih =>
    obtain ⟨ht, hticks⟩ := List.forall_mem_cons.1 h
    obtain ⟨htlow, hrest⟩ := List.forall_mem_cons.1 hlow
    obtain ⟨hthold, hnone⟩ := List.forall_mem_cons.1 hhold
    exact Binary.le_trans (le_step_low ht hs htlow hthold)
      (ih (step_bounded ht hs) hticks hrest hnone)

end SignalGraph.Catalog.Envelope
