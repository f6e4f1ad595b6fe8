import SignalGraph.Catalog.Oscillator
import SignalGraph.Proofs.Binary.Accuracy

/-!
# Oscillators in use

An oscillator keeps its phase from tick to tick, wrapped into one turn. What remains after whole
turns is rounded three times, and one conditional addition makes up for one turn at most. So the
phase is within a turn unless what remains of it is more than a turn below zero, and then the
phase is left below zero (`Oscillator.run_wrapped_iff`).

Up to `2²⁴` turns that does not happen: the turns are counted right up to a half, so that the
whole turns are at most half a turn too many, and since their product with the turn is rounded to
the nearest word, and the phase is a word itself, the product is at most a turn above the phase
(`Oscillator.neg_tau_le_rest`).
-/

namespace SignalGraph.Catalog.Oscillator

open Binary Binary32

variable {phase : Binary32}

/-! ## What remains after whole turns -/

/-- The phase is a number from zero to below a turn. -/
structure Wrapped (phase : Binary32) : Prop where
  zero_le : 0 ≤ phase
  lt_tau : phase < tau

instance (phase : Binary32) : Decidable (Wrapped phase) :=
  decidable_of_iff (0 ≤ phase ∧ phase < tau) ⟨fun h => ⟨h.1, h.2⟩, fun h => ⟨h.1, h.2⟩⟩

/-- What remains of a phase after whole turns, as rounded. -/
def rest (phase : Binary32) : Binary32 := phase - tau * (phase / tau).floor

/-- What remains of a phase is more than a turn below zero. -/
structure Overshoots (phase : Binary32) : Prop where
  isFinite : phase.isFinite
  lt_neg_tau : rest phase < -tau

instance (phase : Binary32) : Decidable (Overshoots phase) :=
  decidable_of_iff (phase.isFinite ∧ rest phase < -tau) ⟨fun h => ⟨h.1, h.2⟩, fun h => ⟨h.1, h.2⟩⟩

/-- The phase of `2²⁴` turns. -/
def limit : Binary32 := 16777216 * tau

theorem isFinite_tau : tau.isFinite := by decide

theorem toRat_tau : tau.toRat = 13176795 / 2097152 := by
  rw [toRat_eq_div (n := 13176795) (d := 2097152) (by decide) (by decide) (by decide +kernel)]
  norm_num

theorem tau_pos : 0 < tau.toRat := by rw [toRat_tau]; norm_num

theorem toRat_limit : limit.toRat = 2 ^ 24 * tau.toRat := by
  rw [toRat_eq_div (n := 105414360) (d := 1) (by decide) (by decide) (by decide +kernel), toRat_tau]
  norm_num

theorem isNaN_rest (hfinite : phase.isFinite) : (rest phase).isNaN = false := by
  have hturns := nearest_div hfinite isFinite_tau tau_pos.ne'
  have hwhole := isNaN_mul isFinite_tau tau_pos.ne' (isNaN_floor hturns.isNaN_eq)
  exact isNaN_sub hfinite hwhole

/-- Up to `2²⁴` turns, the whole turns are counted right up to a half. -/
theorem whole_turns (hfinite : phase.isFinite) (hle : |phase.toRat| ≤ limit.toRat) :
    let whole := (phase / tau).floor
    whole.isFinite ∧ |whole.toRat| ≤ 2 ^ 24 ∧
      tau.toRat * whole.toRat ≤ phase.toRat + tau.toRat / 2 := by
  have hpos := tau_pos
  have hquot : |phase.toRat / tau.toRat| ≤ 2 ^ 24 := by
    rwa [abs_div, abs_of_pos hpos, div_le_iff₀ hpos, ← toRat_limit]
  have hturns := nearest_div hfinite isFinite_tau hpos.ne'
  have hfinite' := isFinite_of_abs_le hturns hquot
  have hle' := abs_toRat_le hturns hquot
  obtain ⟨hfloor, hwhole⟩ := toRat_floor hfinite' hle'
  refine ⟨hfloor, ?_, ?_⟩
  · rw [hwhole]
    exact_mod_cast abs_floor_le hle'
  · have hhalf := abs_le.1 (abs_sub_le_half (k := 0) (by decide) hturns hfinite'
      (hquot.trans_eq (by norm_num)))
    have hbelow := Int.floor_le (phase / tau).toRat
    calc tau.toRat * (phase / tau).floor.toRat
        ≤ tau.toRat * (phase.toRat / tau.toRat + 1 / 2) := by
          rw [hwhole]
          gcongr
          linarith
      _ = phase.toRat + tau.toRat / 2 := by field_simp

/-- Up to `2²⁴` turns, what remains is not more than a turn below zero. -/
theorem neg_tau_le_rest (hfinite : phase.isFinite) (hle : |phase.toRat| ≤ limit.toRat) :
    -tau ≤ rest phase := by
  have hpos := tau_pos
  obtain ⟨hwhole, hcount, hturn⟩ := whole_turns hfinite hle
  have hexact := nearest_mul isFinite_tau hwhole
  have hfinite' : (tau * (phase / tau).floor).isFinite := by
    refine hexact.isFinite_of_abs_le (b := limit) (by decide) ?_
    rw [toRat_limit, abs_mul, abs_mul, abs_of_pos hpos, abs_of_pos (by norm_num : (0 : ℚ) < 2 ^ 24),
      mul_comm]
    exact mul_le_mul_of_nonneg_right hcount hpos.le
  -- The product is a word nearest to the exact one, and the phase is a word.
  have hnear := hexact.abs_sub_le_abs_sub hfinite' phase
  have habove : (tau * (phase / tau).floor).toRat ≤ phase.toRat + tau.toRat := by
    rcases abs_cases (phase.toRat - tau.toRat * (phase / tau).floor.toRat) with ⟨h, -⟩ | ⟨h, -⟩ <;>
      rw [h] at hnear <;> linarith [le_of_abs_le hnear]
  refine (nearest_sub hfinite hfinite').of_toRat_le (by decide) ?_
  rw [toRat_neg]
  linarith

/-- Only a phase of more than `2²⁴` turns can overshoot. -/
theorem Overshoots.limit_lt (h : Overshoots phase) : limit < phase ∨ phase < -limit := by
  have hnum := isNaN_of_isFinite h.isFinite
  by_contra hle
  obtain ⟨hhigh, hlow⟩ := not_or.1 hle
  have hhigh := (le_iff.1 ((not_lt_iff (by decide) hnum).1 hhigh)).2.2
  have hlow := (le_iff.1 ((not_lt_iff hnum (by decide)).1 hlow)).2.2
  rw [toRat_neg] at hlow
  have hrest := neg_tau_le_rest h.isFinite (abs_le.2 ⟨hlow, hhigh⟩)
  exact (not_lt_iff (isNaN_rest h.isFinite) hrest.1).2 hrest h.lt_neg_tau

/-! ## One turn -/

theorem wrapped_zero : Wrapped 0 := by decide

/-- A phase in a turn up to its end is wrapped once its end is taken for zero. -/
theorem wrapped_ite (hzero : 0 ≤ phase) : Wrapped (if phase ≥ tau then 0 else phase) := by
  split
  next => exact wrapped_zero
  next hlt => exact ⟨hzero, (not_le_iff (by decide) hzero.2.1).1 hlt⟩

theorem wrap_of_isFinite (hfinite : phase.isFinite) : wrap phase =
    let rest := if rest phase < 0 then rest phase + tau else rest phase
    if rest ≥ tau then 0 else rest := if_pos hfinite

/-- One more turn is not enough for a phase that overshoots. -/
theorem Overshoots.wrap_neg (h : Overshoots phase) : wrap phase < 0 := by
  have hneg : rest phase < 0 := Binary.lt_of_lt_of_le h.lt_neg_tau (by decide)
  have hsum : rest phase + tau < 0 := add_neg isFinite_tau h.lt_neg_tau
  have hlt : ¬tau ≤ rest phase + tau :=
    (not_le_iff (by decide) hsum.1).2 (Binary.lt_of_lt_of_le hsum (by decide))
  rw [wrap_of_isFinite h.isFinite, if_pos hneg]
  exact (if_neg hlt).symm ▸ hsum

/-- One more turn is enough for what is at most a turn below zero. -/
theorem zero_le_add_tau {a : Binary32} (hlow : -tau ≤ a) (hneg : a < 0) : 0 ≤ a + tau := by
  obtain ⟨-, hnum, hlow⟩ := le_iff.1 hlow
  obtain ⟨-, -, hneg⟩ := lt_iff.1 hneg
  rw [toRat_neg] at hlow
  rw [toRat_zero] at hneg
  have hfinite : a.isFinite := by
    refine (nearest_toRat hnum).isFinite_of_abs_le isFinite_tau ?_
    rw [abs_of_pos tau_pos]
    exact abs_le.2 ⟨hlow, by linarith [tau_pos]⟩
  refine (nearest_add hfinite isFinite_tau).of_toRat_le isNaN_zero ?_
  rw [toRat_zero]
  linarith

/-- All other phases are wrapped. -/
theorem wrapped_wrap (h : ¬Overshoots phase) : Wrapped (wrap phase) := by
  by_cases hfinite : phase.isFinite
  · have hnum := isNaN_rest hfinite
    rw [wrap_of_isFinite hfinite]
    refine wrapped_ite ?_
    split
    next hneg =>
      have hlow := (not_lt_iff hnum (by decide)).1 fun hlt => h ⟨hfinite, hlt⟩
      exact zero_le_add_tau hlow hneg
    next hnonneg => exact (not_lt_iff hnum isNaN_zero).1 hnonneg
  · rw [wrap, if_neg hfinite]
    exact wrapped_zero

theorem wrapped_wrap_iff (phase : Binary32) : Wrapped (wrap phase) ↔ ¬Overshoots phase := by
  refine ⟨fun h hover => ?_, wrapped_wrap⟩
  exact (not_le_iff isNaN_zero h.zero_le.2.1).2 hover.wrap_neg h.zero_le

/-! ## Tick after tick -/

/-- What an oscillator reads at a tick, its phase apart. -/
structure Tick where
  /-- The turns in a second. -/
  frequency : Binary32
  /-- The least output. -/
  min : Binary32
  /-- The greatest output. -/
  max : Binary32
  /-- The length of the tick. -/
  dt : Binary32

/-- The frame of the arguments of the update. -/
def Tick.frame (t : Tick) (phase : Binary32) : Frame :=
  .ofList [t.frequency, t.min, t.max, phase, 0, t.dt]

/-- The phase that a tick comes to before it is wrapped. -/
def Tick.target (t : Tick) (phase : Binary32) : Binary32 := phase + t.dt * t.frequency * tau

/-- What the update leaves as the phase. -/
def tick (w : Waveform) (phase : Binary32) (t : Tick) : Binary32 := (update w (t.frame phase)).get 3

/-- The phase after ticks, one after the other. -/
def run (w : Waveform) (phase : Binary32) (ticks : List Tick) : Binary32 :=
  ticks.foldl (tick w) phase

theorem tick_eq (w : Waveform) (phase : Binary32) (t : Tick) :
    tick w phase t = wrap (t.target phase) := by
  simp [tick, update, advance, Tick.target, Tick.frame, Frame.get_set, Frame.get_ofList,
    maxArguments]

/-- Whatever the phase was to begin with and whatever happened before, a tick leaves the phase
    wrapped unless the phase that it comes to overshoots. For that it takes more than `2²⁴`
    turns, and the phase is left below zero. -/
theorem run_wrapped_iff (w : Waveform) (phase : Binary32) (before : List Tick) (t : Tick) :
    let target := t.target (run w phase before)
    let phase' := run w phase (before ++ [t])
    (Wrapped phase' ↔ ¬Overshoots target) ∧
      (Overshoots target → phase' < 0 ∧ (limit < target ∨ target < -limit)) := by
  intro target phase'
  have htick : phase' = wrap target := by
    change run w phase (before ++ [t]) = _
    rw [run, List.foldl_concat, tick_eq]
    rfl
  rw [htick]
  exact ⟨wrapped_wrap_iff target, fun h => ⟨h.wrap_neg, h.limit_lt⟩⟩

/-- The word next to `2²⁴` turns overshoots, so that an oscillator that stands still is left at a
    phase below zero. -/
theorem not_run_wrapped_still :
    let phase := Binary32.ofBits 0x4cc90fdc
    let phase' := run .sine phase [⟨0, -1, 1, .ofBits 0x37aec33e⟩]
    phase.isFinite ∧ ¬Wrapped phase' ∧ phase' = .ofBits 0xbfdbc094 := by
  intro phase phase'
  have htick : phase' = wrap (Tick.target ⟨0, -1, 1, .ofBits 0x37aec33e⟩ phase) := tick_eq ..
  rw [htick]
  decide +kernel

/-! ## Oscillators that do not overshoot -/

/-- The phase of `2²³` turns. -/
def half : Binary32 := 8388608 * tau

/-- The word is not greater than `2²³` turns, its sign left aside, or not finite. -/
def Near (a : Binary32) : Prop := a.isFinite → -half ≤ a ∧ a ≤ half

instance (a : Binary32) : Decidable (Near a) := inferInstanceAs (Decidable (_ → _))

variable {t : Tick}

theorem toRat_limit_eq : limit.toRat = 2 * half.toRat := by
  rw [toRat_limit, toRat_tau, toRat_eq_div (a := half) (n := 52707180) (d := 1) (by decide)
    (by decide) (by decide +kernel)]
  norm_num

theorem Near.abs_toRat_le {a : Binary32} (h : Near a) (hfinite : a.isFinite) :
    |a.toRat| ≤ half.toRat := by
  obtain ⟨hlow, hhigh⟩ := h hfinite
  have hlow := (le_iff.1 hlow).2.2
  rw [toRat_neg] at hlow
  exact abs_le.2 ⟨hlow, (le_iff.1 hhigh).2.2⟩

theorem Wrapped.near (h : Wrapped phase) : Near phase := fun _ =>
  ⟨Binary.le_trans (by decide) h.zero_le,
    Binary.le_of_lt (Binary.lt_of_lt_of_le h.lt_tau (by decide))⟩

/-- Two parts that are not too great do not add up to what overshoots. -/
theorem not_overshoots_add {a b : Binary32} (ha : Near a) (hb : Near b) : ¬Overshoots (a + b) := by
  intro h
  obtain ⟨hfinite, hfinite'⟩ := isFinite_of_add h.isFinite
  have hexact := nearest_add hfinite hfinite'
  have hsum : |a.toRat + b.toRat| ≤ limit.toRat := by
    rw [toRat_limit_eq, two_mul]
    exact (abs_add_le ..).trans
      (add_le_add (ha.abs_toRat_le hfinite) (hb.abs_toRat_le hfinite'))
  obtain ⟨hlow, hhigh⟩ := abs_le.1 hsum
  have hlimit : limit.isNaN = false := by decide
  rcases h.limit_lt with hlt | hlt
  · exact (not_lt_iff hlimit hexact.isNaN_eq).2 (hexact.le_of_toRat hlimit hhigh) hlt
  · refine (not_lt_iff hexact.isNaN_eq ?_).2 (hexact.of_toRat_le ?_ ?_) hlt
    · exact (isNaN_neg limit).trans hlimit
    · exact (isNaN_neg limit).trans hlimit
    · rwa [toRat_neg]

theorem tick_wrapped (w : Waveform) (hphase : Near phase) (ht : Near (t.dt * t.frequency * tau)) :
    Wrapped (tick w phase t) := by
  rw [tick_eq]
  exact wrapped_wrap (not_overshoots_add hphase ht)

theorem near_run (w : Waveform) (hphase : Near phase) {ticks : List Tick}
    (h : ∀ t ∈ ticks, Near (t.dt * t.frequency * tau)) : Near (run w phase ticks) := by
  induction ticks generalizing phase with
  | nil => exact hphase
  | cons t ticks ih =>
    obtain ⟨ht, hticks⟩ := List.forall_mem_cons.1 h
    rw [run, List.foldl_cons]
    exact ih (tick_wrapped w hphase ht).near hticks

/-- As long as no tick goes on by more than `2²³` turns, and the phase was not beyond to begin
    with, it is wrapped after each tick. Frequencies that are infinite or no numbers do no harm. -/
theorem run_wrapped (w : Waveform) (hphase : Near phase) {before : List Tick}
    (h : ∀ u ∈ before ++ [t], Near (u.dt * u.frequency * tau)) :
    Wrapped (run w phase (before ++ [t])) := by
  obtain ⟨hbefore, ht⟩ := List.forall_mem_append.1 h
  rw [run, List.foldl_concat]
  exact tick_wrapped w (near_run w hphase hbefore) (ht t List.mem_cons_self)

end SignalGraph.Catalog.Oscillator
