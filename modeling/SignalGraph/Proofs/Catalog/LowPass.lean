import SignalGraph.Catalog.LowPass
import SignalGraph.Proofs.Binary.Accuracy

/-!
# Low-pass filters in use

A low-pass filter keeps its output from tick to tick, and all that it reads may change in the
meantime. As long as its input is between minus one and one, so is its output, with no slack
(`LowPass.run_within`): whatever the cutoff is, and whatever time does.

A tick that does not silence the filter or leave it where it is has a finite length, and goes a
fraction of the way from the previous output to the input (`LowPass.step_goes`). Only the way
itself may be rounded to one that is too long, by `2⁻²⁴` at most. So the exact sum at the end is
no more than half a step beyond one, and of the two words that are as near to that, one is even.
-/

namespace SignalGraph

namespace Binary32

open Binary

variable {a b d fraction : Binary32}

/-! ## Between minus one and one -/

/-- The word is a number from `-1` to `1`. -/
structure Within (a : Binary32) : Prop where
  neg_one_le : -1 ≤ a
  le_one : a ≤ 1

instance (a : Binary32) : Decidable a.Within :=
  decidable_of_iff (-1 ≤ a ∧ a ≤ 1) ⟨fun h => ⟨h.1, h.2⟩, fun h => ⟨h.1, h.2⟩⟩

theorem within_zero : Within 0 := by decide

theorem toRat_neg_one : (-1 : Binary32).toRat = -1 := by rw [toRat_neg, toRat_one]

theorem Within.bounds (h : a.Within) : -1 ≤ a.toRat ∧ a.toRat ≤ 1 :=
  ⟨toRat_neg_one ▸ (le_iff.1 h.neg_one_le).2.2, (le_one_iff.1 h.le_one).2⟩

theorem Within.isFinite (h : a.Within) : a.isFinite := by
  refine (nearest_toRat h.le_one.1).isFinite_of_abs_le isFinite_one ?_
  rw [toRat_one, abs_one]
  exact abs_le.2 h.bounds

/-- What is at most half a step out of bounds is rounded to what is not. -/
theorem within_of_nearest {x : ℚ} (ha : Nearest x a) (hlow : -(1 + 1 / 2 ^ 24) ≤ x)
    (hhigh : x ≤ 1 + 1 / 2 ^ 24) : a.Within :=
  ⟨nearest_one_add.neg.le ha hlow, ha.le nearest_one_add hhigh⟩

/-! ## Part of a way -/

/-- A fraction of a way ends on it, however it is rounded. -/
theorem fraction_mul_bounds (hzero : 0 ≤ fraction) (hone : fraction ≤ 1) (hd : d.isFinite) :
    (fraction * d).isFinite ∧ min 0 d.toRat ≤ (fraction * d).toRat ∧
      (fraction * d).toRat ≤ max 0 d.toRat := by
  have hfinite := isFinite_of_le_one hzero hone
  have hnonneg := (zero_le_iff.1 hzero).2
  have hle := (le_one_iff.1 hone).2
  have hexact := nearest_mul hfinite hd
  have hnum := isNaN_of_isFinite hd
  refine ⟨hexact.isFinite_of_abs_le hd ?_, ?_⟩
  · rw [abs_mul, abs_of_nonneg hnonneg]
    exact mul_le_of_le_one_left (abs_nonneg _) hle
  · rcases le_total 0 d.toRat with hd | hd
    · have hlow := hexact.of_toRat_le isNaN_zero (by rw [toRat_zero]; exact mul_nonneg hnonneg hd)
      have hhigh := hexact.le_of_toRat hnum (mul_le_of_le_one_left hd hle)
      rw [min_eq_left hd, max_eq_right hd]
      exact ⟨(zero_le_iff.1 hlow).2, (le_iff.1 hhigh).2.2⟩
    · have hlow := hexact.of_toRat_le hnum (by nlinarith)
      have hhigh := hexact.le_of_toRat isNaN_zero
        (by rw [toRat_zero]; exact mul_nonpos_of_nonneg_of_nonpos hnonneg hd)
      rw [le_iff, toRat_zero] at hhigh
      rw [min_eq_right hd, max_eq_left hd]
      exact ⟨(le_iff.1 hlow).2.2, hhigh.2.2⟩

/-- A fraction of the way between two words within bounds does not leave the bounds. -/
theorem within_add_mul_sub (ha : a.Within) (hb : b.Within) (hzero : 0 ≤ fraction)
    (hone : fraction ≤ 1) : (a + fraction * (b - a)).Within := by
  obtain ⟨ha_low, ha_high⟩ := ha.bounds
  obtain ⟨hb_low, hb_high⟩ := hb.bounds
  have hexact := nearest_sub hb.isFinite ha.isFinite
  have hway : |b.toRat - a.toRat| ≤ 2 := abs_le.2 ⟨by linarith, by linarith⟩
  have htwo : (2 : Binary32).toRat = 2 := by
    rw [toRat_eq_div (n := 2) (by decide) Nat.one_ne_zero (by decide +kernel)]
    norm_num
  have hfinite : (b - a).isFinite := by
    refine hexact.isFinite_of_abs_le (b := 2) (by decide) ?_
    rwa [htwo, abs_two]
  -- The way is rounded by half a step of the words below two.
  have hround := abs_le.1 (abs_sub_le_half (k := 23) (by decide) hexact hfinite
    (hway.trans_eq (by norm_num)))
  obtain ⟨hfinite', hlow, hhigh⟩ := fraction_mul_bounds hzero hone hfinite
  refine within_of_nearest (nearest_add ha.isFinite hfinite') ?_ ?_
  · rcases min_choice 0 (b - a).toRat with hmin | hmin <;> rw [hmin] at hlow <;> linarith
  · rcases max_choice 0 (b - a).toRat with hmax | hmax <;> rw [hmax] at hhigh <;> linarith

end Binary32

namespace Catalog.LowPass

open Binary Binary32

variable {input cutoff dt previous : Binary32}

/-! ## What a tick can do -/

/-- How a filter goes on from an output, with an input. -/
inductive Goes (input : Binary32) : Binary32 → Binary32 → Prop
  | silence {previous : Binary32} : Goes input previous 0
  | stay {previous : Binary32} : Goes input previous previous
  | approach {previous fraction : Binary32} : 0 ≤ fraction → fraction ≤ 1 →
      Goes input previous (previous + fraction * (input - previous))

/-- If the time constant and the tick add up to something finite above zero, the fraction to go
    is one. -/
theorem fraction_bounds {rc : Binary32} (hpos : ¬rc + dt ≤ 0) (hfinite : (rc + dt).isFinite) :
    0 ≤ (dt / (rc + dt)).clamp 0 1 ∧ (dt / (rc + dt)).clamp 0 1 ≤ 1 := by
  have hspan := isNaN_of_isFinite hfinite
  obtain ⟨-, -, hlt⟩ := lt_iff.1 ((not_le_iff hspan isNaN_zero).1 hpos)
  rw [toRat_zero] at hlt
  have hexact := nearest_div (isFinite_of_add hfinite).2 hfinite hlt.ne'
  exact clamp_bounds hexact.isNaN_eq (by decide)

/-- A tick silences the filter, leaves it where it is, or goes a fraction of the way to the
    input, whatever the cutoff and the length of the tick are. -/
theorem step_goes (input cutoff dt previous : Binary32) :
    Goes input previous (step input cutoff dt previous) := by
  rw [step]
  split
  next => exact .silence
  next =>
    dsimp only
    split
    next => exact .stay
    next hspan =>
      obtain ⟨hpos, hfinite⟩ := not_or.1 hspan
      obtain ⟨hzero, hone⟩ := fraction_bounds hpos (not_not.1 hfinite)
      exact .approach hzero hone

theorem Goes.within {output output' : Binary32} (h : Goes input output output')
    (hinput : input.Within) (houtput : output.Within) : output'.Within := by
  cases h with
  | silence => exact within_zero
  | stay => exact houtput
  | approach hzero hone => exact within_add_mul_sub houtput hinput hzero hone

/-! ## Tick after tick -/

/-- The update of the low-pass filter. -/
def update : Frame → Frame := (lowpass.update.get rfl).run

/-- What a filter reads at a tick, its output apart. -/
structure Tick where
  /-- The input. -/
  input : Binary32
  /-- The cutoff. -/
  cutoff : Binary32
  /-- The length of the tick. -/
  dt : Binary32

/-- The frame of the arguments of the update. -/
def Tick.frame (t : Tick) (output : Binary32) : Frame := .ofList [t.input, t.cutoff, output, t.dt]

/-- What the update leaves as the output. -/
def tick (output : Binary32) (t : Tick) : Binary32 := (update (t.frame output)).get 2

/-- The output after ticks, one after the other, the first one of which finds `output`. -/
def run (output : Binary32) (ticks : List Tick) : Binary32 := ticks.foldl tick output

theorem tick_eq (output : Binary32) (t : Tick) :
    tick output t = step t.input t.cutoff t.dt output := by
  simp [tick, update, lowpass, Tick.frame, Frame.get_set, Frame.get_ofList, maxArguments]

theorem tick_within {output : Binary32} {t : Tick} (hinput : t.input.Within)
    (houtput : output.Within) : (tick output t).Within := by
  rw [tick_eq]
  exact (step_goes ..).within hinput houtput

theorem within_run {output : Binary32} (houtput : output.Within) {ticks : List Tick}
    (h : ∀ t ∈ ticks, t.input.Within) : (run output ticks).Within := by
  induction ticks generalizing output with
  | nil => exact houtput
  | cons t ticks ih =>
    obtain ⟨ht, hticks⟩ := List.forall_mem_cons.1 h
    rw [run, List.foldl_cons]
    exact ih (tick_within ht houtput) hticks

/-- Whatever the cutoff and the length of the ticks are, from tick to tick: while the input of a
    filter that starts from zero is between minus one and one, its output is, too. -/
theorem run_within {ticks : List Tick} (h : ∀ t ∈ ticks, -1 ≤ t.input ∧ t.input ≤ 1) :
    let output := run 0 ticks
    output.isNaN = false ∧ -1 ≤ output ∧ output ≤ 1 := by
  have hrun := within_run within_zero fun t ht => ⟨(h t ht).1, (h t ht).2⟩
  exact ⟨hrun.le_one.1, hrun.neg_one_le, hrun.le_one⟩

/-- Cutoffs that are no numbers, subnormal, infinite or below zero, and ticks that take forever,
    nothing or go backwards, leave the output between minus one and one. -/
theorem run_within_wild :
    let output := run 0
      [⟨1, .signedInfinity false, 0.5⟩, ⟨-1, .ofBits 1, .invalid⟩, ⟨-1, 1, 0.25⟩,
        ⟨0.5, .ofBits 0x7f7fffff, -1⟩, ⟨-1, 0.1, .signedInfinity false⟩, ⟨1, 1000, 0.001⟩,
        ⟨1, .signedInfinity false, 0⟩]
    output.isNaN = false ∧ -1 ≤ output ∧ output ≤ 1 :=
  run_within (by decide)

end Catalog.LowPass

end SignalGraph
