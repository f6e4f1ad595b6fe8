import SignalGraph.Proofs.Binary.Arithmetic

/-!
# How near the nearest word is

No word is nearer to a number than the one that it is rounded to
(`Binary.Nearest.abs_sub_le_abs_sub`). As the multiples of a power of two are words until there are
too many of them (`Format.exists_units_eq_mul_weight`), rounding goes half a step at most
(`Binary.Nearest.abs_sub_le_half`), and whole numbers are kept (`Binary.Nearest.toRat_eq_intCast`).

Half a step beyond the last word that is allowed is still rounded to that word if it is even. So
what is only known up to such a step may be in bounds all the same (`Binary32.nearest_one_add`).
-/

namespace SignalGraph

namespace IsNearest

variable {n d q : Nat}

theorem two_mul_abs_sub_le (h : IsNearest n d q) : 2 * |(q * d : ℤ) - n| ≤ d := by
  have habove : 2 * n ≤ 2 * (q * d) + d := by linarith [h.le_above]
  have hbelow : 2 * (q * d) ≤ 2 * n + d := by linarith [h.below_le]
  rw [← Nat.cast_mul]
  rcases abs_cases (((q * d : ℕ) : ℤ) - n) with ⟨hq, _⟩ | ⟨hq, _⟩ <;> rw [hq] <;> omega

/-- No other multiple is nearer than the nearest one. -/
theorem abs_sub_le_abs_sub (h : IsNearest n d q) (j : Nat) :
    |(q * d : ℤ) - n| ≤ |(j * d : ℤ) - n| := by
  have hhalf := h.two_mul_abs_sub_le
  rcases eq_or_ne j q with rfl | hne
  · exact le_rfl
  · -- Two multiples are at least a step apart.
    have hstep : (d : ℤ) ≤ |(j * d : ℤ) - q * d| := by
      rw [← sub_mul, abs_mul, Nat.abs_cast]
      exact le_mul_of_one_le_left (Int.natCast_nonneg d)
        (Int.one_le_abs (sub_ne_zero.2 (by exact_mod_cast hne)))
    have htriangle : |(j * d : ℤ) - q * d| ≤ |(j * d : ℤ) - n| + |(q * d : ℤ) - n| := by
      rw [abs_sub_comm (q * d : ℤ)]
      exact abs_sub_le ..
    linarith

end IsNearest

theorem cast_weight (n : Nat) : (weight n : ℚ) = 2 ^ n := by
  change ((2 ^ n : ℕ) : ℚ) = 2 ^ n
  push_cast
  rfl

namespace Format

variable {f : Format} {n d : Nat} {x : ℚ}

/-! ## Magnitudes -/

theorem units_steps (hd : 0 < d) : f.units (f.steps n d) =
    divNearest n (d * weight (f.scale n d)) * weight (f.scale n d) := by
  have hle := steps_le (f := f) (n := n) hd
  rw [steps, Nat.add_mul] at hle
  refine units_of_scale _ (by omega) fun hs => ?_
  have hge := le_steps hd hs
  rw [steps, Nat.succ_mul] at hge
  omega

/-- No other magnitude is nearer to a quotient than the one that it is rounded to. -/
theorem steps_abs_sub_le (hd : 0 < d) (m : Nat) :
    |(f.units (f.steps n d) * d : ℤ) - n| ≤ |(f.units m * d : ℤ) - n| := by
  have hnearest := isNearest_divNearest (n := n) (Nat.mul_pos hd (weight_pos (f.scale n d)))
  have hmultiple : ∀ j : Nat, |(f.units (f.steps n d) * d : ℤ) - n| ≤
      |((j * weight (f.scale n d) : ℕ) * d : ℤ) - n| := by
    intro j
    have hle := hnearest.abs_sub_le_abs_sub j
    rw [units_steps hd]
    push_cast at hle ⊢
    rwa [mul_right_comm, mul_assoc, mul_right_comm (j : ℤ), mul_assoc (j : ℤ)]
  by_cases hm : (f.scale n d + 1) * weight f.fractionBits ≤ m
  · -- From the least magnitude of the scale on, all are multiples of its step.
    obtain ⟨e, r, hr, rfl⟩ := f.exists_exponent m
    have he : f.scale n d < e := by
      by_contra hle
      have hmono := Nat.mul_le_mul_right (weight f.fractionBits) (Nat.not_lt.1 hle)
      rw [Nat.succ_mul] at hm
      omega
    obtain ⟨t, rfl⟩ := Nat.exists_eq_add_of_lt he
    rw [units_of_exponent _ hr, if_neg (Nat.succ_ne_zero _), Nat.add_sub_cancel, weight_add]
    convert hmultiple ((weight f.fractionBits + r) * weight t) using 5
    ring
  · by_cases hs : 0 < f.scale n d
    · -- Below it, the least magnitude of the scale is nearer.
      have hleast : f.units ((f.scale n d + 1) * weight f.fractionBits) =
          weight f.fractionBits * weight (f.scale n d) := by
        rw [Nat.succ_mul]
        exact units_of_scale _ (by omega) fun _ => le_rfl
      have hlt := strictMono_units (f := f) (Nat.not_le.1 hm)
      rw [hleast] at hlt
      have hbelow := mul_weight_scale_le hd hs
      have hle : f.units m * d ≤ weight f.fractionBits * weight (f.scale n d) * d :=
        Nat.mul_le_mul_right d hlt.le
      have hle' : weight f.fractionBits * weight (f.scale n d) * d ≤ n := by
        rwa [mul_assoc, mul_comm (weight (f.scale n d))]
      refine (hmultiple (weight f.fractionBits)).trans ?_
      rw [← Nat.cast_mul, ← Nat.cast_mul, abs_of_nonpos (by omega), abs_of_nonpos (by omega)]
      omega
    · have hle := hmultiple (f.units m)
      rwa [Nat.eq_zero_of_not_pos hs, show weight 0 = 1 from rfl, Nat.mul_one] at hle

/-! ## Numbers -/

/-- How far a number of units is from a number, its sign left aside. -/
theorem abs_div_sub_abs (u : Nat) (x : ℚ) : abs ((u : ℚ) / f.one - |x|) =
    (|(u * x.den : ℤ) - (x.num.natAbs * f.one : ℕ)| : ℤ) / (x.den * f.one) := by
  have hone : (0 : ℚ) < f.one := by exact_mod_cast one_pos
  have hden : (0 : ℚ) < x.den := by exact_mod_cast x.pos
  have hpos : (0 : ℚ) < x.den * f.one := mul_pos hden hone
  have hexact : (u : ℚ) / f.one - |x| =
      ((u * x.den : ℤ) - (x.num.natAbs * f.one : ℕ) : ℤ) / (x.den * f.one) := by
    rw [abs_eq_div]
    generalize x.num.natAbs = k
    push_cast
    field_simp
  rw [hexact, abs_div, abs_of_pos hpos, Int.cast_abs]

/-- No other magnitude is nearer to a number than the one that it is rounded to. -/
theorem nearestMagnitude_abs_sub_le (hfinite : f.nearestMagnitude x < f.infinity) (m : Nat) :
    abs ((f.units (f.nearestMagnitude x) : ℚ) / f.one - |x|) ≤
      abs ((f.units m : ℚ) / f.one - |x|) := by
  have hsteps : f.nearestMagnitude x = f.steps (x.num.natAbs * f.one) x.den := by
    rw [nearestMagnitude, round_eq] at hfinite ⊢
    omega
  rw [abs_div_sub_abs, abs_div_sub_abs, hsteps]
  exact div_le_div_of_nonneg_right (Int.cast_le.2 (steps_abs_sub_le x.pos m)) (by positivity)

/-- Where values are not further apart than a step, rounding goes half a step at most. -/
theorem nearestMagnitude_abs_sub_le_half (hfinite : f.nearestMagnitude x < f.infinity) {s : Nat}
    (hx : |x| ≤ 2 * weight f.fractionBits * weight s / f.one) :
    abs ((f.units (f.nearestMagnitude x) : ℚ) / f.one - |x|) ≤ weight s / (2 * f.one) := by
  have hone : (0 : ℚ) < f.one := by exact_mod_cast one_pos
  have hden : (0 : ℚ) < x.den := by exact_mod_cast x.pos
  have hpos : 0 < x.den * weight s := Nat.mul_pos x.pos (weight_pos s)
  have hnearest := isNearest_divNearest (n := x.num.natAbs * f.one) hpos
  -- The number of steps nearest to the number is not too great, so that it is a value.
  have hk : divNearest (x.num.natAbs * f.one) (x.den * weight s) ≤ 2 * weight f.fractionBits := by
    rw [← divNearest_mul (2 * weight f.fractionBits) hpos]
    refine divNearest_mono hpos hpos (Nat.mul_le_mul_right _ ?_)
    rw [abs_eq_div, div_le_div_iff₀ hden hone] at hx
    have hnat : x.num.natAbs * f.one ≤ 2 * weight f.fractionBits * weight s * x.den := by
      exact_mod_cast hx
    linarith
  obtain ⟨m, hm⟩ := f.exists_units_eq_mul_weight s hk
  refine (nearestMagnitude_abs_sub_le hfinite m).trans ?_
  have hhalf := hnearest.two_mul_abs_sub_le
  rw [abs_div_sub_abs, hm, div_le_div_iff₀ (mul_pos hden hone) (by positivity), Nat.cast_mul,
    mul_assoc, ← Nat.cast_mul, mul_comm (weight s)]
  generalize |(_ : ℤ) - _| = z at hhalf ⊢
  have hhalf : 2 * (z : ℚ) ≤ x.den * weight s := by exact_mod_cast hhalf
  calc (z : ℚ) * (2 * f.one) = 2 * z * f.one := by ring
    _ ≤ x.den * weight s * f.one := by gcongr
    _ = weight s * (x.den * f.one) := by ring

end Format

namespace Binary

variable {f : Format} {a b : Binary f} {x : ℚ} {s : Nat}

theorem natAbs_signed (s : Bool) (m : Nat) : (signed s m).natAbs = m := by
  cases s <;> simp [signed]

theorem abs_toRat (a : Binary f) : |a.toRat| = f.units a.magnitude / f.one := by
  rw [toRat, abs_div, abs_of_pos (one_pos_rat f), ← Int.cast_abs, Int.abs_eq_natAbs, natAbs_signed,
    Int.cast_natCast]

namespace Nearest

theorem magnitude_eq (ha : Nearest x a) : a.magnitude = f.nearestMagnitude x := by
  have hrank := congrArg Int.natAbs ha.rank_eq
  rwa [rank, place, natAbs_signed, natAbs_signed] at hrank

theorem nearestMagnitude_lt (ha : Nearest x a) (hfinite : a.isFinite) :
    f.nearestMagnitude x < f.infinity := by
  rw [← ha.magnitude_eq]
  simpa [isFinite] using hfinite

/-- What is not greater than a word, its sign left aside, is not rounded to a greater word. -/
theorem magnitude_le (ha : Nearest x a) (hb : b.isNaN = false) (h : |x| ≤ |b.toRat|) :
    a.magnitude ≤ b.magnitude := by
  rw [ha.magnitude_eq, (nearest_toRat hb).magnitude_eq]
  exact Format.nearestMagnitude_mono h

theorem isFinite_of_abs_le (ha : Nearest x a) (hb : b.isFinite) (h : |x| ≤ |b.toRat|) :
    a.isFinite := by
  have hle := ha.magnitude_le (isNaN_of_isFinite hb) h
  simp only [isFinite, decide_eq_true_eq] at hb ⊢
  exact hle.trans_lt hb

theorem abs_toRat_le (ha : Nearest x a) (hb : b.isNaN = false) (h : |x| ≤ |b.toRat|) :
    |a.toRat| ≤ |b.toRat| := by
  rw [abs_toRat, abs_toRat, div_le_div_iff_of_pos_right (one_pos_rat f), Nat.cast_le,
    Format.strictMono_units.le_iff_le]
  exact ha.magnitude_le hb h

theorem abs_toRat_sub (ha : Nearest x a) :
    |a.toRat - x| = abs ((f.units (f.nearestMagnitude x) : ℚ) / f.one - |x|) := by
  rw [ha.toRat_eq, signed]
  by_cases hx : x < 0
  · rw [abs_of_neg hx, decide_eq_true hx, if_pos rfl, Int.cast_neg, Int.cast_natCast, ← abs_neg]
    congr 1
    ring
  · rw [abs_of_nonneg (not_lt.1 hx), decide_eq_false hx, if_neg Bool.false_ne_true,
      Int.cast_natCast]

/-- No word is nearer to a number than the one that it is rounded to. -/
theorem abs_sub_le_abs_sub (ha : Nearest x a) (hfinite : a.isFinite) (b : Binary f) :
    |a.toRat - x| ≤ |b.toRat - x| := by
  rw [ha.abs_toRat_sub]
  calc abs ((f.units (f.nearestMagnitude x) : ℚ) / f.one - |x|)
      ≤ abs ((f.units b.magnitude : ℚ) / f.one - |x|) :=
        Format.nearestMagnitude_abs_sub_le (ha.nearestMagnitude_lt hfinite) b.magnitude
    _ = abs (|b.toRat| - |x|) := by rw [abs_toRat]
    _ ≤ |b.toRat - x| := abs_abs_sub_abs_le_abs_sub ..

/-- Where words are not further apart than a step, rounding goes half a step at most. -/
theorem abs_sub_le_half (ha : Nearest x a) (hfinite : a.isFinite)
    (hx : |x| ≤ 2 * weight f.fractionBits * weight s / f.one) :
    |a.toRat - x| ≤ weight s / (2 * f.one) :=
  ha.abs_toRat_sub ▸
    Format.nearestMagnitude_abs_sub_le_half (ha.nearestMagnitude_lt hfinite) hx

/-- Whole numbers are kept until there are too many of them. -/
theorem toRat_eq_intCast {n : ℤ} (ha : Nearest n a) (hfinite : a.isFinite)
    (hn : n.natAbs ≤ 2 * weight f.fractionBits) : a.toRat = n := by
  obtain ⟨m, hm⟩ := f.exists_units_eq_mul_weight f.places hn
  have habs : |(n : ℚ)| = f.units m / f.one := by
    rw [hm, Nat.cast_mul, ← Int.cast_abs, Int.abs_eq_natAbs, Int.cast_natCast]
    exact (mul_div_cancel_right₀ _ (one_pos_rat f).ne').symm
  have hle := Format.nearestMagnitude_abs_sub_le (ha.nearestMagnitude_lt hfinite) m
  rw [← ha.abs_toRat_sub, habs, sub_self, abs_zero] at hle
  exact sub_eq_zero.1 (abs_nonpos_iff.1 hle)

theorem neg (ha : Nearest x a) : Nearest (-x) (-a) := by
  have hrank : (-a).rank = -a.rank := by
    change (ofParts (!a.negative) a.magnitude : Binary f).rank = _
    rw [rank_ofParts _ (magnitude_lt a), rank]
    cases a.negative <;> simp [signed]
  have hmagnitude : f.nearestMagnitude (-x) = f.nearestMagnitude x :=
    le_antisymm (Format.nearestMagnitude_mono (abs_neg x).le)
      (Format.nearestMagnitude_mono (abs_neg x).ge)
  refine ⟨(isNaN_neg a).trans ha.isNaN_eq, ?_⟩
  rw [hrank, ha.rank_eq, place, place, hmagnitude]
  rcases lt_trichotomy x 0 with hx | rfl | hx
  · simp [signed, hx, hx.le]
  · simp [signed, Format.nearestMagnitude, Format.round_zero]
  · simp [signed, hx, hx.le]

end Nearest

end Binary

/-! ## Words of 32 bits -/

namespace Binary32

open Binary

variable {a b : Binary32} {x : ℚ}

/-- What is not greater than so many steps is rounded by half a step at most. -/
theorem abs_sub_le_half {k : Nat} (hk : k ≤ 149) (ha : Nearest x a) (hfinite : a.isFinite)
    (hx : |x| ≤ 2 ^ 24 / 2 ^ k) : |a.toRat - x| ≤ 1 / 2 ^ (k + 1) := by
  have hone : ((weight (149 - k) : ℕ) : ℚ) / Format.single.one = 1 / 2 ^ k := by
    have hsplit : Format.single.one = weight k * weight (149 - k) := by
      rw [← weight_add, Nat.add_sub_cancel' hk]
      rfl
    have hpos : (0 : ℚ) < weight (149 - k) := by exact_mod_cast weight_pos _
    rw [hsplit, Nat.cast_mul, div_mul_cancel_right₀ hpos.ne', one_div, cast_weight]
  refine (ha.abs_sub_le_half (s := 149 - k) hfinite (hx.trans_eq ?_)).trans_eq ?_
  · rw [mul_div_assoc, hone, ← mul_div_assoc, mul_one]
    norm_num [weight, Format.single]
  · rw [mul_comm (2 : ℚ), ← div_div, hone, div_div, ← pow_succ]

/-- Up to here, all whole numbers are words. -/
theorem toRat_two_pow_24 : (16777216 : Binary32).toRat = 2 ^ 24 := by
  rw [toRat_eq_div (n := 16777216) (by decide) Nat.one_ne_zero (by decide +kernel)]
  norm_num

theorem isFinite_of_abs_le (ha : Nearest x a) (hx : |x| ≤ 2 ^ 24) : a.isFinite := by
  refine ha.isFinite_of_abs_le (b := 16777216) (by decide) ?_
  rwa [toRat_two_pow_24, abs_of_pos (by norm_num : (0 : ℚ) < 2 ^ 24)]

theorem abs_toRat_le (ha : Nearest x a) (hx : |x| ≤ 2 ^ 24) : |a.toRat| ≤ 2 ^ 24 := by
  have hle := ha.abs_toRat_le (b := 16777216) (by decide)
    (by rwa [toRat_two_pow_24, abs_of_pos (by norm_num : (0 : ℚ) < 2 ^ 24)])
  rwa [toRat_two_pow_24, abs_of_pos (by norm_num : (0 : ℚ) < 2 ^ 24)] at hle

theorem abs_floor_le (hx : |x| ≤ 2 ^ 24) : |⌊x⌋| ≤ 2 ^ 24 := by
  obtain ⟨hlow, hhigh⟩ := abs_le.1 hx
  refine abs_le.2 ⟨Int.le_floor.2 ?_, ?_⟩
  · exact_mod_cast hlow
  · exact_mod_cast (Int.floor_le x).trans hhigh

/-- A whole number below a word is a word, if there are not too many of them. -/
theorem toRat_floor (ha : a.isFinite) (hle : |a.toRat| ≤ 2 ^ 24) :
    a.floor.isFinite ∧ a.floor.toRat = ⌊a.toRat⌋ := by
  have hfloor := abs_floor_le hle
  have hexact := nearest_floor ha
  have hfinite : a.floor.isFinite := isFinite_of_abs_le hexact (by exact_mod_cast hfloor)
  refine ⟨hfinite, hexact.toRat_eq_intCast hfinite ?_⟩
  rw [Int.abs_eq_natAbs] at hfloor
  exact_mod_cast hfloor

/-- Half a step above one, the even of two words is one. -/
theorem nearest_one_add : Nearest (1 + 1 / 2 ^ 24) (1 : Binary32) := by
  have hrounded := nearest_rounded (f := .single) false (weight 149 + weight 125) Nat.one_pos
  have hone : (rounded false (weight 149 + weight 125) 1 : Binary32) = 1 := by decide +kernel
  rw [hone] at hrounded
  convert hrounded using 1
  norm_num [signed, weight, Format.one, Format.places, Format.single]

end Binary32

end SignalGraph
