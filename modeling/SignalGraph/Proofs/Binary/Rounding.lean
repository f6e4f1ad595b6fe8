import Mathlib.Data.Nat.Log
import Mathlib.Order.Monotone.Basic
import Mathlib.Tactic.Linarith
import Mathlib.Tactic.Ring
import SignalGraph.Binary.Format

/-!
# Rounding is monotone

What can be said of floating-point rounding without the bits of a word: a greater quotient is
never rounded to a smaller magnitude (`Format.round_mono`), and the value of a magnitude is
rounded to that magnitude (`Format.round_units`). Both together say that no value of the format
lies between an exact result and the rounded one.

Of whole numbers `divNearest` is the nearest one by `IsNearest`, which leaves no choice, not even
halfway between two of them (`IsNearest.mono`). From there on the magnitudes of one scale are
handled together: they lie between two powers of two, and a greater scale begins where a
smaller one ends (`Format.steps_le`, `Format.le_steps`).
-/

namespace SignalGraph

variable {n d q n₁ d₁ q₁ n₂ d₂ q₂ : Nat}

/-! ## Weights -/

theorem weight_pos (n : Nat) : 0 < weight n := Nat.two_pow_pos n

theorem weight_succ (n : Nat) : weight (n + 1) = 2 * weight n := Nat.pow_succ'

theorem weight_add (m n : Nat) : weight (m + n) = weight m * weight n := Nat.pow_add ..

theorem weight_log2_le (hn : n ≠ 0) : weight n.log2 ≤ n := Nat.log2_self_le hn

theorem lt_weight_log2 (n : Nat) : n < weight (n.log2 + 1) := Nat.lt_log2_self

/-! ## The nearest whole number -/

/-- `q` is as near to `n / d` as a whole number can be, and even if it shares that with
    another one. -/
structure IsNearest (n d q : Nat) : Prop where
  le_above : 2 * n ≤ (2 * q + 1) * d
  below_le : 2 * q * d ≤ 2 * n + d
  even_of_tie : 2 * n = (2 * q + 1) * d ∨ 2 * q * d = 2 * n + d → q % 2 = 0

theorem isNearest_divNearest (hd : 0 < d) : IsNearest n d (divNearest n d) := by
  have hn := Nat.div_add_mod n d
  have hr := Nat.mod_lt n hd
  rw [divNearest]
  generalize n / d = q at *
  generalize n % d = r at *
  have hq : (2 * q + 1) * d = 2 * (d * q) + d := by ring
  have hq' : 2 * q * d = 2 * (d * q) := by ring
  have hnext : (2 * (q + 1) + 1) * d = 2 * (d * q) + 3 * d := by ring
  have hnext' : 2 * (q + 1) * d = 2 * (d * q) + 2 * d := by ring
  split
  · exact ⟨by omega, by omega, by omega⟩
  · exact ⟨by omega, by omega, by omega⟩

/-- A greater quotient has no smaller nearest number: of two numbers that share a tie only one
    is even. -/
theorem IsNearest.mono (h₁ : IsNearest n₁ d₁ q₁) (h₂ : IsNearest n₂ d₂ q₂) (hd₁ : 0 < d₁)
    (hd₂ : 0 < d₂) (h : n₁ * d₂ ≤ n₂ * d₁) : q₁ ≤ q₂ := by
  by_contra hlt
  obtain ⟨p, rfl⟩ : ∃ p, q₁ = p + 1 := ⟨q₁ - 1, by omega⟩
  have hbelow : (2 * p + 1) * d₁ ≤ 2 * n₁ := by linarith [h₁.below_le]
  have habove : 2 * n₂ ≤ (2 * q₂ + 1) * d₂ := h₂.le_above
  have hgap : (2 * q₂ + 1) * (d₁ * d₂) ≤ (2 * p + 1) * (d₁ * d₂) :=
    Nat.mul_le_mul_right _ (by omega)
  have hbelow' := Nat.mul_le_mul_right d₂ hbelow
  have habove' := Nat.mul_le_mul_right d₁ habove
  -- Both quotients lie between the two numbers, so these are neighbours and both ties.
  have htie₁ : (2 * p + 1) * d₁ = 2 * n₁ := Nat.eq_of_mul_eq_mul_right hd₂ (by linarith)
  have htie₂ : 2 * n₂ = (2 * q₂ + 1) * d₂ := Nat.eq_of_mul_eq_mul_right hd₁ (by linarith)
  have hnext : 2 * q₂ + 1 = 2 * p + 1 :=
    Nat.eq_of_mul_eq_mul_right (Nat.mul_pos hd₁ hd₂) (by linarith)
  have heven₁ := h₁.even_of_tie (.inr (by linarith))
  have heven₂ := h₂.even_of_tie (.inl htie₂)
  omega

theorem divNearest_mono (hd₁ : 0 < d₁) (hd₂ : 0 < d₂) (h : n₁ * d₂ ≤ n₂ * d₁) :
    divNearest n₁ d₁ ≤ divNearest n₂ d₂ :=
  (isNearest_divNearest hd₁).mono (isNearest_divNearest hd₂) hd₁ hd₂ h

theorem divNearest_mul (n : Nat) (hd : 0 < d) : divNearest (n * d) d = n := by
  simp [divNearest, Nat.mul_div_cancel n hd, hd]

/-! ## Values of magnitudes -/

namespace Format

variable {f : Format} {m m' s : Nat}

theorem one_pos : 0 < f.one := weight_pos _

/-- The magnitude that is made up of an exponent and a fraction. -/
theorem units_of_exponent (e : Nat) {r : Nat} (hr : r < weight f.fractionBits) :
    f.units (e * weight f.fractionBits + r) =
      if e = 0 then r else (weight f.fractionBits + r) * weight (e - 1) := by
  have hdiv : (e * weight f.fractionBits + r) / weight f.fractionBits = e := by
    rw [Nat.mul_comm, Nat.mul_add_div (weight_pos _), Nat.div_eq_of_lt hr, Nat.add_zero]
  have hmod : (e * weight f.fractionBits + r) % weight f.fractionBits = r := by
    rw [Nat.mul_comm, Nat.mul_add_mod, Nat.mod_eq_of_lt hr]
  rw [units, hdiv, hmod]

theorem exists_exponent (f : Format) (m : Nat) :
    ∃ e r, r < weight f.fractionBits ∧ m = e * weight f.fractionBits + r :=
  ⟨m / weight f.fractionBits, m % weight f.fractionBits, Nat.mod_lt _ (weight_pos _),
    (Nat.div_add_mod' ..).symm⟩

/-- Each magnitude has a greater value than the one before it. -/
theorem strictMono_units : StrictMono f.units := by
  refine strictMono_nat_of_lt_succ fun m => ?_
  obtain ⟨e, r, hr, rfl⟩ := f.exists_exponent m
  rw [units_of_exponent e hr]
  by_cases hcarry : r + 1 < weight f.fractionBits
  · rw [Nat.add_assoc, units_of_exponent e hcarry]
    split
    · omega
    · exact Nat.mul_lt_mul_of_pos_right (by omega) (weight_pos _)
  · -- The carry out of the fraction is the next power of two.
    have hnext : e * weight f.fractionBits + r + 1 = (e + 1) * weight f.fractionBits + 0 := by
      rw [Nat.add_mul]
      omega
    rw [hnext, units_of_exponent (e + 1) (weight_pos _), if_neg (Nat.succ_ne_zero e),
      Nat.add_sub_cancel, Nat.add_zero]
    cases e with
    | zero => simpa [weight] using hr
    | succ e =>
      rw [if_neg (Nat.succ_ne_zero e), Nat.add_sub_cancel, weight_succ, ← Nat.mul_assoc]
      exact Nat.mul_lt_mul_of_pos_right (by omega) (weight_pos _)

theorem units_zero : f.units 0 = 0 := by
  simpa using f.units_of_exponent 0 (weight_pos f.fractionBits)

/-! ## Steps -/

/-- The bits of a quotient that are more than the fraction holds. -/
def scale (f : Format) (num den : Nat) : Nat := (num / den).log2 - f.fractionBits

/-- The magnitude that a quotient is rounded to, if magnitudes have no upper end. -/
def steps (f : Format) (num den : Nat) : Nat :=
  f.scale num den * weight f.fractionBits + divNearest num (den * weight (f.scale num den))

theorem round_eq (f : Format) (num den : Nat) :
    f.round num den = min (f.steps num den) f.infinity :=
  rfl

theorem round_le_infinity (f : Format) (num den : Nat) : f.round num den ≤ f.infinity :=
  Nat.min_le_right ..

theorem scale_mono (hd₁ : 0 < d₁) (hd₂ : 0 < d₂) (h : n₁ * d₂ ≤ n₂ * d₁) :
    f.scale n₁ d₁ ≤ f.scale n₂ d₂ := by
  have hq : n₁ / d₁ ≤ n₂ / d₂ := by
    refine (Nat.le_div_iff_mul_le hd₂).2 (Nat.le_of_mul_le_mul_right ?_ hd₁)
    calc n₁ / d₁ * d₂ * d₁ = n₁ / d₁ * d₁ * d₂ := Nat.mul_right_comm ..
      _ ≤ n₁ * d₂ := Nat.mul_le_mul_right _ (Nat.div_mul_le_self ..)
      _ ≤ n₂ * d₁ := h
  rw [scale, scale, Nat.log2_eq_log_two, Nat.log2_eq_log_two]
  exact Nat.sub_le_sub_right (Nat.log_mono_right hq) _

/-- If there are bits to be rounded away, the quotient is not below the least of its scale. -/
theorem mul_weight_scale_le (hd : 0 < d) (hs : 0 < f.scale n d) :
    weight f.fractionBits * (d * weight (f.scale n d)) ≤ n := by
  have hlog : weight (f.fractionBits + f.scale n d) ≤ n / d := by
    have hsum : f.fractionBits + f.scale n d = (n / d).log2 := by
      rw [scale] at hs ⊢
      omega
    rw [hsum]
    refine weight_log2_le fun hzero => ?_
    rw [scale, hzero, Nat.log2_zero, Nat.zero_sub] at hs
    exact hs.false
  rw [Nat.le_div_iff_mul_le hd] at hlog
  calc weight f.fractionBits * (d * weight (f.scale n d))
      = weight (f.fractionBits + f.scale n d) * d := by rw [weight_add]; ring
    _ ≤ n := hlog

/-- The magnitudes of one scale end with a power of two … -/
theorem steps_le (hd : 0 < d) : f.steps n d ≤ (f.scale n d + 2) * weight f.fractionBits := by
  have hbits : n < weight (f.fractionBits + 1) * (d * weight (f.scale n d)) := by
    have hlog : n / d < weight (f.fractionBits + f.scale n d + 1) := by
      refine (lt_weight_log2 _).trans_le (Nat.pow_le_pow_right Nat.two_pos ?_)
      rw [scale]
      omega
    rw [Nat.div_lt_iff_lt_mul hd] at hlog
    calc n < weight (f.fractionBits + f.scale n d + 1) * d := hlog
      _ = weight (f.fractionBits + 1) * (d * weight (f.scale n d)) := by
        rw [Nat.add_right_comm, weight_add]
        ring
  have hpos : 0 < d * weight (f.scale n d) := Nat.mul_pos hd (weight_pos _)
  have hnearest : divNearest n (d * weight (f.scale n d)) ≤ 2 * weight f.fractionBits := by
    rw [← weight_succ, ← divNearest_mul (weight (f.fractionBits + 1)) hpos]
    exact divNearest_mono hpos hpos (Nat.mul_le_mul_right _ hbits.le)
  rw [steps, Nat.add_mul]
  omega

/-- … and those of the next one begin with it. -/
theorem le_steps (hd : 0 < d) (hs : 0 < f.scale n d) :
    (f.scale n d + 1) * weight f.fractionBits ≤ f.steps n d := by
  have hbits := mul_weight_scale_le hd hs
  have hpos : 0 < d * weight (f.scale n d) := Nat.mul_pos hd (weight_pos _)
  have hnearest : weight f.fractionBits ≤ divNearest n (d * weight (f.scale n d)) := by
    rw [← divNearest_mul (weight f.fractionBits) hpos]
    exact divNearest_mono hpos hpos (Nat.mul_le_mul_right _ hbits)
  rw [steps, Nat.add_mul]
  omega

theorem steps_mono (hd₁ : 0 < d₁) (hd₂ : 0 < d₂) (h : n₁ * d₂ ≤ n₂ * d₁) :
    f.steps n₁ d₁ ≤ f.steps n₂ d₂ := by
  rcases (scale_mono (f := f) hd₁ hd₂ h).eq_or_lt with hscale | hscale
  · rw [steps, steps, hscale]
    refine Nat.add_le_add_left (divNearest_mono ?_ ?_ ?_) _
    · exact Nat.mul_pos hd₁ (weight_pos _)
    · exact Nat.mul_pos hd₂ (weight_pos _)
    · rw [← Nat.mul_assoc, ← Nat.mul_assoc]
      exact Nat.mul_le_mul_right _ h
  · calc f.steps n₁ d₁ ≤ (f.scale n₁ d₁ + 2) * weight f.fractionBits := steps_le hd₁
      _ ≤ (f.scale n₂ d₂ + 1) * weight f.fractionBits := Nat.mul_le_mul_right _ (by omega)
      _ ≤ f.steps n₂ d₂ := le_steps hd₂ (by omega)

/-- A greater quotient is never rounded to a smaller magnitude. -/
theorem round_mono (hd₁ : 0 < d₁) (hd₂ : 0 < d₂) (h : n₁ * d₂ ≤ n₂ * d₁) :
    f.round n₁ d₁ ≤ f.round n₂ d₂ :=
  min_le_min_right _ (steps_mono hd₁ hd₂ h)

theorem round_congr (hd₁ : 0 < d₁) (hd₂ : 0 < d₂) (h : n₁ * d₂ = n₂ * d₁) :
    f.round n₁ d₁ = f.round n₂ d₂ :=
  le_antisymm (round_mono hd₁ hd₂ h.le) (round_mono hd₂ hd₁ h.ge)

theorem scale_units (e : Nat) {r : Nat} (hr : r < weight f.fractionBits) :
    f.scale (f.units (e * weight f.fractionBits + r)) 1 = e - 1 := by
  rw [scale, Nat.div_one, units_of_exponent e hr]
  cases e with
  | zero =>
    rw [if_pos rfl]
    rcases Nat.eq_zero_or_pos r with rfl | hpos
    · simp
    · have := (Nat.log2_lt hpos.ne').2 hr
      omega
  | succ e =>
    rw [if_neg (Nat.succ_ne_zero e), Nat.add_sub_cancel]
    have hlog : ((weight f.fractionBits + r) * weight e).log2 = f.fractionBits + e := by
      rw [Nat.log2_eq_log_two]
      refine Nat.log_eq_of_pow_le_of_lt_pow ?_ ?_
      · calc weight (f.fractionBits + e) = weight f.fractionBits * weight e := weight_add ..
          _ ≤ (weight f.fractionBits + r) * weight e := Nat.mul_le_mul_right _ (by omega)
      · calc (weight f.fractionBits + r) * weight e
            < weight (f.fractionBits + 1) * weight e :=
              Nat.mul_lt_mul_of_pos_right (by rw [weight_succ]; omega) (weight_pos _)
          _ = weight (f.fractionBits + e + 1) := by rw [← weight_add, Nat.add_right_comm]
    omega

/-- The value of a magnitude is rounded to that magnitude. -/
theorem round_units (hm : m ≤ f.infinity) : f.round (f.units m) 1 = m := by
  rw [round_eq, steps]
  obtain ⟨e, r, hr, rfl⟩ := f.exists_exponent m
  rw [scale_units e hr, units_of_exponent e hr, Nat.one_mul]
  cases e with
  | zero => simpa [weight, divNearest_one] using hm
  | succ e =>
    rw [if_neg (Nat.succ_ne_zero e), Nat.add_sub_cancel, divNearest_mul _ (weight_pos _)]
    rw [Nat.succ_mul] at hm ⊢
    omega

theorem round_zero (hd : 0 < d) : f.round 0 d = 0 := by
  have hunits : 0 * 1 = f.units 0 * d := by rw [units_zero, Nat.zero_mul, Nat.zero_mul]
  rw [round_congr hd Nat.one_pos hunits, round_units (Nat.zero_le _)]

/-- The magnitudes of a scale count steps of one size. -/
theorem units_of_scale (s : Nat) {k : Nat} (hk : k ≤ 2 * weight f.fractionBits)
    (hs : 0 < s → weight f.fractionBits ≤ k) :
    f.units (s * weight f.fractionBits + k) = k * weight s := by
  rcases Nat.lt_or_ge k (weight f.fractionBits) with hlt | hge
  · obtain rfl : s = 0 := by
      by_contra hne
      exact hlt.not_ge (hs (Nat.pos_of_ne_zero hne))
    exact (units_of_exponent 0 hlt).trans (Nat.mul_one k).symm
  · rcases Nat.lt_or_ge k (2 * weight f.fractionBits) with hlt | hge'
    · obtain ⟨r, rfl⟩ := Nat.exists_eq_add_of_le hge
      have hcarry : s * weight f.fractionBits + (weight f.fractionBits + r) =
          (s + 1) * weight f.fractionBits + r := by ring
      rw [hcarry, units_of_exponent (s + 1) (by omega), if_neg (Nat.succ_ne_zero s),
        Nat.add_sub_cancel]
    · obtain rfl : k = 2 * weight f.fractionBits := by omega
      have hcarry : s * weight f.fractionBits + 2 * weight f.fractionBits =
          (s + 2) * weight f.fractionBits + 0 := by ring
      rw [hcarry, units_of_exponent (s + 2) (weight_pos _), if_neg (by omega),
        show s + 2 - 1 = s + 1 from rfl, weight_succ]
      ring

/-- As many steps of one size as the fraction holds are values. -/
theorem exists_units_eq_mul_weight (f : Format) (s : Nat) {k : Nat}
    (hk : k ≤ 2 * weight f.fractionBits) : ∃ m, f.units m = k * weight s := by
  induction s generalizing k with
  | zero => exact ⟨_, units_of_scale 0 hk fun hs => absurd hs (Nat.lt_irrefl 0)⟩
  | succ s ih =>
    rcases Nat.lt_or_ge k (weight f.fractionBits) with hlt | hge
    · -- Few steps are twice as many of half the size.
      obtain ⟨m, hm⟩ := ih (k := 2 * k) (by omega)
      refine ⟨m, hm.trans ?_⟩
      rw [weight_succ]
      ring
    · exact ⟨_, units_of_scale (s + 1) hk fun _ => hge⟩

/-- Of a quotient of at least one unit, rounding loses less than a half. -/
theorem lt_two_mul_units_round (hd : 0 < d) (hn : d ≤ n) (hfinite : f.round n d < f.infinity) :
    n < 2 * f.units (f.round n d) * d := by
  obtain ⟨m, hm⟩ := f.exists_units_eq_mul_weight (n / d).log2 (k := 1)
    (Nat.mul_pos Nat.two_pos (weight_pos _))
  rw [Nat.one_mul] at hm
  have hq : n / d ≠ 0 := (Nat.div_pos hn hd).ne'
  -- The greatest power of two that is not above the quotient is not above what it is rounded to.
  have hbelow : f.units m ≤ f.units (f.round n d) := by
    refine strictMono_units.monotone ?_
    have hle : min m f.infinity ≤ f.round n d := by
      rw [← round_units (f := f) (Nat.min_le_right m f.infinity)]
      refine round_mono Nat.one_pos hd ?_
      calc f.units (min m f.infinity) * d ≤ f.units m * d :=
            Nat.mul_le_mul_right _ (strictMono_units.monotone (Nat.min_le_left ..))
        _ ≤ n / d * d := Nat.mul_le_mul_right _ (hm ▸ weight_log2_le hq)
        _ ≤ n := Nat.div_mul_le_self ..
        _ = n * 1 := (Nat.mul_one n).symm
    omega
  have hlt : n < 2 * f.units m * d := by
    rw [hm, ← weight_succ, ← Nat.div_lt_iff_lt_mul hd]
    exact lt_weight_log2 _
  calc n < 2 * f.units m * d := hlt
    _ ≤ 2 * f.units (f.round n d) * d := by gcongr

end Format

end SignalGraph
