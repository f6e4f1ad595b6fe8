import Mathlib.Data.Rat.Floor
import SignalGraph.Proofs.Binary.Value

/-!
# Arithmetic on words

On finite words an operation gives the word nearest to its exact result
(`Binary.nearest_add`, `Binary.nearest_mul`, …). So signs and bounds of exact results are those of
rounded ones, with no slack: to add what is not negative makes nothing smaller
(`Binary.le_add`), to take it away makes nothing greater (`Binary.sub_le`), and neither
overflow nor an infinite operand is in the way.
-/

namespace SignalGraph

namespace Binary

variable {f : Format} {a b c : Binary f} {m n : Nat} {s t : Bool}

/-! ## Exact results -/

theorem signed_natAbs (n : ℤ) : signed (n < 0) n.natAbs = n := by
  rw [signed]
  split
  next hneg => simp only [decide_eq_true_eq] at hneg; omega
  next hneg => simp only [decide_eq_true_eq] at hneg; omega

theorem signed_mul (s t : Bool) (m n : Nat) :
    signed (s != t) (m * n) = signed s m * signed t n := by
  cases s <;> cases t <;> simp [signed]

theorem value_of_isFinite (ha : a.isFinite) :
    a.value = .finite a.negative (f.units a.magnitude) := by
  rw [value, if_pos (by simpa [isFinite] using ha)]

theorem value_of_infinite (ha : a.isNaN = false) (hinf : a.isFinite = false) :
    a.value = .infinite a.negative := by
  simp only [isFinite, isNaN, decide_eq_false_iff_not] at ha hinf
  rw [value, if_neg hinf, if_pos (by omega)]

theorem value_of_isNaN (ha : a.isNaN) : a.value = .nan := by
  simp only [isNaN, decide_eq_true_eq] at ha
  rw [value, if_neg (by omega), if_neg (by omega)]

theorem nearest_signedZero (s : Bool) : Nearest 0 (signedZero s : Binary f) := by
  have hrounded := nearest_rounded (f := f) s 0 Nat.one_pos
  have hzero : signed s 0 = 0 := by cases s <;> rfl
  rw [rounded, Format.round_zero Nat.one_pos, hzero, Int.cast_zero, zero_div] at hrounded
  exact hrounded

theorem toRat_neg (a : Binary f) : (-a).toRat = -a.toRat := by
  change (ofParts (!a.negative) a.magnitude : Binary f).toRat = _
  rw [toRat, negative_ofParts _ (magnitude_lt a), magnitude_ofParts _ (magnitude_lt a), toRat]
  cases a.negative <;> simp [signed, neg_div]

theorem magnitude_neg (a : Binary f) : (-a).magnitude = a.magnitude :=
  magnitude_ofParts _ (magnitude_lt a)

theorem isNaN_neg (a : Binary f) : (-a).isNaN = a.isNaN := by rw [isNaN, isNaN, magnitude_neg]

theorem isFinite_neg (a : Binary f) : (-a).isFinite = a.isFinite := by
  rw [isFinite, isFinite, magnitude_neg]

theorem nearest_add (ha : a.isFinite) (hb : b.isFinite) : Nearest (a.toRat + b.toRat) (a + b) := by
  change Nearest _ (a.add b)
  rw [add, value_of_isFinite ha, value_of_isFinite hb, toRat, toRat, ← add_div, ← Int.cast_add]
  dsimp only
  generalize signed _ _ + signed _ _ = sum
  split
  next hzero => simpa [hzero] using nearest_signedZero (a.negative && b.negative)
  next =>
    have hrounded := nearest_rounded (f := f) (sum < 0) sum.natAbs Nat.one_pos
    rwa [signed_natAbs, Nat.cast_one, one_mul] at hrounded

theorem sub_eq_add (a : Binary f) (hb : b.isNaN = false) : a - b = a + -b := by
  change a.sub b = a.add b.neg
  rw [sub, hb, if_neg Bool.false_ne_true]

theorem nearest_sub (ha : a.isFinite) (hb : b.isFinite) : Nearest (a.toRat - b.toRat) (a - b) := by
  have hsum := nearest_add ha (b := -b) (by rwa [isFinite_neg])
  rwa [toRat_neg, ← sub_eq_add_neg, ← sub_eq_add a (isNaN_of_isFinite hb)] at hsum

theorem nearest_mul (ha : a.isFinite) (hb : b.isFinite) : Nearest (a.toRat * b.toRat) (a * b) := by
  change Nearest _ (a.mul b)
  rw [mul, value_of_isFinite ha, value_of_isFinite hb, toRat, toRat, div_mul_div_comm,
    ← Int.cast_mul, ← signed_mul]
  exact nearest_rounded _ _ Format.one_pos

theorem units_ne_zero (hzero : a.toRat ≠ 0) : f.units a.magnitude ≠ 0 := by
  intro hunits
  refine hzero ?_
  rw [toRat, hunits]
  cases a.negative <;> simp [signed]

theorem nearest_div (ha : a.isFinite) (hb : b.isFinite) (hzero : b.toRat ≠ 0) :
    Nearest (a.toRat / b.toRat) (a / b) := by
  have hn := units_ne_zero hzero
  have hexact : a.toRat / b.toRat =
      (signed (a.negative != b.negative) (f.units a.magnitude * f.one) : ℤ) /
        (f.units b.magnitude * f.one) := by
    have hone : (f.one : ℚ) ≠ 0 := (one_pos_rat f).ne'
    have hn' : (f.units b.magnitude : ℚ) ≠ 0 := by exact_mod_cast hn
    rw [toRat, toRat, div_div_div_cancel_right₀ hone]
    cases a.negative <;> cases b.negative <;> simp [signed] <;> field_simp
  change Nearest _ (a.div b)
  rw [div, value_of_isFinite ha, value_of_isFinite hb, hexact]
  dsimp only
  rw [if_pos hn]
  exact nearest_rounded _ _ (Nat.pos_of_ne_zero hn)

theorem nearest_ofInt (n : ℤ) : Nearest n (ofInt n : Binary f) := by
  have hrounded := nearest_rounded (f := f) (n < 0) (n.natAbs * f.one) Nat.one_pos
  have hexact : signed (n < 0) (n.natAbs * f.one) = n * f.one := by
    conv_rhs => rw [← signed_natAbs n]
    simp [signed]
  rw [hexact, Int.cast_mul, Int.cast_natCast, Nat.cast_one, one_mul,
    mul_div_cancel_right₀ _ (one_pos_rat f).ne'] at hrounded
  exact hrounded

/-- A floor is rounded from the whole number below. -/
theorem nearest_floor (ha : a.isFinite) : Nearest (⌊a.toRat⌋ : ℤ) a.floor := by
  have hwhole : ⌊a.toRat⌋ = signed a.negative (f.units a.magnitude) / f.one := by
    rw [toRat]
    exact Rat.floor_intCast_div_natCast ..
  rw [floor, value_of_isFinite ha, hwhole]
  dsimp only
  split
  next hzero => simpa [hzero] using nearest_signedZero a.negative
  next => exact nearest_ofInt _

/-! ## Zero and infinity -/

theorem toRat_ofParts_zero (s : Bool) : (ofParts s 0 : Binary f).toRat = 0 := by
  rw [toRat, magnitude_ofParts s (weight_pos _), Format.units_zero]
  cases negative _ <;> simp [signed]

theorem zero_eq : (0 : Binary f) = ofParts false 0 := by
  change ofParts false (f.round (0 * f.one) 1) = _
  rw [Nat.zero_mul, Format.round_zero Nat.one_pos]

theorem toRat_zero : (0 : Binary f).toRat = 0 := by rw [zero_eq, toRat_ofParts_zero]

theorem isNaN_zero : (0 : Binary f).isNaN = false := by
  rw [zero_eq]
  exact isNaN_ofParts _ (Nat.zero_le _)

theorem zero_le_iff : 0 ≤ a ↔ a.isNaN = false ∧ 0 ≤ a.toRat := by
  rw [le_iff, toRat_zero]
  simp [isNaN_zero]

theorem rank_zero : (0 : Binary f).rank = 0 := by
  rw [zero_eq, rank_ofParts false (weight_pos _)]
  rfl

/-- Of the numbers that are not negative, both zeros are not above zero. -/
theorem magnitude_eq_zero_iff (ha : 0 ≤ a) : a.magnitude = 0 ↔ a ≤ 0 := by
  have hrank : 0 ≤ a.rank := rank_zero (f := f) ▸ ha.2.2
  have hiff : a.magnitude = 0 ↔ a.rank ≤ 0 := by
    rw [rank] at hrank ⊢
    cases hs : a.negative <;>
      simp only [hs, signed, if_true, Bool.false_eq_true, if_false] at hrank ⊢ <;> omega
  rw [hiff, ← rank_zero (f := f)]
  exact ⟨fun hle => ⟨ha.2.1, isNaN_zero, hle⟩, fun hle => hle.2.2⟩

/-- An infinite word that is not below zero is above all finite ones. -/
theorem le_of_infinite (ha : a.isFinite) (hb : 0 ≤ b) (hinf : b.isFinite = false) : a ≤ b := by
  obtain ⟨hnum, hnonneg⟩ := zero_le_iff.1 hb
  refine ⟨isNaN_of_isFinite ha, hnum, ?_⟩
  have hrank := rank_nonneg_iff.2 hnonneg
  simp only [rank, isFinite, isNaN, decide_eq_true_eq, decide_eq_false_iff_not] at *
  cases hs : a.negative <;> cases ht : b.negative <;>
    simp only [ht, signed, if_true, Bool.false_eq_true, if_false] at hrank ⊢ <;> omega

/-- A finite word is above what is infinite and below zero. -/
theorem neg_le_of_infinite (ha : a.isFinite) (hb : 0 ≤ b) (hinf : b.isFinite = false) : -b ≤ a := by
  have hle := le_of_infinite (a := -a) (by rwa [isFinite_neg]) hb hinf
  rw [le_iff, toRat_neg] at hle ⊢
  exact ⟨(isNaN_neg b).trans hle.2.1, isNaN_of_isFinite ha, by linarith [hle.2.2]⟩

theorem add_infinite (ha : a.isFinite) (hb : b.isNaN = false) (hinf : b.isFinite = false) :
    a + b = b := by
  change a.add b = b
  rw [add, value_of_isFinite ha, value_of_infinite hb hinf]

theorem infinite_add (ha : a.isNaN = false) (hinf : a.isFinite = false) (hb : b.isFinite) :
    a + b = a := by
  change a.add b = a
  rw [add, value_of_infinite ha hinf, value_of_isFinite hb]

theorem sub_infinite (ha : a.isFinite) (hb : b.isNaN = false) (hinf : b.isFinite = false) :
    a - b = -b := by
  rw [sub_eq_add a hb]
  exact add_infinite ha ((isNaN_neg b).trans hb) ((isFinite_neg b).trans hinf)

theorem div_infinite (ha : a.isFinite) (hb : b.isNaN = false) (hinf : b.isFinite = false) :
    a / b = signedZero (a.negative != b.negative) := by
  change a.div b = _
  rw [div, value_of_isFinite ha, value_of_infinite hb hinf]

theorem isNaN_floor (ha : a.isNaN = false) : a.floor.isNaN = false := by
  cases hfinite : a.isFinite with
  | true => exact (nearest_floor hfinite).isNaN_eq
  | false =>
    rw [floor, value_of_infinite ha hfinite]
    exact ha

theorem isNaN_sub (ha : a.isFinite) (hb : b.isNaN = false) : (a - b).isNaN = false := by
  cases hfinite : b.isFinite with
  | true => exact (nearest_sub ha hfinite).isNaN_eq
  | false =>
    rw [sub_infinite ha hb hfinite, isNaN_neg]
    exact hb

/-- A product is a number if one of its factors is neither zero nor infinite. -/
theorem isNaN_mul (ha : a.isFinite) (hzero : a.toRat ≠ 0) (hb : b.isNaN = false) :
    (a * b).isNaN = false := by
  cases hfinite : b.isFinite with
  | true => exact (nearest_mul ha hfinite).isNaN_eq
  | false =>
    change (a.mul b).isNaN = false
    rw [mul, value_of_isFinite ha, value_of_infinite hb hfinite]
    dsimp only
    rw [if_neg (units_ne_zero hzero)]
    exact isNaN_ofParts _ le_rfl

/-! ## Signs and bounds -/

/-- To add what is not negative makes nothing smaller. -/
theorem le_add (ha : a.isFinite) (hb : 0 ≤ b) : a ≤ a + b := by
  obtain ⟨hnum, hnonneg⟩ := zero_le_iff.1 hb
  cases hfinite : b.isFinite with
  | true => exact (nearest_add ha hfinite).of_toRat_le (isNaN_of_isFinite ha) (by linarith)
  | false => exact (add_infinite ha hnum hfinite).symm ▸ le_of_infinite ha hb hfinite

/-- A word is below a sum if it is below a part of it, and the other part is not negative. -/
theorem le_add_of_le (ha : 0 ≤ a) (hfinite : a.isFinite) (hcb : c ≤ b) : c ≤ a + b := by
  obtain ⟨hc, hb, hle⟩ := le_iff.1 hcb
  cases hfinite' : b.isFinite with
  | true => exact (nearest_add hfinite hfinite').of_toRat_le hc (by linarith [(zero_le_iff.1 ha).2])
  | false => rwa [add_infinite hfinite hb hfinite']

/-- To take away what is not negative makes nothing greater. -/
theorem sub_le (ha : a.isFinite) (hb : 0 ≤ b) : a - b ≤ a := by
  obtain ⟨hnum, hnonneg⟩ := zero_le_iff.1 hb
  cases hfinite : b.isFinite with
  | true => exact (nearest_sub ha hfinite).le_of_toRat (isNaN_of_isFinite ha) (by linarith)
  | false => exact (sub_infinite ha hnum hfinite).symm ▸ neg_le_of_infinite ha hb hfinite

/-- Two numbers that are not the same are a unit apart at least. -/
theorem unit_le_sub (h : a < b) : 1 / f.one ≤ b.toRat - a.toRat := by
  obtain ⟨-, -, hlt⟩ := lt_iff.1 h
  have hone := one_pos_rat f
  rw [toRat, toRat, div_lt_div_iff_of_pos_right hone, Int.cast_lt] at hlt
  rw [toRat, toRat, ← sub_div, div_le_div_iff_of_pos_right hone, ← Int.cast_sub]
  exact_mod_cast (by omega : 1 ≤ signed b.negative (f.units b.magnitude) -
    signed a.negative (f.units a.magnitude))

/-- A number that is not negative is taken away from a greater one without getting to zero. -/
protected theorem sub_pos (hfinite : a.isFinite) (hb : 0 ≤ b) (hba : b < a) : 0 < a - b := by
  obtain ⟨-, hnonneg⟩ := zero_le_iff.1 hb
  obtain ⟨-, -, hlt⟩ := lt_iff.1 hba
  have hfinite' := isFinite_of_le hnonneg (Binary.le_of_lt hba) hfinite
  have hexact := nearest_sub hfinite hfinite'
  have hunit := unit_le_sub hba
  have hsub : (a - b).isFinite := by
    have hle : 0 ≤ a - b := hexact.of_toRat_le isNaN_zero (by rw [toRat_zero]; linarith)
    exact isFinite_of_le (zero_le_iff.1 hle).2 (sub_le hfinite hb) hfinite
  have hhalf := hexact.lt_two_mul hsub hunit
  exact lt_iff.2 ⟨isNaN_zero, hexact.isNaN_eq, by rw [toRat_zero]; linarith⟩

/-- What is below the opposite of a finite word adds up with it to something below zero. -/
theorem add_neg (hb : b.isFinite) (h : a < -b) : a + b < 0 := by
  have hunit := unit_le_sub h
  rw [toRat_neg] at hunit
  cases hfinite : a.isFinite with
  | true =>
    have hexact := nearest_add hfinite hb
    have hpos : 0 < f.nearestMagnitude (a.toRat + b.toRat) := by
      refine Format.nearestMagnitude_pos ?_ ?_
      · simp only [isFinite, decide_eq_true_eq] at hb
        omega
      · rw [← abs_neg]
        exact hunit.trans (le_abs.2 (.inl (by linarith)))
    have hsign : a.toRat + b.toRat < 0 := by linarith [one_div_pos.2 (one_pos_rat f)]
    refine ⟨hexact.isNaN_eq, isNaN_zero, ?_⟩
    rw [rank_zero, hexact.rank_eq, place, decide_eq_true hsign, signed, if_pos rfl]
    omega
  | false =>
    rw [infinite_add h.1 hfinite hb]
    by_contra hnonneg
    have hle := le_of_infinite (a := -b) (by rwa [isFinite_neg])
      ((not_lt_iff h.1 isNaN_zero).1 hnonneg) hfinite
    exact (not_lt_iff h.1 h.2.1).2 hle h

/-- To divide by what is above zero, infinity included, is to multiply by what is not below it. -/
theorem exists_nearest_div (hfinite : a.isFinite) (hb : 0 < b) :
    ∃ x : ℚ, 0 ≤ x ∧ Nearest (a.toRat * x) (a / b) := by
  obtain ⟨-, hnum, hpos⟩ := lt_iff.1 hb
  rw [toRat_zero] at hpos
  cases hfinite' : b.isFinite with
  | true =>
    refine ⟨b.toRat⁻¹, (inv_pos.2 hpos).le, ?_⟩
    rw [← div_eq_mul_inv]
    exact nearest_div hfinite hfinite' hpos.ne'
  | false =>
    refine ⟨0, le_rfl, ?_⟩
    rw [mul_zero, div_infinite hfinite hnum hfinite']
    exact nearest_signedZero _

protected theorem div_nonneg (hfinite : a.isFinite) (ha : 0 ≤ a) (hb : 0 < b) : 0 ≤ a / b := by
  obtain ⟨x, hx, hexact⟩ := exists_nearest_div hfinite hb
  refine hexact.of_toRat_le isNaN_zero ?_
  rw [toRat_zero]
  exact Rat.mul_nonneg (zero_le_iff.1 ha).2 hx

protected theorem div_nonpos (hfinite : a.isFinite) (ha : a ≤ 0) (hb : 0 < b) : a / b ≤ 0 := by
  obtain ⟨x, hx, hexact⟩ := exists_nearest_div hfinite hb
  refine hexact.le_of_toRat isNaN_zero ?_
  have hle := (le_iff.1 ha).2.2
  rw [toRat_zero] at hle ⊢
  exact mul_nonpos_of_nonpos_of_nonneg hle hx

/-- A product of two numbers, of which the second one is at most one, is below the first one. -/
theorem mul_le (hfinite : a.isFinite) (ha : 0 ≤ a) (hfinite' : b.isFinite) (hb : b.toRat ≤ 1) :
    a * b ≤ a := by
  obtain ⟨hnum, hnonneg⟩ := zero_le_iff.1 ha
  exact (nearest_mul hfinite hfinite').le_of_toRat hnum (by nlinarith)

protected theorem mul_nonneg (hfinite : a.isFinite) (ha : 0 ≤ a) (hfinite' : b.isFinite)
    (hb : 0 ≤ b) : 0 ≤ a * b := by
  have hnonneg := (zero_le_iff.1 ha).2
  have hnonneg' := (zero_le_iff.1 hb).2
  refine (nearest_mul hfinite hfinite').of_toRat_le isNaN_zero ?_
  rw [toRat_zero]
  positivity

/-- The number of a word that has so many units, as a fraction. -/
theorem toRat_eq_div (hs : a.negative = false) (hd : d ≠ 0)
    (h : f.units a.magnitude * d = n * f.one) : a.toRat = n / d := by
  have hone : (f.one : ℚ) ≠ 0 := (one_pos_rat f).ne'
  rw [toRat, hs, signed, if_neg Bool.false_ne_true, Int.cast_natCast,
    div_eq_div_iff hone (Nat.cast_ne_zero.2 hd)]
  exact_mod_cast h

end Binary

namespace Binary32

open Binary

variable {a b : Binary32}

/-! ## Finite sums -/

theorem isFinite_quiet (ha : a.isNaN) : a.quiet.isFinite = false := by
  have hlt : a.magnitude ||| weight 22 < weight 31 :=
    Nat.or_lt_two_pow (magnitude_lt a) (by decide)
  have hle : a.magnitude ≤ a.magnitude ||| weight 22 := Nat.left_le_or
  have hmagnitude : a.quiet.magnitude = a.magnitude ||| weight 22 := magnitude_ofParts _ hlt
  simp only [isNaN, isFinite, decide_eq_true_eq, decide_eq_false_iff_not] at ha ⊢
  omega

/-- A sum is finite only if both parts are. -/
theorem isFinite_of_add (h : (a + b).isFinite) : a.isFinite ∧ b.isFinite := by
  have hinvalid : (invalid : Binary32).isFinite = false := by decide
  change (a.add b).isFinite at h
  rw [add] at h
  cases ha : a.isNaN with
  | true => simp [value_of_isNaN ha, isFinite_quiet ha] at h
  | false =>
    cases hfinite : a.isFinite with
    | true =>
      rw [value_of_isFinite hfinite] at h
      cases hfinite' : b.isFinite <;> cases hb : b.isNaN <;>
        simp_all [value_of_isFinite, value_of_infinite, value_of_isNaN, isFinite_quiet]
    | false =>
      rw [value_of_infinite ha hfinite] at h
      cases hfinite' : b.isFinite with
      | true => simp [value_of_isFinite hfinite', hfinite] at h
      | false =>
        -- Two infinities add up to one of them or to what is not a number.
        cases hb : b.isNaN with
        | true => simp [value_of_isNaN hb, isFinite_quiet hb] at h
        | false =>
          rw [value_of_infinite hb hfinite'] at h
          dsimp only at h
          split at h <;> simp_all

/-! ## Between zero and one -/

theorem toRat_one : (1 : Binary32).toRat = 1 := by
  rw [toRat_eq_div (n := 1) (by decide) Nat.one_ne_zero (by decide +kernel), Nat.cast_one, div_one]

theorem isFinite_one : (1 : Binary32).isFinite := by decide

theorem le_one_iff : a ≤ 1 ↔ a.isNaN = false ∧ a.toRat ≤ 1 := by
  rw [le_iff, toRat_one]
  simp [isNaN_of_isFinite isFinite_one]

theorem isFinite_of_le_one (hzero : 0 ≤ a) (hone : a ≤ 1) : a.isFinite :=
  isFinite_of_le (zero_le_iff.1 hzero).2 hone isFinite_one

/-- What is left of one lies between zero and one, too. -/
theorem one_sub_bounds (hzero : 0 ≤ a) (hone : a ≤ 1) : 0 ≤ 1 - a ∧ 1 - a ≤ 1 := by
  refine ⟨?_, sub_le isFinite_one hzero⟩
  refine (nearest_sub isFinite_one (isFinite_of_le_one hzero hone)).of_toRat_le isNaN_zero ?_
  rw [toRat_zero, toRat_one]
  linarith [(le_one_iff.1 hone).2]

end Binary32

end SignalGraph
