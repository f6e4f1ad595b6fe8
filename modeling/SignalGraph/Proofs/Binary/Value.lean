import Mathlib.Algebra.Order.Field.Rat
import Mathlib.Data.Rat.Cast.Order
import Mathlib.Tactic.FieldSimp
import Mathlib.Tactic.Positivity
import SignalGraph.Binary.Basic
import SignalGraph.Proofs.Binary.Rounding

/-!
# The numbers that words stand for

A word that is a number stands for a rational one (`Binary.toRat`), infinity for the first number
that is too great. Words are in the order of these numbers (`Binary.le_iff`), and an operation
gives the word nearest to its exact result (`Binary.Nearest`). All that an order of signals says
comes down to two facts: words nearest to greater numbers are greater (`Binary.Nearest.le`), and a
word is nearest to its own number (`Binary.nearest_toRat`).
-/

namespace SignalGraph

namespace Format

variable {f : Format} {x y : ℚ} {n d : Nat}

/-- The magnitude nearest to a number, its sign left aside. -/
def nearestMagnitude (f : Format) (x : ℚ) : Nat := f.round (x.num.natAbs * f.one) x.den

theorem abs_eq_div (x : ℚ) : |x| = x.num.natAbs / x.den := by
  calc |x| = |(x.num : ℚ) / x.den| := by rw [Rat.num_div_den]
    _ = x.num.natAbs / x.den := by rw [abs_div, Nat.abs_cast, Nat.cast_natAbs, Int.cast_abs]

theorem nearestMagnitude_mono (h : |x| ≤ |y|) : f.nearestMagnitude x ≤ f.nearestMagnitude y := by
  refine round_mono x.pos y.pos ?_
  rw [abs_eq_div, abs_eq_div, div_le_div_iff₀ (by exact_mod_cast x.pos) (by exact_mod_cast y.pos)]
    at h
  have hnat : x.num.natAbs * y.den ≤ y.num.natAbs * x.den := by exact_mod_cast h
  calc x.num.natAbs * f.one * y.den = x.num.natAbs * y.den * f.one := Nat.mul_right_comm ..
    _ ≤ y.num.natAbs * x.den * f.one := Nat.mul_le_mul_right _ hnat
    _ = y.num.natAbs * f.one * x.den := Nat.mul_right_comm ..

/-- A quotient of units is rounded as the number it stands for. -/
theorem nearestMagnitude_eq (hd : 0 < d) (h : |x| = n / (d * f.one)) :
    f.nearestMagnitude x = f.round n d := by
  refine round_congr x.pos hd ?_
  have hone : (0 : ℚ) < f.one := by exact_mod_cast one_pos (f := f)
  have hd' : (0 : ℚ) < d := by exact_mod_cast hd
  rw [abs_eq_div, div_eq_div_iff (by exact_mod_cast x.pos.ne') (by positivity)] at h
  have hnat : x.num.natAbs * (d * f.one) = n * x.den := by exact_mod_cast h
  rw [← hnat]
  ring

/-- What is not smaller than a unit is no fraction of one. -/
theorem den_le (hx : 1 / f.one ≤ |x|) : x.den ≤ x.num.natAbs * f.one := by
  have hone : (0 : ℚ) < f.one := by exact_mod_cast one_pos (f := f)
  rw [abs_eq_div, div_le_div_iff₀ hone (by exact_mod_cast x.pos), one_mul] at hx
  exact_mod_cast hx

/-- What is not smaller than a unit is not rounded to zero. -/
theorem nearestMagnitude_pos (hinfinity : 0 < f.infinity) (hx : 1 / f.one ≤ |x|) :
    0 < f.nearestMagnitude x := by
  by_contra hzero
  have hround : f.round (x.num.natAbs * f.one) x.den = 0 := Nat.eq_zero_of_not_pos hzero
  have hlt := lt_two_mul_units_round x.pos (den_le hx) (hround ▸ hinfinity)
  rw [hround, units_zero, Nat.mul_zero, Nat.zero_mul] at hlt
  exact Nat.not_lt_zero _ hlt

end Format

namespace Binary

variable {f : Format} {a b c : Binary f} {x y : ℚ} {n d m : Nat} {s t : Bool}

/-! ## The parts of a word -/

theorem magnitude_lt (a : Binary f) : a.magnitude < weight (f.exponentBits + f.fractionBits) :=
  Nat.mod_lt _ (weight_pos _)

theorem infinity_lt (f : Format) : f.infinity < weight (f.exponentBits + f.fractionBits) := by
  rw [Format.infinity, weight_add]
  exact Nat.mul_lt_mul_of_pos_right (Nat.sub_lt (weight_pos _) Nat.one_pos) (weight_pos _)

theorem toNat_ofParts (s : Bool) (hm : m < weight (f.exponentBits + f.fractionBits)) :
    (ofParts s m : Binary f).bits.toNat =
      (if s then weight (f.exponentBits + f.fractionBits) else 0) + m := by
  rw [ofParts, BitVec.toNat_ofNat]
  refine Nat.mod_eq_of_lt ?_
  change _ < weight (f.exponentBits + f.fractionBits + 1)
  rw [weight_succ]
  split <;> omega

theorem magnitude_ofParts (s : Bool) (hm : m < weight (f.exponentBits + f.fractionBits)) :
    (ofParts s m : Binary f).magnitude = m := by
  rw [magnitude, toNat_ofParts s hm]
  cases s with
  | false => rw [if_neg Bool.false_ne_true, Nat.zero_add, Nat.mod_eq_of_lt hm]
  | true => rw [if_pos rfl, Nat.add_mod_left, Nat.mod_eq_of_lt hm]

theorem negative_ofParts (s : Bool) (hm : m < weight (f.exponentBits + f.fractionBits)) :
    (ofParts s m : Binary f).negative = s := by
  rw [negative, BitVec.msb_eq_decide, toNat_ofParts s hm]
  change decide (weight (f.exponentBits + f.fractionBits) ≤ _) = s
  cases s <;> simp [hm]

theorem rank_ofParts (s : Bool) (hm : m < weight (f.exponentBits + f.fractionBits)) :
    (ofParts s m : Binary f).rank = signed s m := by
  rw [rank, magnitude_ofParts s hm, negative_ofParts s hm]

theorem isNaN_ofParts (s : Bool) (hm : m ≤ f.infinity) :
    (ofParts s m : Binary f).isNaN = false := by
  rw [isNaN, magnitude_ofParts s (hm.trans_lt (infinity_lt f))]
  simpa using hm

theorem isNaN_of_isFinite (ha : a.isFinite) : a.isNaN = false := by
  simp only [isFinite, isNaN, decide_eq_true_eq, decide_eq_false_iff_not] at ha ⊢
  omega

/-! ## Numbers -/

/-- The number that a word stands for. -/
def toRat (a : Binary f) : ℚ := signed a.negative (f.units a.magnitude) / f.one

theorem one_pos_rat (f : Format) : (0 : ℚ) < f.one := by exact_mod_cast Format.one_pos

theorem signed_le_signed_iff {u : Nat → Nat} (hu : StrictMono u) (hzero : u 0 = 0) :
    signed s (u m) ≤ signed t (u n) ↔ signed s m ≤ signed t n := by
  have hle := hu.le_iff_le (a := m) (b := n)
  have hge := hu.le_iff_le (a := n) (b := m)
  have hm := hu.le_iff_le (a := m) (b := 0)
  have hn := hu.le_iff_le (a := n) (b := 0)
  rw [hzero] at hm hn
  cases s <;> cases t <;> simp only [signed, if_true, Bool.false_eq_true, if_false] <;> omega

/-- Words are in the order of their numbers. -/
theorem rank_le_rank_iff : a.rank ≤ b.rank ↔ a.toRat ≤ b.toRat := by
  rw [toRat, toRat, div_le_div_iff_of_pos_right (one_pos_rat f), Int.cast_le,
    signed_le_signed_iff Format.strictMono_units Format.units_zero, rank, rank]

theorem le_iff : a ≤ b ↔ a.isNaN = false ∧ b.isNaN = false ∧ a.toRat ≤ b.toRat := by
  rw [← rank_le_rank_iff]
  rfl

theorem lt_iff : a < b ↔ a.isNaN = false ∧ b.isNaN = false ∧ a.toRat < b.toRat := by
  rw [← not_le, ← rank_le_rank_iff, not_le]
  rfl

theorem not_lt_iff (ha : a.isNaN = false) (hb : b.isNaN = false) : ¬a < b ↔ b ≤ a := by
  simp [lt_iff, le_iff, ha, hb]

theorem not_le_iff (ha : a.isNaN = false) (hb : b.isNaN = false) : ¬a ≤ b ↔ b < a := by
  simp [lt_iff, le_iff, ha, hb]

theorem le_self (ha : a.isNaN = false) : a ≤ a := ⟨ha, ha, le_rfl⟩

protected theorem le_of_lt (h : a < b) : a ≤ b := ⟨h.1, h.2.1, h.2.2.le⟩

protected theorem le_trans (hab : a ≤ b) (hbc : b ≤ c) : a ≤ c :=
  ⟨hab.1, hbc.2.1, hab.2.2.trans hbc.2.2⟩

protected theorem lt_of_le_of_lt (hab : a ≤ b) (hbc : b < c) : a < c :=
  ⟨hab.1, hbc.2.1, hab.2.2.trans_lt hbc.2.2⟩

protected theorem lt_of_lt_of_le (hab : a < b) (hbc : b ≤ c) : a < c :=
  ⟨hab.1, hbc.2.1, hab.2.2.trans_le hbc.2.2⟩

theorem rank_nonneg_iff : 0 ≤ a.rank ↔ 0 ≤ a.toRat := by
  have hzero : (0 : ℤ) = signed false 0 := rfl
  have hiff := signed_le_signed_iff (s := false) (t := a.negative) (m := 0) (n := a.magnitude)
    (Format.strictMono_units (f := f)) Format.units_zero
  rw [Format.units_zero, ← hzero] at hiff
  rw [toRat, le_div_iff₀ (one_pos_rat f), zero_mul, Int.cast_nonneg_iff, hiff, rank]

/-- What lies between zero and a finite word is finite. -/
theorem isFinite_of_le (ha : 0 ≤ a.toRat) (hab : a ≤ b) (hb : b.isFinite) : a.isFinite := by
  have hrank : signed a.negative a.magnitude ≤ signed b.negative b.magnitude := hab.2.2
  have hnonneg : 0 ≤ signed a.negative a.magnitude := rank_nonneg_iff.2 ha
  simp only [isFinite, decide_eq_true_eq] at hb ⊢
  cases hs : a.negative <;> cases ht : b.negative <;>
    simp only [hs, ht, signed, if_true, Bool.false_eq_true, if_false] at hrank hnonneg <;> omega

/-! ## Choosing between numbers -/

/-- A maximum is never below a number that it is taken of, whatever the other operand is. -/
theorem le_maxNumber (a : Binary f) (hb : b.isNaN = false) : b ≤ a.maxNumber b := by
  rw [maxNumber, hb]
  cases ha : a.isNaN with
  | true => exact le_self hb
  | false =>
    by_cases hlt : a < b
    · simpa [hlt] using le_self hb
    · simpa [hlt] using (not_lt_iff ha hb).1 hlt

theorem maxNumber_le (ha : a ≤ c) (hb : b ≤ c) : a.maxNumber b ≤ c := by
  rw [maxNumber]
  split_ifs <;> assumption

theorem maxNumber_of_lt (h : a < b) : a.maxNumber b = b := by
  simp [maxNumber, h.1, h.2.1, h]

/-- What is clamped between two numbers lies between them. -/
theorem clamp_bounds (ha : a.isNaN = false) (hbc : b ≤ c) :
    b ≤ a.clamp b c ∧ a.clamp b c ≤ c := by
  obtain ⟨hb, hc, hle⟩ := hbc
  rw [clamp]
  by_cases hlow : a < b
  · have hhigh : ¬c < b := (not_lt_iff hc hb).2 ⟨hb, hc, hle⟩
    simpa [hlow, hhigh] using ⟨le_self hb, (⟨hb, hc, hle⟩ : b ≤ c)⟩
  · have hba := (not_lt_iff ha hb).1 hlow
    by_cases hhigh : c < a
    · simpa [hlow, hhigh] using ⟨(⟨hb, hc, hle⟩ : b ≤ c), le_self hc⟩
    · simpa [hlow, hhigh] using ⟨hba, (not_lt_iff hc ha).1 hhigh⟩

/-! ## The nearest word -/

/-- The place, in the order of words, of the word nearest to a number. -/
def place (f : Format) (x : ℚ) : ℤ := signed (x < 0) (f.nearestMagnitude x)

theorem place_mono (h : x ≤ y) : place f x ≤ place f y := by
  rw [place, place]
  by_cases hx : x < 0
  · by_cases hy : y < 0
    · -- Below zero, the greater number has the smaller magnitude.
      have hmono : f.nearestMagnitude y ≤ f.nearestMagnitude x :=
        Format.nearestMagnitude_mono (by rw [abs_of_neg hx, abs_of_neg hy]; linarith)
      simpa [signed, hx, hy] using hmono
    · simp only [signed, hx, hy, decide_true, decide_false, if_true, Bool.false_eq_true, if_false]
      omega
  · have hy : ¬y < 0 := fun hy => hx (h.trans_lt hy)
    have hmono : f.nearestMagnitude x ≤ f.nearestMagnitude y :=
      Format.nearestMagnitude_mono (by rw [abs_of_nonneg (by linarith), abs_of_nonneg] <;> linarith)
    simpa [signed, hx, hy] using hmono

/-- `a` is the word nearest to the number `x`, up to the sign of zero. -/
structure Nearest (x : ℚ) (a : Binary f) : Prop where
  isNaN_eq : a.isNaN = false
  rank_eq : a.rank = place f x

/-- Words nearest to greater numbers are greater. -/
theorem Nearest.le (ha : Nearest x a) (hb : Nearest y b) (h : x ≤ y) : a ≤ b :=
  ⟨ha.isNaN_eq, hb.isNaN_eq, by rw [ha.rank_eq, hb.rank_eq]; exact place_mono h⟩

/-- The word that a quotient of units is rounded to. -/
theorem nearest_rounded (s : Bool) (n : Nat) (hd : 0 < d) :
    Nearest (signed s n / (d * f.one)) (rounded s n d : Binary f) := by
  have hle : f.round n d ≤ f.infinity := f.round_le_infinity n d
  refine ⟨isNaN_ofParts s hle, ?_⟩
  have hpos : (0 : ℚ) < d * f.one := mul_pos (by exact_mod_cast hd) (one_pos_rat f)
  have habs : |((signed s n : ℤ) : ℚ) / (d * f.one)| = n / (d * f.one) := by
    rw [abs_div, abs_of_pos hpos]
    cases s <;> simp [signed]
  rw [rounded, rank_ofParts s (hle.trans_lt (infinity_lt f)), place,
    Format.nearestMagnitude_eq hd habs]
  rcases Nat.eq_zero_or_pos n with rfl | hn
  · simp [signed, Format.round_zero hd]
  · have hn' : (0 : ℚ) < n := by exact_mod_cast hn
    cases s with
    | false =>
      have hsign : ¬((signed false n : ℤ) : ℚ) / (d * f.one) < 0 := by
        simp only [signed, Bool.false_eq_true, if_false, Int.cast_natCast, not_lt]
        positivity
      simp [hsign]
    | true =>
      have hsign : ((signed true n : ℤ) : ℚ) / (d * f.one) < 0 := by
        simp only [signed, if_true, Int.cast_neg, Int.cast_natCast, neg_div, neg_lt_zero]
        positivity
      simp [hsign]

/-- A word that is a number is nearest to its own number. -/
theorem nearest_toRat (ha : a.isNaN = false) : Nearest a.toRat a := by
  refine ⟨ha, ?_⟩
  have hle : a.magnitude ≤ f.infinity := by simpa [isNaN] using ha
  have hrounded := nearest_rounded (f := f) a.negative (f.units a.magnitude) Nat.one_pos
  rw [Nat.cast_one, one_mul] at hrounded
  rw [toRat, ← hrounded.rank_eq, rounded, Format.round_units hle,
    rank_ofParts _ (magnitude_lt a), rank]

theorem Nearest.le_of_toRat (ha : Nearest x a) (hb : b.isNaN = false) (h : x ≤ b.toRat) : a ≤ b :=
  ha.le (nearest_toRat hb) h

theorem Nearest.of_toRat_le (hb : Nearest y b) (ha : a.isNaN = false) (h : a.toRat ≤ y) : a ≤ b :=
  (nearest_toRat ha).le hb h

/-- The number that the word nearest to a number stands for. -/
theorem Nearest.toRat_eq (ha : Nearest x a) :
    a.toRat = signed (x < 0) (f.units (f.nearestMagnitude x)) / f.one := by
  have hrank : signed a.negative a.magnitude = signed (x < 0) (f.nearestMagnitude x) := ha.rank_eq
  have hsigned : signed a.negative (f.units a.magnitude) =
      signed (x < 0) (f.units (f.nearestMagnitude x)) :=
    le_antisymm ((signed_le_signed_iff Format.strictMono_units Format.units_zero).2 hrank.le)
      ((signed_le_signed_iff Format.strictMono_units Format.units_zero).2 hrank.ge)
  rw [toRat, hsigned]

/-- What is not smaller than a unit is rounded to more than its half, if not to infinity. -/
theorem Nearest.lt_two_mul (ha : Nearest x a) (hfinite : a.isFinite) (hx : 1 / f.one ≤ x) :
    x < 2 * a.toRat := by
  have hone := one_pos_rat f
  have hpos : 0 < x := (one_div_pos.2 hone).trans_le hx
  have hsign : ¬x < 0 := hpos.not_gt
  have hden : (0 : ℚ) < x.den := by exact_mod_cast x.pos
  have hquot : x = x.num.natAbs / x.den := by rw [← Format.abs_eq_div, abs_of_pos hpos]
  have hn : x.den ≤ x.num.natAbs * f.one := Format.den_le (by rwa [abs_of_pos hpos])
  have hmagnitude : f.nearestMagnitude x < f.infinity := by
    have hrank := ha.rank_eq
    simp only [place, rank, hsign, decide_false, isFinite, decide_eq_true_eq] at hrank hfinite
    cases hs : a.negative <;>
      simp only [hs, signed, if_true, Bool.false_eq_true, if_false] at hrank <;> omega
  have hlt : ((x.num.natAbs * f.one : ℕ) : ℚ) < (2 * f.units (f.nearestMagnitude x) * x.den : ℕ) :=
    Nat.cast_lt.2 (Format.lt_two_mul_units_round x.pos hn hmagnitude)
  push_cast at hlt
  calc x = x.num.natAbs / x.den := hquot
    _ < 2 * f.units (f.nearestMagnitude x) / f.one := by rwa [div_lt_div_iff₀ hden hone]
    _ = 2 * a.toRat := by simp [ha.toRat_eq, hsign, signed, mul_div_assoc]

end Binary

end SignalGraph
