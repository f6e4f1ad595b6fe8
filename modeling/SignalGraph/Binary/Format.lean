/-!
# Binary floating-point formats

A format says how many exponent and fraction bits follow the sign bit of a
word. The *magnitude* of a word is the word without its sign bit, read as a
natural number. Magnitudes count the non-negative values of the format from
zero upward: magnitude 0 is the value zero, magnitude 1 the least positive
value, `infinity` is infinity, and whatever lies above is not a number.

Every finite value is a whole multiple of the least positive one, the *unit*
(`2 ^ -places`). Exact arithmetic on values is therefore arithmetic on whole
numbers of units, and the whole of floating-point rounding is one function
(`Format.round`), which takes an exact quotient of units to the magnitude
nearest to it.

* `Format.units`: the value of a finite magnitude, in units;
* `Format.round`: the magnitude nearest to a quotient of units;
* `Format.round_of_lt`: numbers of units that fit the fraction are kept.
-/

namespace SignalGraph

/-- The weight of the bit at `n`: two to the power `n`. -/
@[inline] def weight (n : Nat) : Nat := Nat.pow 2 n

/-- The natural number nearest to `num / den`; halfway between two, the even
    one. -/
def divNearest (num den : Nat) : Nat :=
  let q := num / den
  let r := num % den
  if 2 * r < den ∨ (2 * r = den ∧ q % 2 = 0) then q else q + 1

/-- A whole quotient is its own nearest number. -/
theorem divNearest_one (n : Nat) : divNearest n 1 = n := by
  simp [divNearest, Nat.mod_one]

/-- The layout of a floating-point word: a sign bit, then the exponent, then
    the fraction. -/
structure Format where
  /-- Bits of the fraction, the leading significant bit not counted. -/
  fractionBits : Nat
  /-- Bits of the exponent. -/
  exponentBits : Nat
deriving DecidableEq

namespace Format

/-- The 32-bit format. -/
@[inline] def single : Format := ⟨23, 8⟩

/-- The 64-bit format. -/
@[inline] def double : Format := ⟨52, 11⟩

variable (f : Format)

/-- Bits of a word. -/
abbrev width : Nat := f.exponentBits + f.fractionBits + 1

/-- The unit of the format is `2 ^ -places`. -/
@[inline] def places : Nat := weight (f.exponentBits - 1) + f.fractionBits - 2

/-- The number of units that make up the value one. -/
@[inline] def one : Nat := weight f.places

/-- The magnitude of infinity: all exponent bits set, and an empty fraction. -/
@[inline] def infinity : Nat := (weight f.exponentBits - 1) * weight f.fractionBits

/-- The value of a finite magnitude in units. While the exponent field is zero
    the fraction counts the units; above, the leading bit is added and each
    step of the exponent doubles. -/
@[inline] def units (magnitude : Nat) : Nat :=
  let exponent := magnitude / weight f.fractionBits
  let fraction := magnitude % weight f.fractionBits
  if exponent = 0 then fraction else (weight f.fractionBits + fraction) * weight (exponent - 1)

/-- The magnitude nearest to `num / den` units, a tie going to the even one.

    `scale` bits are more than the format can hold, and are rounded away. A
    carry out of the fraction falls into the exponent field, where it stands
    for the next power of two, as it should. From the last finite value on,
    half a step further rounds to infinity. -/
@[inline] def round (num den : Nat) : Nat :=
  let scale := (num / den).log2 - f.fractionBits
  min (scale * weight f.fractionBits + divNearest num (den * weight scale)) f.infinity

/-- Numbers of units that fit the fraction are kept as they are. -/
theorem round_of_lt {n : Nat} (h : n < weight (f.fractionBits + 1)) :
    f.round n 1 = min n f.infinity := by
  have hlog : n.log2 - f.fractionBits = 0 := by
    rcases Nat.eq_zero_or_pos n with rfl | hn
    · simp
    · have := (Nat.log2_lt (by omega)).2 h
      omega
  simp [round, hlog, weight, divNearest_one]

end Format

end SignalGraph
