import SignalGraph.Binary.Basic

/-!
# The sine of a 32-bit word

The sine is that of `libm`: `Binary32.sine` follows the function `sinf` of that
library, so that the same words come out. No theorem rests on which words these
are: what is proved about oscillators holds for any waveform, and what is proved
about patches and engines for any update.

The sine is evaluated with 64-bit words and rounded to 32 bits at the end. The
argument is first taken apart into a whole number of quarter turns and a rest
of at most an eighth of a turn (`Binary32.quarterTurns`); the rest goes through
one of two polynomials, and the number of quarter turns says through which, and
with which sign.

How the rest is found depends on the size of the argument, as its last bits
must be right after the leading ones have cancelled: a single multiple of `π/2`
for arguments up to `9π/4`, `π/2` in two pieces up to `2²⁸ · π/2`, and exact
arithmetic with `2/π` to 256 binary places beyond.
-/

namespace SignalGraph

namespace Binary32

/-- An argument of the sine as `turns` quarter turns and a `rest` in radians. -/
structure QuarterTurns where
  /-- The quarter turns, with sign. -/
  turns : Int
  /-- What remains of the argument. -/
  rest : Binary64

/-- The magnitudes of `π/4`, `3π/4`, `5π/4`, `7π/4` and `9π/4`: as many as lie
    below an argument, so many quarter turns are nearest to it. -/
def quarterBounds : List Nat := [0x3f490fda, 0x4016cbe3, 0x407b53d1, 0x40afeddf, 0x40e231d5]

/-- A quarter turn in radians. -/
def quarter : Binary64 := 1.5707963267948966

/-- The leading 33 bits of a quarter turn. -/
def quarterHigh : Binary64 := 1.57079631090164184570

/-- A quarter turn without its leading 33 bits. -/
def quarterLow : Binary64 := 1.58932547735281966916e-8

/-- The quarter turns in a radian. -/
def perRadian : Binary64 := 0.636619772367581382433

/-- The quarter turns in a radian, in steps of `2⁻²⁵⁶`. -/
def perRadianLong : Nat := 0xa2f9836e4e441529fc2757d1f534ddc0db6295993c439041fe5163abdebbc561

/-- Quarter turns of an argument of at most `9π/4`. -/
def quarterTurnsNear (x : Binary32) : QuarterTurns :=
  let count := quarterBounds.countP (· < x.magnitude)
  let turns := Binary.signed x.negative count
  ⟨turns, x.convert .double - Binary.ofInt turns * quarter⟩

/-- Quarter turns of an argument below `2²⁸ · π/2`: their number has so few
    bits that its product with the leading piece of `π/2` is exact. -/
def quarterTurnsMedium (x : Binary32) : QuarterTurns :=
  let x := x.convert .double
  let turns := (x * perRadian).nearestInt
  ⟨turns, x - Binary.ofInt turns * quarterHigh - Binary.ofInt turns * quarterLow⟩

/-- Quarter turns of any finite argument. With `p` for `perRadianLong`, the rest
    `x - turns · 2²⁵⁶ / p` is a quotient of integers, rounded once. -/
def quarterTurnsFar (x : Binary32) : QuarterTurns :=
  let num := Format.single.units x.magnitude * perRadianLong
  let den := Format.single.one * weight 256
  let turns := divNearest num den
  let rest : Int := num - turns * den
  ⟨Binary.signed x.negative turns,
    Binary.rounded ((rest < 0) != x.negative) (rest.natAbs * Format.double.one)
      (Format.single.one * perRadianLong)⟩

/-- The quarter turns in a finite argument, and the rest. -/
def quarterTurns (x : Binary32) : QuarterTurns :=
  -- The bounds are the magnitudes of `9π/4` and of `2²⁸ · π/2`.
  if x.magnitude ≤ 0x40e231d5 then x.quarterTurnsNear
  else if x.magnitude < 0x4dc90fdb then x.quarterTurnsMedium
  else x.quarterTurnsFar

/-- The sine of at most an eighth of a turn. -/
def sineOfRest (y : Binary64) : Binary32 :=
  let y2 := y * y
  let y3 := y2 * y
  let y4 := y2 * y2
  let low := y + y3 * (-0.166666666416265235595 + y2 * 0.0083333293858894631756)
  let high := -0.000198393348360966317347 + y2 * 0.0000027183114939898219064
  (low + y3 * y4 * high).convert .single

/-- The cosine of at most an eighth of a turn. -/
def cosineOfRest (y : Binary64) : Binary32 :=
  let y2 := y * y
  let y4 := y2 * y2
  let low := 1 + y2 * -0.499999997251031003120 + y4 * 0.0416666233237390631894
  let high := -0.00138867637746099294692 + y2 * 0.0000243904487962774090654
  (low + y4 * y2 * high).convert .single

/-- The sine of `x` radians, as `sinf` of `libm` has it. Below `2⁻¹²` the sine is
    the argument; the sine of an infinity or of a word that is not a number is not
    a number. -/
def sine (x : Binary32) : Binary32 :=
  -- `0x39800000` is the magnitude of `2⁻¹²`.
  if x.magnitude < 0x39800000 then x
  else if x.isFinite then
    let ⟨turns, rest⟩ := x.quarterTurns
    match (turns % 4).toNat with
    | 0 => sineOfRest rest
    | 1 => cosineOfRest rest
    | 2 => sineOfRest (-rest)
    | _ => -cosineOfRest rest
  else x - x

end Binary32

end SignalGraph
