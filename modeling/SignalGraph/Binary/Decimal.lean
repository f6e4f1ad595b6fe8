import SignalGraph.Binary.Basic

/-!
# Decimal text of words

A finite word is written with the fewest significant digits that read back to
the same word, and without an exponent: `0.1`, `16777216`, `-0`. Of two
shortest texts the one nearer to the value is taken, of two equally near ones
the greater.

The digits are searched for on decimal grids of growing fineness. On the grid
`10 ^ e` only the two neighbours of the value can read back to it if any point
of the grid does, so two tests settle a grid. The search ends with the exact
decimal expansion of the value at the latest, as a unit of the format is a
decimal fraction.
-/

namespace SignalGraph

namespace Binary

variable {f : Format}

/-- Does the decimal `digits · 10 ^ exponent` read back to the word `a`, its
    sign left aside? -/
def ReadsBack (a : Binary f) (digits : Nat) (exponent : Int) : Prop :=
  (ofDecimal digits exponent : Binary f).magnitude = a.magnitude

instance (a : Binary f) (digits : Nat) (exponent : Int) :
    Decidable (a.ReadsBack digits exponent) :=
  inferInstanceAs (Decidable (_ = _))

/-- The number of steps of size `10 ^ exponent` nearest to the value of `a`
    among those that read back to it, if there is any. -/
def digitsAt? (a : Binary f) (exponent : Int) : Option Nat :=
  let num := f.units a.magnitude * Nat.pow 10 (-exponent).toNat
  let den := f.one * Nat.pow 10 exponent.toNat
  let below := num / den
  let nearBelow := 2 * (num % den) < den
  if a.ReadsBack below exponent then
    if a.ReadsBack (below + 1) exponent ∧ ¬nearBelow then some (below + 1) else some below
  else if a.ReadsBack (below + 1) exponent then some (below + 1)
  else none

/-- The digits and the exponent found on the first of the grids `10 ^ exponent`,
    `10 ^ (exponent - 1)`, … that has a point reading back to `a`; after so many
    grids, the exact value of `a`. -/
def shortestFrom (a : Binary f) (exponent : Int) : Nat → Nat × Int
  | 0 => (f.units a.magnitude * Nat.pow 5 f.places, -f.places)
  | grids + 1 =>
    match a.digitsAt? exponent with
    | some digits => (digits, exponent)
    | none => shortestFrom a (exponent - 1) grids

/-- The shortest decimal that reads back to a finite word, as digits and an
    exponent of ten. -/
def shortest (a : Binary f) : Nat × Int :=
  let whole := f.units a.magnitude / f.one
  let size := if whole = 0 then 0 else (Nat.toDigits 10 whole).length
  a.shortestFrom size (size + f.places)

end Binary

/-- The decimal `digits · 10 ^ exponent` written without an exponent. -/
def positional (digits : Nat) (exponent : Int) : List Char :=
  let text := Nat.toDigits 10 digits
  if 0 ≤ exponent then text ++ List.replicate exponent.toNat '0'
  else
    let places := (-exponent).toNat
    let text := List.replicate (places + 1 - text.length) '0' ++ text
    text.take (text.length - places) ++ '.' :: text.drop (text.length - places)

namespace Binary

/-- The decimal text of a word. -/
def toDecimal {f : Format} (a : Binary f) : String :=
  if a.isNaN then "NaN"
  else
    let text := if a.isInfinite then "inf" else String.ofList (positional a.shortest.1 a.shortest.2)
    if a.negative then "-" ++ text else text

end Binary

end SignalGraph
