import SignalGraph.Binary.Format

/-!
# Floating-point words

`Binary f` is the type of all words of a format, not-a-number words with their
payloads included: a word is a bit pattern first, and its value is a way to
read it. Signals travel as words, so that copying one never changes a bit.

Arithmetic is exact arithmetic on units followed by one rounding to nearest,
ties to even. An operation with no value (`∞ - ∞`, `0 · ∞`, `0 / 0`) gives
`Binary.invalid`; an operand that is not a number comes out again, made quiet,
the left one first.

Comparisons see values: both zeros are equal, and a word that is not a number
is in no relation, not even to itself. Equality `=` is equality of words.
-/

namespace SignalGraph

/-- A floating-point word of the format `f`. -/
structure Binary (f : Format) where
  /-- The bits of the word, the sign first. -/
  bits : BitVec f.width
deriving DecidableEq

/-- The 32-bit words, of which signals are made. -/
abbrev Binary32 := Binary .single

/-- The 64-bit words, used where sums grow long. -/
abbrev Binary64 := Binary .double

namespace Binary

variable {f : Format}

/-! ### The parts of a word -/

/-- The sign bit. -/
def negative (a : Binary f) : Bool := a.bits.msb

/-- The word without its sign bit. -/
@[inline] def magnitude (a : Binary f) : Nat :=
  a.bits.toNat % weight (f.exponentBits + f.fractionBits)

/-- The word with the given sign bit and magnitude. -/
@[inline] def ofParts (negative : Bool) (magnitude : Nat) : Binary f :=
  ⟨BitVec.ofNat f.width
    ((if negative then weight (f.exponentBits + f.fractionBits) else 0) + magnitude)⟩

/-- Is the word not a number? -/
@[inline] def isNaN (a : Binary f) : Bool := f.infinity < a.magnitude

/-- Is the word one of the two infinities? -/
def isInfinite (a : Binary f) : Bool := a.magnitude = f.infinity

/-- Does the word stand for a finite value? -/
@[inline] def isFinite (a : Binary f) : Bool := a.magnitude < f.infinity

/-- The whole number of a sign and a size. -/
def signed (negative : Bool) (size : Nat) : Int := if negative then -size else size

/-- The place of a number in the order of values; both zeros have place 0. -/
@[inline] def rank (a : Binary f) : Int := signed a.negative a.magnitude

/-! ### Values -/

/-- What a word stands for. -/
inductive Value where
  /-- Not a number. -/
  | nan
  /-- An infinity. -/
  | infinite (negative : Bool)
  /-- So many units. Zero has a sign too. -/
  | finite (negative : Bool) (units : Nat)
deriving DecidableEq

/-- What the word stands for. -/
@[inline] def value (a : Binary f) : Value :=
  if a.magnitude < f.infinity then .finite a.negative (f.units a.magnitude)
  else if a.magnitude = f.infinity then .infinite a.negative
  else .nan

/-! ### Special words -/

/-- The zero of the given sign. -/
def signedZero (negative : Bool) : Binary f := ofParts negative 0

/-- The infinity of the given sign. -/
def signedInfinity (negative : Bool) : Binary f := ofParts negative f.infinity

/-- What an operation gives that has no value: the negative quiet word that is
    not a number, with nothing else in it. -/
def invalid : Binary f := ofParts true (f.infinity + weight (f.fractionBits - 1))

/-- A word that is not a number, with its quiet bit set and all else kept. -/
def quiet (a : Binary f) : Binary f :=
  ofParts a.negative (a.magnitude ||| weight (f.fractionBits - 1))

/-! ### Rounding into the format -/

/-- The word nearest to `num / den` units, with the given sign. -/
@[specialize f] def rounded (negative : Bool) (num den : Nat) : Binary f :=
  ofParts negative (f.round num den)

/-- The word nearest to a whole number; zero is positive. -/
@[specialize f] def ofInt (n : Int) : Binary f := rounded (n < 0) (n.natAbs * f.one) 1

/-- The word nearest to a decimal fraction. -/
def ofDecimal (digits : Nat) (exponent : Int) : Binary f :=
  rounded false (digits * Nat.pow 10 exponent.toNat * f.one) (Nat.pow 10 (-exponent).toNat)

instance : OfNat (Binary f) n := ⟨ofInt n⟩

instance : OfScientific (Binary f) where
  ofScientific digits divide exponent := ofDecimal digits (if divide then -exponent else exponent)

instance : Inhabited (Binary f) := ⟨0⟩

/-! ### Arithmetic -/

/-- Flips the sign bit. -/
def neg (a : Binary f) : Binary f := ofParts (!a.negative) a.magnitude

/-- The sum `a + b`. An exact zero is positive unless both operands are
    negative. -/
@[specialize f] def add (a b : Binary f) : Binary f :=
  match a.value, b.value with
  | .nan, _ => a.quiet
  | _, .nan => b.quiet
  | .infinite s, .infinite t => if s = t then a else invalid
  | .infinite _, .finite .. => a
  | .finite .., .infinite _ => b
  | .finite s m, .finite t n =>
    let sum := signed s m + signed t n
    if sum = 0 then signedZero (s && t) else rounded (sum < 0) sum.natAbs 1

/-- The difference `a - b`. -/
@[specialize f] def sub (a b : Binary f) : Binary f :=
  -- What is not a number comes out with its own sign, not with the flipped one.
  if b.isNaN then a.add b else a.add b.neg

/-- The product `a · b`. -/
@[specialize f] def mul (a b : Binary f) : Binary f :=
  match a.value, b.value with
  | .nan, _ => a.quiet
  | _, .nan => b.quiet
  | .infinite s, .infinite t => signedInfinity (s != t)
  | .infinite s, .finite t n | .finite s n, .infinite t =>
    if n = 0 then invalid else signedInfinity (s != t)
  | .finite s m, .finite t n => rounded (s != t) (m * n) f.one

/-- The quotient `a / b`. A number other than zero over zero is infinite. -/
@[specialize f] def div (a b : Binary f) : Binary f :=
  match a.value, b.value with
  | .nan, _ => a.quiet
  | _, .nan => b.quiet
  | .infinite _, .infinite _ => invalid
  | .infinite s, .finite t _ => signedInfinity (s != t)
  | .finite s _, .infinite t => signedZero (s != t)
  | .finite s m, .finite t n =>
    if n ≠ 0 then rounded (s != t) (m * f.one) n
    else if m ≠ 0 then signedInfinity (s != t)
    else invalid

instance : Neg (Binary f) := ⟨neg⟩
instance : Add (Binary f) := ⟨add⟩
instance : Sub (Binary f) := ⟨sub⟩
instance : Mul (Binary f) := ⟨mul⟩
instance : Div (Binary f) := ⟨div⟩

/-- The greatest whole number not above `a`, as a word; a zero keeps its sign. -/
@[specialize f] def floor (a : Binary f) : Binary f :=
  match a.value with
  | .nan => a.quiet
  | .infinite _ => a
  | .finite s n =>
    let whole := signed s n / f.one
    if whole = 0 then signedZero s else ofInt whole

/-- The whole number nearest to a finite word, halfway the even one; zero for any
    other word. -/
def nearestInt (a : Binary f) : Int :=
  match a.value with
  | .finite s n => signed s (divNearest n f.one)
  | .infinite _ | .nan => 0

/-! ### Order -/

instance : LT (Binary f) := ⟨fun a b => a.isNaN = false ∧ b.isNaN = false ∧ a.rank < b.rank⟩
instance : LE (Binary f) := ⟨fun a b => a.isNaN = false ∧ b.isNaN = false ∧ a.rank ≤ b.rank⟩

instance (a b : Binary f) : Decidable (a < b) := inferInstanceAs (Decidable (_ ∧ _ ∧ _))
instance (a b : Binary f) : Decidable (a ≤ b) := inferInstanceAs (Decidable (_ ∧ _ ∧ _))

/-- The greater of two numbers; the other operand if one is not a number. -/
def maxNumber (a b : Binary f) : Binary f :=
  if a.isNaN then b else if b.isNaN then a else if a < b then b else a

/-- The lesser of two numbers; the other operand if one is not a number. -/
def minNumber (a b : Binary f) : Binary f :=
  if a.isNaN then b else if b.isNaN then a else if b < a then b else a

/-- The number nearest to `a` between `low` and `high`. A word that is not a
    number stays as it is, and so does a zero at a bound. -/
def clamp (a low high : Binary f) : Binary f :=
  let a := if a < low then low else a
  if high < a then high else a

/-! ### Between formats -/

/-- The word of the format `g` nearest to `a`. A word that is not a number keeps
    its sign and the leading bits of its payload, and becomes quiet. -/
@[specialize f] def convert (g : Format) (a : Binary f) : Binary g :=
  match a.value with
  | .nan =>
    let payload := (a.magnitude - f.infinity) * weight g.fractionBits / weight f.fractionBits
    (ofParts a.negative (g.infinity + payload)).quiet
  | .infinite s => signedInfinity s
  | .finite s n => rounded s (n * g.one) f.one

end Binary

namespace Binary32

/-- The word with the given bits. -/
def ofBits (bits : BitVec 32) : Binary32 := ⟨bits⟩

/-- Half a turn in radians. -/
def pi : Binary32 := 3.14159265358979323846

/-- A turn in radians. -/
def tau : Binary32 := 6.28318530717958647692

/-- The step from one to the next greater word. -/
def epsilon : Binary32 := 1.1920928955078125e-7

/-- The bits of a word as a whole number with sign: how whole numbers travel
    through a signal word. No value is converted. -/
def toInt32 (a : Binary32) : Int32 := .ofBitVec a.bits

/-- The word whose bits are those of `n`. -/
def ofInt32 (n : Int32) : Binary32 := ⟨n.toBitVec⟩

@[simp] theorem toInt32_ofInt32 (n : Int32) : (ofInt32 n).toInt32 = n := rfl

@[simp] theorem ofInt32_toInt32 (a : Binary32) : ofInt32 a.toInt32 = a := rfl

end Binary32

namespace Binary64

/-- The word with the given bits. -/
def ofBits (bits : BitVec 64) : Binary64 := ⟨bits⟩

end Binary64

end SignalGraph
