/-!
# Binary64

Floating-point numbers as their 64 bits, so that every NaN payload and the sign of zero are kept.
All arithmetic is exact arithmetic on `m · 2 ^ q` followed by one rounding to nearest, ties to the
even neighbour.
-/

namespace TermRewriting

/-- A binary64 number: one sign bit, eleven exponent bits, fifty-two fraction bits. -/
structure Binary64 where
  bits : UInt64
deriving DecidableEq

namespace Binary64

/-! ## Fields -/

/-- The sign bit. -/
def negative (x : Binary64) : Bool := Nat.pow 2 63 ≤ x.bits.toNat

/-- The bits below the sign, as a number: it grows with the absolute value. -/
def magnitude (x : Binary64) : Nat := x.bits.toNat % Nat.pow 2 63

/-- The magnitude of the infinities; a larger one belongs to a NaN. -/
def infiniteMagnitude : Nat := 2047 * Nat.pow 2 52

def isNaN (x : Binary64) : Bool := infiniteMagnitude < x.magnitude

def isFinite (x : Binary64) : Bool := x.magnitude < infiniteMagnitude

/-- A number from its sign and magnitude. -/
def ofMagnitude (negative : Bool) (magnitude : Nat) : Binary64 :=
  ⟨UInt64.ofNat (if negative then Nat.pow 2 63 + magnitude else magnitude)⟩

def zero : Binary64 := ofMagnitude false 0

/-- The number with the opposite sign. -/
def opposite (x : Binary64) : Binary64 := ofMagnitude (!x.negative) x.magnitude

/-- The `m` of the absolute value `m · 2 ^ q` of a finite number. -/
def significand (x : Binary64) : Nat :=
  if x.magnitude < Nat.pow 2 52 then x.magnitude else Nat.pow 2 52 + x.magnitude % Nat.pow 2 52

/-- The `q` of the absolute value `m · 2 ^ q` of a finite number. -/
def exponent (x : Binary64) : Int :=
  if x.magnitude < Nat.pow 2 52 then -1074 else (x.magnitude / Nat.pow 2 52 : Nat) - 1075

/-- The absolute value of a finite number as a fraction. -/
def fraction (x : Binary64) : Nat × Nat :=
  if 0 ≤ x.exponent then (x.significand * Nat.pow 2 x.exponent.toNat, 1)
  else (x.significand, Nat.pow 2 (-x.exponent).toNat)

/-- The value, if it is an integer. -/
def toInt? (x : Binary64) : Option Int :=
  let (num, den) := x.fraction
  if x.isFinite && num % den == 0 then
    some (if x.negative then -(num / den : Nat) else (num / den : Nat))
  else none

/-! ## Comparison -/

/-- A key that orders numbers by value; both zeros have key zero. -/
def valueKey (x : Binary64) : Int :=
  if x.negative then -(x.magnitude : Int) else x.magnitude

/-- Comparison by value. A NaN compares with nothing. -/
def compare? (x y : Binary64) : Option Ordering :=
  if x.isNaN || y.isNaN then none else some (compare x.valueKey y.valueKey)

def lt (x y : Binary64) : Bool := x.compare? y == some .lt

def le (x y : Binary64) : Bool := x.lt y || x.compare? y == some .eq

/-- A key for the total order: negative NaNs, numbers by value with `-0` before `0`, NaNs. -/
def totalKey (x : Binary64) : Int :=
  if x.negative then -1 - (x.magnitude : Int) else x.magnitude

/-- The total order on all bit patterns. -/
def totalOrder (x y : Binary64) : Ordering := compare x.totalKey y.totalKey

/-! ## Rounding -/

/-- The quotient rounded to the nearest integer, ties to the even one. -/
def roundedQuotient (num den : Nat) : Nat :=
  let below := num / den
  let rest := 2 * (num % den)
  if rest < den then below
  else if den < rest then below + 1
  else below + below % 2

/-- The fraction `num / den / 2 ^ q`. -/
def scaled (num den : Nat) (q : Int) : Nat × Nat :=
  if 0 ≤ q then (num, den * Nat.pow 2 q.toNat) else (num * Nat.pow 2 (-q).toNat, den)

/-- The exponent of the last place of a number near `num / den`: the significand gets 53 bits, or
fewer at the lower end of the exponents. -/
def lastPlace (num den : Nat) : Int :=
  let guess : Int := (num.log2 : Int) - den.log2 - 53
  let (n, d) := scaled num den guess
  max (-1074) (if Nat.pow 2 53 ≤ n / d then guess + 1 else guess)

/-- The number nearest to `num / den`, with the given sign. What lies beyond the largest number
rounds to infinity. -/
def nearest (negative : Bool) (num den : Nat) : Binary64 :=
  if num = 0 then ofMagnitude negative 0
  else
    let q := lastPlace num den
    let (n, d) := scaled num den q
    -- a significand of 53 bits carries its leading bit into the exponent field
    let magnitude := (q + 1074).toNat * Nat.pow 2 52 + roundedQuotient n d
    ofMagnitude negative (min magnitude infiniteMagnitude)

/-- The number nearest to an integer. -/
def ofInt (n : Int) : Binary64 := nearest (n < 0) n.natAbs 1

/-- The rounded product of two finite numbers. -/
def product (x y : Binary64) : Binary64 :=
  let (a, b) := x.fraction
  let (c, d) := y.fraction
  nearest (x.negative != y.negative) (a * c) (b * d)

/-- The rounded quotient of two finite numbers, the second not zero. -/
def quotient (x y : Binary64) : Binary64 :=
  let (a, b) := x.fraction
  let (c, d) := y.fraction
  nearest (x.negative != y.negative) (a * d) (b * c)

end Binary64

end TermRewriting
