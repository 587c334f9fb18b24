import TermRewriting.Binary64

/-!
# Decimal texts of binary64 numbers

A finite number is written with the fewest digits that read back as the same number. The digits are
found in exact arithmetic: for 1, 2, … 17 digits the two neighbours of the value on that decimal
grid are tested, and the first grid with a neighbour inside the rounding interval wins. What the
digits look like on paper is a separate record, `RealFormat`.

## Termination

There are seventeen grids, and no other loop.
-/

namespace TermRewriting

/-- The decimal `digits · 10 ^ exponent`. -/
structure Decimal where
  digits : Nat
  exponent : Int
deriving DecidableEq

/-- Which of two equally near decimals is taken. -/
inductive TieRule where
  | up
  | even
deriving DecidableEq

namespace Binary64

/-! ## Digits -/

/-- The exponent of the first decimal digit of a finite number that is not zero. -/
def leadingPlace (x : Binary64) : Int :=
  let (num, den) := x.fraction
  -- 350 places are more than any number has zeros behind the point
  ((Nat.toDigits 10 (num * Nat.pow 10 350 / den)).length : Int) - 351

/-- Whether the fraction `a / b` is below `c / d`. -/
def fractionLt (a b c d : Nat) : Bool := a * d < c * b

/-- The fraction `n · 10 ^ k`. -/
def tenfold (n : Nat) (k : Int) : Nat × Nat :=
  if 0 ≤ k then (n * Nat.pow 10 k.toNat, 1) else (n, Nat.pow 10 (-k).toNat)

/-- The rounding interval of a finite number, in quarters of its last place. Below a power of two
the next number is only half as far away. -/
def quarters (x : Binary64) : Nat × Nat :=
  let m := 4 * x.significand
  let narrow := x.magnitude % Nat.pow 2 52 == 0 && Nat.pow 2 53 ≤ x.magnitude
  (if narrow then m - 1 else m - 2, m + 2)

/-- Whether the decimal `n · 10 ^ k` reads back as the number. The ends of the interval do so iff
the significand is even. -/
def readsAs (x : Binary64) (n : Nat) (k : Int) : Bool :=
  let (a, b) := tenfold n k
  let (low, high) := x.quarters
  let place (m : Nat) : Nat × Nat :=
    if 0 ≤ x.exponent then (m * Nat.pow 2 x.exponent.toNat, 4)
    else (m, 4 * Nat.pow 2 (-x.exponent).toNat)
  let (lowNum, den) := place low
  let (highNum, _) := place high
  if x.significand % 2 = 0 then !fractionLt a b lowNum den && !fractionLt highNum den a b
  else fractionLt lowNum den a b && fractionLt a b highNum den

/-- The decimal with `count` digits that reads back as the number, if there is one. -/
def onGrid (tie : TieRule) (x : Binary64) (count : Nat) : Option Decimal :=
  let k := x.leadingPlace - count + 1
  let (num, den) := x.fraction
  let (n, d) :=
    if 0 ≤ k then (num, den * Nat.pow 10 k.toNat) else (num * Nat.pow 10 (-k).toNat, den)
  let below := n / d
  let rest := 2 * (n % d)
  let above := below + 1
  let nearer :=
    if rest < d then below
    else if d < rest then above
    else match tie with
      | .up => above
      | .even => below + below % 2
  let farther := if nearer = below then above else below
  let normal (m : Nat) : Decimal := if m = Nat.pow 10 count then ⟨1, k + count⟩ else ⟨m, k⟩
  if x.readsAs nearer k then some (normal nearer)
  else if x.readsAs farther k then some (normal farther)
  else none

/-- The shortest decimal that reads back as a finite number other than zero. -/
def shortest (tie : TieRule) (x : Binary64) : Decimal :=
  ((List.range' 1 17).findSome? (x.onGrid tie)).getD ⟨0, 0⟩

end Binary64

/-! ## Layout -/

/-- How a number is laid out. -/
structure RealFormat where
  /-- The least exponent of the first digit that is written positionally. -/
  positionalFrom : Option Int
  /-- The greatest exponent of the first digit that is written positionally. -/
  positionalTo : Option Int
  /-- What follows the digits of an integer. -/
  whole : String
  /-- The mark of an exponent that is not negative. -/
  plus : String
  /-- The choice between two shortest decimals that are equally near. -/
  tie : TieRule

namespace RealFormat

def zeros (n : Nat) : String := String.ofList (List.replicate n '0')

/-- Digits around a point, the first digit standing at `10 ^ place`. -/
def positional (f : RealFormat) (digits : String) (place : Int) : String :=
  let length : Int := digits.length
  let digitList := digits.toList
  if place < 0 then "0." ++ zeros (-place - 1).toNat ++ digits
  else if length ≤ place + 1 then digits ++ zeros (place + 1 - length).toNat ++ f.whole
  else
    String.ofList (digitList.take (place + 1).toNat) ++ "." ++
      String.ofList (digitList.drop (place + 1).toNat)

/-- One digit before the point, and an exponent without zeros in front. -/
def scientific (f : RealFormat) (digits : String) (place : Int) : String :=
  let mantissa :=
    match digits.toList with
    | d :: e :: rest => String.ofList (d :: '.' :: e :: rest)
    | short => String.ofList short
  let sign := if place < 0 then "-" else f.plus
  mantissa ++ "e" ++ sign ++ toString place.natAbs

/-- Whether a first digit at `10 ^ place` is written positionally. -/
def isPositional (f : RealFormat) (place : Int) : Bool :=
  f.positionalFrom.all (· ≤ place) && f.positionalTo.all (place ≤ ·)

/-- The text of a finite number. -/
def finiteText (f : RealFormat) (x : Binary64) : String :=
  let sign := if x.negative then "-" else ""
  if x.magnitude = 0 then sign ++ "0" ++ f.whole
  else
    let decimal := x.shortest f.tie
    let digits := toString decimal.digits
    let place := decimal.exponent + digits.length - 1
    sign ++ (if f.isPositional place then f.positional digits place else f.scientific digits place)

/-- The text of any number; infinities and NaNs have names. -/
def text (f : RealFormat) (x : Binary64) : String :=
  if x.isFinite then f.finiteText x
  else if x.isNaN then "NaN"
  else if x.negative then "-inf" else "inf"

end RealFormat

/-- Numbers in rendered terms are always positional: integers with all their digits and one zero
behind the point, other numbers with the shortest digits. -/
def Binary64.renderedText (x : Binary64) : String :=
  match x.toInt? with
  | some n => (if x.negative then "-" else "") ++ toString n.natAbs ++ ".0"
  | none => RealFormat.text ⟨none, none, ".0", "", .up⟩ x

/-- Numbers in debugging texts are positional from `0.0001` to below `10 ^ 16`. -/
def Binary64.debugText (x : Binary64) : String :=
  RealFormat.text ⟨some (-4), some 15, ".0", "", .up⟩ x

end TermRewriting
