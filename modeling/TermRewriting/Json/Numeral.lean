import TermRewriting.Binary64.Decimal

/-!
# Numbers in JSON

A number by its digits. Integers that fit 64 bits are exact. Everything else is read as a binary64
number: the digits that fit a 64-bit significand, all further digits dropped, and then one
multiplication or division by a power of ten, which rounds once more.
-/

namespace TermRewriting

structure Numeral where
  negative : Bool
  whole : List Nat
  fraction : Option (List Nat)
  /-- Whether the exponent is negative, and its digits. -/
  exponent : Option (Bool × List Nat)
deriving DecidableEq

namespace Numeral

/-! ## Grammar -/

def digitValue (c : Char) : Nat := c.toNat - '0'.toNat

/-- The digits at the front, and what follows. -/
def takeDigits (cs : List Char) : List Nat × List Char :=
  ((cs.takeWhile Char.isDigit).map digitValue, cs.dropWhile Char.isDigit)

/-- Only a zero may start with a zero, and there is at least one digit. -/
def isWhole : List Nat → Bool
  | [] => false
  | [_] => true
  | d :: _ => d != 0

/-- A fraction, if a point is there; it has at least one digit. -/
def takeFraction : List Char → Option (Option (List Nat) × List Char)
  | '.' :: cs =>
    let (digits, rest) := takeDigits cs
    if digits.isEmpty then none else some (some digits, rest)
  | cs => some (none, cs)

/-- The digits of an exponent, of which there is at least one. -/
def takeExponentDigits (negative : Bool) (cs : List Char) :
    Option (Option (Bool × List Nat) × List Char) :=
  let (digits, rest) := takeDigits cs
  if digits.isEmpty then none else some (some (negative, digits), rest)

/-- An exponent, if its mark is there. -/
def takeExponent : List Char → Option (Option (Bool × List Nat) × List Char)
  | c :: cs =>
    if c = 'e' ∨ c = 'E' then
      match cs with
      | '-' :: rest => takeExponentDigits true rest
      | '+' :: rest => takeExponentDigits false rest
      | rest => takeExponentDigits false rest
    else some (none, c :: cs)
  | [] => some (none, [])

/-- The sign at the front. -/
def takeSign : List Char → Bool × List Char
  | '-' :: cs => (true, cs)
  | cs => (false, cs)

/-- Reads a number. -/
def ofChars? (cs : List Char) : Option Numeral := do
  let (negative, cs) := takeSign cs
  let (whole, cs) := takeDigits cs
  if !isWhole whole then none
  else
    let (fraction, cs) ← takeFraction cs
    let (exponent, cs) ← takeExponent cs
    if cs.isEmpty then some ⟨negative, whole, fraction, exponent⟩ else none

/-! ## Integers -/

/-- The number that digits stand for. -/
def value (digits : List Nat) : Nat := digits.foldl (fun acc d => 10 * acc + d) 0

/-- Whether the number is written without point and exponent. -/
def isInteger (n : Numeral) : Bool := n.fraction.isNone && n.exponent.isNone

/-- The number as a 64-bit integer. A zero with a sign is not one. -/
def toInt64? (n : Numeral) : Option Int64 :=
  let magnitude := value n.whole
  if !n.isInteger then none
  else if n.negative then
    if 0 < magnitude && magnitude ≤ Nat.pow 2 63 then some (Int64.ofInt (-(magnitude : Int)))
    else none
  else if magnitude < Nat.pow 2 63 then some (Int64.ofInt magnitude) else none

/-! ## Reals -/

/-- Takes digits into a number as long as it stays below `bound`, and returns it with the digits
that were left. -/
def accumulate (bound : Nat) (acc : Nat) : List Nat → Nat × List Nat
  | [] => (acc, [])
  | d :: ds =>
    if 10 * acc + d < bound then accumulate bound (10 * acc + d) ds else (acc, d :: ds)

def powerOfTen (k : Nat) : Binary64 := .nearest false (Nat.pow 10 k) 1

/-- The absolute value `significand · 10 ^ exponent`, rounded after every operation. A power of ten
is at most `10 ^ 308`; what would be infinite is refused. -/
def scaled? (significand : Nat) (exponent : Int) : Option Binary64 :=
  let base := Binary64.nearest false significand 1
  if 308 < exponent then
    if significand = 0 then some .zero else none
  else if 0 ≤ exponent then
    let result := base.product (powerOfTen exponent.toNat)
    if result.isFinite then some result else none
  else if -308 ≤ exponent then some (base.quotient (powerOfTen (-exponent).toNat))
  else if -616 ≤ exponent then
    some ((base.quotient (powerOfTen 308)).quotient (powerOfTen (-exponent - 308).toNat))
  else some .zero

/-- The exponent of the last digit of the significand after the written exponent. -/
def finalExponent (start : Int) (negative : Bool) (exponent : Nat) : Int :=
  if negative then max (-(Nat.pow 2 31)) (start - exponent)
  else min (Nat.pow 2 31 - 1) (start + exponent)

/-- The absolute value as a real. A written exponent beyond 31 bits leaves nothing, or is refused
if it is positive. -/
def magnitude? (n : Numeral) : Option Binary64 :=
  let (significand, dropped) := accumulate (Nat.pow 2 64) 0 n.whole
  let (significand, taken) :=
    match n.fraction with
    | none => (significand, 0)
    | some digits =>
      let (longer, rest) := accumulate (Nat.pow 2 64) significand digits
      (longer, digits.length - rest.length)
  let start : Int := (dropped.length : Int) - taken
  match n.exponent with
  | none => scaled? significand start
  | some (negative, digits) =>
    match accumulate (Nat.pow 2 31) 0 digits with
    | (exponent, []) => scaled? significand (finalExponent start negative exponent)
    | _ => if negative || significand = 0 then some .zero else none

/-- The number as a real. -/
def toReal? (n : Numeral) : Option Binary64 :=
  n.magnitude?.map fun x => if n.negative then x.opposite else x

end Numeral

/-- The characters of an integer. -/
def Numeral.ofInt (n : Int) : List Char := (toString n).toList

/-- Reals in JSON are positional from `0.00001` to below `10 ^ 16`; exponents always have a sign. -/
def Numeral.realFormat : RealFormat := ⟨some (-5), some 15, ".0", "+", .even⟩

/-- The characters of a finite real. -/
def Numeral.ofReal (x : Binary64) : List Char := (Numeral.realFormat.finiteText x).toList

end TermRewriting
