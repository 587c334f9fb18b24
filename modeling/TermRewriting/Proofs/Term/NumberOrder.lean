import TermRewriting.Proofs.Binary64.Rounding
import TermRewriting.Proofs.Term.Order

/-!
# Numbers in the canonical order

An integer stands right before the number it rounds to, and reals stand by the total order of bits,
where `-0` comes before `0`. Rounding keeps to its side, so integers and reals are ordered by value
with two exceptions: an integer also comes before a smaller real that it rounds to, and `-0` comes
before the integer zero (`orderedByValue_iff`).
-/

namespace TermRewriting

open ExtendedRat

namespace Binary64

/-! ## The two zeros -/

/-- The zero with a sign. -/
def negativeZero : Binary64 := ofMagnitude true 0

theorem eq_zero_iff {x : Binary64} : x = zero ↔ x.magnitude = 0 ∧ x.negative = false := by
  constructor
  · rintro rfl
    decide
  · rintro ⟨hmagnitude, hsign⟩
    exact eq_of_fields hsign hmagnitude

theorem eq_negativeZero_iff {x : Binary64} :
    x = negativeZero ↔ x.magnitude = 0 ∧ x.negative = true := by
  constructor
  · rintro rfl
    decide
  · rintro ⟨hmagnitude, hsign⟩
    exact eq_of_fields hsign hmagnitude

/-- **The total order is that of the values,** except that it tells the zeros apart. -/
theorem totalKey_le_iff {x y : Binary64} :
    x.totalKey ≤ y.totalKey ↔ x.valueKey ≤ y.valueKey ∧ ¬(x = zero ∧ y = negativeZero) := by
  rw [eq_zero_iff, eq_negativeZero_iff]
  unfold totalKey valueKey
  cases x.negative <;> cases y.negative <;>
    simp only [eq_self, if_true, Bool.false_eq_true, Bool.true_eq_false, if_false, and_true,
      and_false, false_and, not_false_eq_true]
  all_goals omega

theorem value_negativeZero : negativeZero.value = 0 := by
  rw [value, show negativeZero.significand = 0 from by decide, Nat.cast_zero, mul_zero, zero_mul]

/-! ## Rounded integers -/

theorem intMagnitude_eq_zero_iff {n : Nat} : intMagnitude n = 0 ↔ n = 0 := by
  constructor
  · intro h
    by_contra hn
    have hpos : 0 < infiniteMagnitude := by decide
    rw [intMagnitude, if_neg hn] at h
    omega
  · rintro rfl
    rfl

/-- Only zero rounds to zero, and it does so without a sign. -/
theorem ofInt_eq_zero_iff {n : Int} : ofInt n = zero ↔ n = 0 := by
  obtain ⟨hnegative, hmagnitude⟩ := fields_ofInt n
  rw [eq_zero_iff, hnegative, hmagnitude, intMagnitude_eq_zero_iff, decide_eq_false_iff_not]
  omega

/-- The integer is rounded to the value of the number. -/
def RoundsTo (n : Int) (x : Binary64) : Prop := (ofInt n).exact = x.exact

variable {x : Binary64}

/-- A rounded integer is not above a number if the integer is not, or if it is rounded to it. -/
theorem valueKey_ofInt_le_iff (hx : x.isFinite = true) (n : Int) :
    (ofInt n).valueKey ≤ x.valueKey ↔ (n : ℚ) ≤ x.value ∨ RoundsTo n x := by
  have hnumber := isNaN_eq_false_of_isFinite hx
  have hexact : x.exact = ofRat x.value := exact_eq_ofRat_iff.mpr ⟨hx, rfl⟩
  rw [RoundsTo, exact_inj (isNaN_ofInt n) hnumber]
  constructor
  · intro hkeys
    rcases le_or_gt (n : ℚ) x.value with hle | hlt
    · exact .inl hle
    · -- rounding does not take the integer below the number it is above
      have hback : x.exact ≤ ofRat n := by
        rw [hexact, ofRat_le_ofRat]
        exact le_of_lt hlt
      exact .inr (Int.le_antisymm hkeys (le_ofInt hnumber hback))
  · rintro (hle | hrounds)
    · refine ofInt_le hnumber ?_
      rw [hexact, ofRat_le_ofRat]
      exact hle
    · exact Int.le_of_eq hrounds

end Binary64

namespace Term

open Binary64

/-! ## Integers and reals -/

theorem order_integer_real (n : Int64) (r : Binary64) :
    (integer n).order (real r)
      = if (Binary64.ofInt n.toInt).totalKey ≤ r.totalKey then .lt else .gt := by
  show (compare (Binary64.ofInt n.toInt).totalKey r.totalKey).then .lt = _
  split
  · next hle =>
    rcases Int.lt_or_eq_of_le hle with hlt | heq
    · rw [Int.compare_eq_lt.mpr hlt]
      rfl
    · rw [heq, Std.compare_self]
      rfl
  · next hgt =>
    rw [Int.compare_eq_gt.mpr (Int.not_le.mp hgt)]
    rfl

/-- The integer comes first exactly if it does so by value and the real is not the other zero, or if
it rounds to the real. -/
theorem order_integer_real_eq_lt (n : Int64) {r : Binary64} (hr : r.isFinite = true) :
    (integer n).order (real r) = .lt
      ↔ ((n.toInt : ℚ) ≤ r.value ∨ RoundsTo n.toInt r) ∧ ¬(n = 0 ∧ r = negativeZero) := by
  have hzero : n.toInt = 0 ↔ n = 0 := Int64.toInt_inj (y := 0)
  rw [order_integer_real, ← valueKey_ofInt_le_iff hr, ← hzero, ← ofInt_eq_zero_iff,
    ← totalKey_le_iff]
  split <;> simp [*]

/-- The two are ordered by value, and the integer comes first where they are equal. -/
structure OrderedByValue (n : Int64) (r : Binary64) : Prop where
  integerFirst : (n.toInt : ℚ) ≤ r.value → (integer n).order (real r) = .lt
  realFirst : r.value < n.toInt → (integer n).order (real r) = .gt
  reversed : (real r).order (integer n) = ((integer n).order (real r)).swap

/-- Of an integer and a real one always comes first. -/
theorem order_integer_real_eq_gt (n : Int64) (r : Binary64) :
    (integer n).order (real r) = .gt ↔ (integer n).order (real r) ≠ .lt := by
  rw [order_integer_real]
  split <;> simp

/-- **When an integer and a real are ordered by value.** The two orders are each other's reverse.
The integer comes first exactly if it is not greater or rounds to the real, and not where the
integer zero meets `-0`. So the two are ordered by value if and only if the integer does not round
to a smaller real and they are not zero and `-0`; this holds in particular of all integers up to
`2 ^ 53` and all reals but `-0`. -/
theorem orderedByValue_iff (n : Int64) {r : Binary64} (hr : r.isFinite = true) :
    (real r).order (integer n) = ((integer n).order (real r)).swap
      ∧ ((integer n).order (real r) = .lt
          ↔ ((n.toInt : ℚ) ≤ r.value ∨ RoundsTo n.toInt r) ∧ ¬(n = 0 ∧ r = negativeZero))
      ∧ (OrderedByValue n r
          ↔ (RoundsTo n.toInt r → (n.toInt : ℚ) ≤ r.value) ∧ ¬(n = 0 ∧ r = negativeZero))
      ∧ (n.toInt.natAbs ≤ 2 ^ 53 → r ≠ negativeZero → OrderedByValue n r) := by
  have hswap := order_swap (real r) (integer n)
  have hlt := order_integer_real_eq_lt n hr
  have hgt := order_integer_real_eq_gt n r
  have hiff : OrderedByValue n r
      ↔ (RoundsTo n.toInt r → (n.toInt : ℚ) ≤ r.value) ∧ ¬(n = 0 ∧ r = negativeZero) := by
    constructor
    · intro h
      -- `-0` is not less than zero, so it would have to come second
      have hzeros : ¬(n = 0 ∧ r = negativeZero) := by
        rintro ⟨rfl, rfl⟩
        exact (hlt.mp (h.integerFirst value_negativeZero.ge)).2 ⟨rfl, rfl⟩
      refine ⟨fun hrounds => ?_, hzeros⟩
      by_contra hnot
      exact hgt.mp (h.realFirst (not_le.mp hnot)) (hlt.mpr ⟨.inr hrounds, hzeros⟩)
    · rintro ⟨hrounds, hzeros⟩
      refine ⟨fun hle => hlt.mpr ⟨.inl hle, hzeros⟩, fun hless => hgt.mpr fun hfirst => ?_, hswap⟩
      rcases (hlt.mp hfirst).1 with hle | hto
      · exact absurd hless (not_lt.mpr hle)
      · exact absurd hless (not_lt.mpr (hrounds hto))
  refine ⟨hswap, hlt, hiff, fun hsmall hsign => hiff.mpr ⟨fun hrounds => ?_, fun h => hsign h.2⟩⟩
  have hvalue := exact_eq_ofRat_iff.mp (hrounds.symm.trans (exact_ofInt hsmall))
  exact hvalue.2.ge

/-- The integer `2 ^ 53 + 1`, which no real equals, and the next real after it. -/
theorem orderedByValue_iff_next :
    let r : Binary64 := ⟨0x4340000000000001⟩
    r.isFinite = true ∧ OrderedByValue 9007199254740993 r
      ∧ (integer 9007199254740993).order (real r) = .lt := by
  intro r
  have hfinite : r.isFinite = true := by decide
  obtain ⟨-, -, hiff, -⟩ := orderedByValue_iff 9007199254740993 hfinite
  have hle : (((9007199254740993 : Int64).toInt : ℤ) : ℚ) ≤ r.value := by
    rw [intCast_le_value]
    decide +kernel
  have hordered := hiff.mpr ⟨fun _ => hle, by decide⟩
  exact ⟨hfinite, hordered, hordered.integerFirst hle⟩

/-- The integer `2 ^ 53 + 1` comes before the real `2 ^ 53`, which is less, and `-0` before the
integer zero, which is equal to it. -/
theorem not_orderedByValue_neighbours :
    let n : Int64 := 9007199254740993
    let r : Binary64 := ⟨0x4340000000000000⟩
    (r.isFinite = true ∧ r.value < n.toInt
        ∧ (integer n).order (real r) = .lt ∧ ¬OrderedByValue n r)
      ∧ negativeZero.isFinite = true ∧ ((0 : Int64).toInt : ℚ) = negativeZero.value
        ∧ (integer 0).order (real negativeZero) = .gt ∧ ¬OrderedByValue 0 negativeZero := by
  intro n r
  refine ⟨?rounded, ?zeros⟩
  case rounded =>
    have hless : r.value < n.toInt := by
      rw [← not_le, intCast_le_value]
      decide +kernel
    have hfirst : (integer n).order (real r) = .lt := by decide +kernel
    refine ⟨by decide, hless, hfirst, fun h => ?_⟩
    cases hfirst.symm.trans (h.realFirst hless)
  case zeros =>
    have hequal : ((0 : Int64).toInt : ℚ) = negativeZero.value := value_negativeZero.symm
    have hsecond : (integer 0).order (real negativeZero) = .gt := by decide +kernel
    refine ⟨by decide, hequal, hsecond, fun h => ?_⟩
    cases hsecond.symm.trans (h.integerFirst hequal.le)

end Term

end TermRewriting
