import Mathlib.Algebra.Order.Field.Rat
import Mathlib.Data.Rat.Cast.Order
import Mathlib.Order.WithBot
import TermRewriting.Proofs.Binary64.Value

/-!
# Exact values

The value of a finite number is the rational `± significand · 2 ^ exponent`; with the two infinities
at the ends, all numbers but the NaNs have one (`exact`). Comparison by key is comparison by value
(`exact_le_exact`), and a number is the integer `n` exactly if its value is (`toInt?_eq_some_iff`).
-/

namespace TermRewriting

/-- The rational numbers with an infinity at each end. -/
abbrev ExtendedRat := WithBot (WithTop ℚ)

/-- A rational among these. -/
def ExtendedRat.ofRat (q : ℚ) : ExtendedRat := ((q : WithTop ℚ) : WithBot (WithTop ℚ))

namespace ExtendedRat

@[simp] theorem ofRat_le_ofRat {p q : ℚ} : ofRat p ≤ ofRat q ↔ p ≤ q := by
  simp [ofRat]

@[simp] theorem ofRat_inj {p q : ℚ} : ofRat p = ofRat q ↔ p = q := by
  simp [ofRat]

@[simp] theorem ofRat_ne_top (q : ℚ) : ofRat q ≠ ⊤ := by
  simp [ofRat]

@[simp] theorem ofRat_ne_bot (q : ℚ) : ofRat q ≠ ⊥ := by
  simp [ofRat]

end ExtendedRat

open ExtendedRat

namespace Binary64

/-- The value of a finite number. -/
def value (x : Binary64) : ℚ := (if x.negative then -1 else 1) * x.significand * 2 ^ x.exponent

/-- The value of a number that is not a NaN. -/
def exact (x : Binary64) : ExtendedRat :=
  if x.isFinite then ofRat x.value else if x.negative then ⊥ else ⊤

/-- The units of a number, with its sign. -/
def signedUnits (x : Binary64) : Int := if x.negative then -(x.units : Int) else x.units

/-! ## Finite numbers -/

theorem value_mul_two_pow (x : Binary64) : x.value * 2 ^ places = x.signedUnits := by
  have hpower : (2 : ℚ) ^ x.exponent * 2 ^ places = 2 ^ (x.magnitude / 2 ^ 52 - 1) := by
    rw [exponent_eq, zpow_sub₀ two_ne_zero, zpow_natCast, zpow_natCast,
      div_mul_cancel₀ _ (pow_ne_zero _ two_ne_zero)]
  rw [value, mul_assoc, hpower, signedUnits, units]
  split <;> simp

theorem value_le_value {x y : Binary64} : x.value ≤ y.value ↔ x.signedUnits ≤ y.signedUnits := by
  rw [← Int.cast_le (R := ℚ), ← value_mul_two_pow, ← value_mul_two_pow,
    mul_le_mul_iff_left₀ (pow_pos two_pos places)]

theorem value_le_intCast {x : Binary64} {n : Int} :
    x.value ≤ n ↔ x.signedUnits ≤ n * 2 ^ places := by
  rw [← Int.cast_le (R := ℚ), ← value_mul_two_pow, Int.cast_mul, Int.cast_pow, Int.cast_ofNat,
    mul_le_mul_iff_left₀ (pow_pos two_pos places)]

theorem intCast_le_value {x : Binary64} {n : Int} :
    n ≤ x.value ↔ n * 2 ^ places ≤ x.signedUnits := by
  rw [← Int.cast_le (R := ℚ), ← value_mul_two_pow, Int.cast_mul, Int.cast_pow, Int.cast_ofNat,
    mul_le_mul_iff_left₀ (pow_pos two_pos places)]

theorem units_le_units {x y : Binary64} : x.units ≤ y.units ↔ x.magnitude ≤ y.magnitude := by
  constructor
  · intro h
    by_contra hlt
    exact absurd h (Nat.not_le_of_lt (units_lt_units (Nat.lt_of_not_le hlt)))
  · intro h
    rcases Nat.lt_or_eq_of_le h with hlt | heq
    · exact Nat.le_of_lt (units_lt_units hlt)
    · unfold units significand
      rw [heq]

theorem units_eq_zero_iff {x : Binary64} : x.units = 0 ↔ x.magnitude = 0 := by
  refine ⟨fun h => ?_, units_eq_zero⟩
  have hzero : (⟨0⟩ : Binary64).units = 0 := units_eq_zero (by decide)
  exact magnitude_eq_of_units_eq (h.trans hzero.symm)

theorem signedUnits_le_signedUnits {x y : Binary64} :
    x.signedUnits ≤ y.signedUnits ↔ x.valueKey ≤ y.valueKey := by
  have hxy := @units_le_units x y
  have hyx := @units_le_units y x
  have hx := @units_eq_zero_iff x
  have hy := @units_eq_zero_iff y
  unfold signedUnits valueKey
  split <;> split <;> omega

/-! ## All numbers but the NaNs -/

/-- A number that is not a NaN is finite or one of the infinities. -/
theorem exact_cases {x : Binary64} (h : x.isNaN = false) :
    (x.exact = ofRat x.value ∧ -(infiniteMagnitude : Int) < x.valueKey
        ∧ x.valueKey < infiniteMagnitude)
      ∨ (x.exact = ⊤ ∧ x.valueKey = infiniteMagnitude)
      ∨ (x.exact = ⊥ ∧ x.valueKey = -(infiniteMagnitude : Int)) := by
  simp only [isNaN, decide_eq_false_iff_not, Nat.not_lt] at h
  unfold exact isFinite valueKey
  rcases Nat.lt_or_eq_of_le h with hlt | heq
  · refine .inl ⟨by simp [hlt], ?_⟩
    split <;> omega
  · rw [heq]
    cases x.negative <;> simp

/-- **Numbers are ordered by their values.** -/
theorem exact_le_exact {x y : Binary64} (hx : x.isNaN = false) (hy : y.isNaN = false) :
    x.exact ≤ y.exact ↔ x.valueKey ≤ y.valueKey := by
  have hpos : 0 < (infiniteMagnitude : Int) := by decide
  rcases exact_cases hx with ⟨hxe, hxlow, hxhigh⟩ | ⟨hxe, hxk⟩ | ⟨hxe, hxk⟩ <;>
    rcases exact_cases hy with ⟨hye, hylow, hyhigh⟩ | ⟨hye, hyk⟩ | ⟨hye, hyk⟩
  · rw [hxe, hye, ofRat_le_ofRat, value_le_value, signedUnits_le_signedUnits]
  -- the other cases have an infinity on one side
  all_goals simp only [hxe, hye, le_top, bot_le, top_le_iff, le_bot_iff, ofRat_ne_top, ofRat_ne_bot,
    top_ne_bot, true_iff, false_iff]
  all_goals omega

theorem exact_inj {x y : Binary64} (hx : x.isNaN = false) (hy : y.isNaN = false) :
    x.exact = y.exact ↔ x.valueKey = y.valueKey := by
  rw [le_antisymm_iff, exact_le_exact hx hy, exact_le_exact hy hx, ← le_antisymm_iff]

theorem exact_eq_ofRat_iff {x : Binary64} {q : ℚ} :
    x.exact = ofRat q ↔ x.isFinite = true ∧ x.value = q := by
  unfold exact
  cases x.isFinite <;> cases x.negative <;>
    simp [(ofRat_ne_top q).symm, (ofRat_ne_bot q).symm]

theorem value_eq_intCast {x : Binary64} {n : Int} :
    x.value = n ↔ x.units = n.natAbs * 2 ^ places
      ∧ (if x.negative then -(n.natAbs : Int) else n.natAbs) = n := by
  have hpos : (0 : Int) < 2 ^ places := pow_pos two_pos places
  rw [le_antisymm_iff, value_le_intCast, intCast_le_value, ← le_antisymm_iff]
  have hsigned : x.units = n.natAbs * 2 ^ places → x.signedUnits
      = (if x.negative then -(n.natAbs : Int) else n.natAbs) * 2 ^ places := by
    intro h
    rw [signedUnits, h, Nat.cast_mul, Nat.cast_pow, Nat.cast_ofNat]
    split <;> simp
  constructor
  · intro h
    have habs : x.signedUnits.natAbs = x.units := by
      unfold signedUnits
      split <;> simp
    have hunits : x.units = n.natAbs * 2 ^ places := by
      rw [← habs, h, Int.natAbs_mul, Int.natAbs_pow, show Int.natAbs 2 = 2 from rfl]
    exact ⟨hunits, mul_right_cancel₀ (ne_of_gt hpos) ((hsigned hunits).symm.trans h)⟩
  · rintro ⟨hunits, hsign⟩
    rw [hsigned hunits, hsign]

/-- **The integral value is the value, if that is an integer.** -/
theorem toInt?_eq_some_iff {x : Binary64} {n : Int} :
    x.toInt? = some n ↔ x.isFinite = true ∧ x.value = n := by
  rw [value_eq_intCast]
  constructor
  · intro h
    obtain ⟨hfinite, hunits, hneg, hpos⟩ := of_toInt?_eq_some h
    refine ⟨hfinite, hunits, ?_⟩
    cases hx : x.negative with
    | true =>
      have : ¬0 < n := fun hn => by simp [hpos hn] at hx
      rw [if_pos rfl]
      omega
    | false =>
      have : ¬n < 0 := fun hn => by simp [hneg hn] at hx
      rw [if_neg Bool.false_ne_true]
      omega
  · rintro ⟨hfinite, hunits, hsign⟩
    have hden := x.fraction_den_pos
    have hnum : x.fraction.1 = n.natAbs * x.fraction.2 := by
      refine Nat.eq_of_mul_eq_mul_right (Nat.two_pow_pos places) ?_
      rw [fraction_eq_units, hunits, Nat.mul_right_comm]
    unfold toInt?
    simp only [hnum, hfinite, Nat.mul_mod_left, Nat.mul_div_cancel _ hden]
    simpa using hsign

end Binary64

end TermRewriting
