import Mathlib.Algebra.Ring.Nat
import TermRewriting.Binary64

/-!
# Values of numbers

The absolute value of a finite number is a whole number of units of `2 ^ -1074`, and it grows with
the magnitude (`units_lt_units`). So numbers of one integral value differ at most in the sign of a
zero (`valueKey_eq_of_toInt?`).
-/

namespace TermRewriting

namespace Binary64

/-! ## Fields -/

/-- A number is given by its sign and its magnitude. -/
theorem eq_of_fields {x y : Binary64} (hsign : x.negative = y.negative)
    (hmagnitude : x.magnitude = y.magnitude) : x = y := by
  obtain ⟨x⟩ := x
  obtain ⟨y⟩ := y
  have hx := x.toNat_lt
  have hy := y.toNat_lt
  simp only [negative, magnitude, Nat.pow_eq, decide_eq_decide] at hsign hmagnitude
  rw [mk.injEq, ← UInt64.toNat_inj]
  omega

/-- The key of the total order tells all numbers apart. -/
theorem totalKey_inj {x y : Binary64} (h : x.totalKey = y.totalKey) : x = y := by
  unfold totalKey at h
  cases hx : x.negative <;> cases hy : y.negative <;> rw [hx, hy] at h <;>
    simp only [if_true, Bool.false_eq_true, if_false] at h
  · exact eq_of_fields (hx.trans hy.symm) (by omega)
  · omega
  · omega
  · exact eq_of_fields (hx.trans hy.symm) (by omega)

/-- Numbers of one value have one magnitude, and one sign unless they are zeros. -/
theorem fields_of_valueKey_eq {x y : Binary64} (h : x.valueKey = y.valueKey) :
    x.magnitude = y.magnitude ∧ (x.negative = y.negative ∨ x.magnitude = 0) := by
  unfold valueKey at h
  cases hx : x.negative <;> cases hy : y.negative <;> rw [hx, hy] at h <;>
    simp only [if_true, Bool.false_eq_true, if_false] at h
  · exact ⟨by omega, .inl rfl⟩
  · exact ⟨by omega, .inr (by omega)⟩
  · exact ⟨by omega, .inr (by omega)⟩
  · exact ⟨by omega, .inl rfl⟩

/-! ## Units -/

/-- The smallest positive number is `2 ^ -places`. -/
def places : Nat := 1074

/-- The absolute value of a finite number in units of the smallest one. -/
def units (x : Binary64) : Nat := x.significand * 2 ^ (x.magnitude / 2 ^ 52 - 1)

theorem exponent_eq (x : Binary64) :
    x.exponent = (x.magnitude / 2 ^ 52 - 1 : Nat) - (places : Int) := by
  unfold exponent places
  simp only [Nat.pow_eq]
  split <;> omega

theorem significand_lt (x : Binary64) : x.significand < 2 ^ 53 := by
  unfold significand
  simp only [Nat.pow_eq]
  split <;> omega

/-- **The value grows with the magnitude:** within one exponent the significand does, and a number
of a larger one has its leading bit further up. -/
theorem units_lt_units {x y : Binary64} (h : x.magnitude < y.magnitude) : x.units < y.units := by
  have hdiv : x.magnitude / 2 ^ 52 - 1 ≤ y.magnitude / 2 ^ 52 - 1 := by omega
  unfold units
  rcases Nat.lt_or_eq_of_le hdiv with hlt | heq
  · have hlead : 2 ^ 52 ≤ y.significand := by
      unfold significand
      simp only [Nat.pow_eq]
      split <;> omega
    calc x.significand * 2 ^ (x.magnitude / 2 ^ 52 - 1)
        < 2 ^ 53 * 2 ^ (x.magnitude / 2 ^ 52 - 1) :=
          Nat.mul_lt_mul_of_pos_right x.significand_lt (Nat.two_pow_pos _)
      _ = 2 ^ 52 * 2 ^ (x.magnitude / 2 ^ 52 - 1 + 1) := by
          rw [← Nat.pow_add, ← Nat.pow_add, Nat.add_comm _ 1, ← Nat.add_assoc]
      _ ≤ y.significand * 2 ^ (y.magnitude / 2 ^ 52 - 1) :=
          Nat.mul_le_mul hlead (Nat.pow_le_pow_right (by decide) hlt)
  · rw [← heq]
    refine Nat.mul_lt_mul_of_pos_right ?_ (Nat.two_pow_pos _)
    unfold significand
    simp only [Nat.pow_eq]
    split <;> split <;> omega

theorem units_eq_zero {x : Binary64} (h : x.magnitude = 0) : x.units = 0 := by
  unfold units significand
  rw [h, if_pos (by decide), Nat.zero_mul]

theorem magnitude_eq_of_units_eq {x y : Binary64} (h : x.units = y.units) :
    x.magnitude = y.magnitude := by
  rcases Nat.lt_trichotomy x.magnitude y.magnitude with hlt | heq | hgt
  · exact absurd h (Nat.ne_of_lt (units_lt_units hlt))
  · exact heq
  · exact absurd h.symm (Nat.ne_of_lt (units_lt_units hgt))

/-- The fraction is the number of units. -/
theorem fraction_eq_units (x : Binary64) :
    x.fraction.1 * 2 ^ places = x.units * x.fraction.2 := by
  have hexponent := x.exponent_eq
  unfold fraction units
  split
  · next hpos =>
    have hplaces : x.exponent.toNat + places = x.magnitude / 2 ^ 52 - 1 := by omega
    show x.significand * 2 ^ x.exponent.toNat * 2 ^ places = _ * 1
    rw [Nat.mul_one, Nat.mul_assoc, ← Nat.pow_add, hplaces]
  · next hneg =>
    have hplaces : x.magnitude / 2 ^ 52 - 1 + (-x.exponent).toNat = places := by omega
    show x.significand * 2 ^ places = _ * 2 ^ (-x.exponent).toNat
    rw [Nat.mul_assoc, ← Nat.pow_add, hplaces]

/-- The denominator is a power of two. -/
theorem fraction_den_pos (x : Binary64) : 0 < x.fraction.2 := by
  unfold fraction
  split
  · exact Nat.one_pos
  · exact Nat.two_pow_pos _

/-! ## Integral numbers -/

/-- A finite number with a whole number of units of one, and with the sign of that number. -/
theorem of_toInt?_eq_some {x : Binary64} {n : Int} (h : x.toInt? = some n) :
    x.isFinite = true ∧ x.units = n.natAbs * 2 ^ places
      ∧ (n < 0 → x.negative = true) ∧ (0 < n → x.negative = false) := by
  have hunits := x.fraction_eq_units
  have hden := x.fraction_den_pos
  unfold toInt? at h
  generalize x.fraction = f at h hunits hden
  obtain ⟨num, den⟩ := f
  dsimp only at h hunits hden
  split at h
  · next hintegral =>
    rw [Bool.and_eq_true, beq_iff_eq] at hintegral
    obtain ⟨hfinite, hdvd⟩ := hintegral
    obtain ⟨q, rfl⟩ := Nat.dvd_of_mod_eq_zero hdvd
    rw [Nat.mul_div_cancel_left q hden] at h
    have hsign := Option.some.inj h
    have habs : n.natAbs = q := by
      rw [← hsign]
      split <;> omega
    refine ⟨hfinite, ?_, fun hn => ?_, fun hn => ?_⟩
    · refine Nat.eq_of_mul_eq_mul_right hden ?_
      rw [habs, ← hunits, Nat.mul_assoc, Nat.mul_comm]
    · cases hneg : x.negative with
      | true => rfl
      | false =>
        rw [hneg] at hsign
        simp only [Bool.false_eq_true, if_false] at hsign
        omega
    · cases hneg : x.negative with
      | false => rfl
      | true =>
        rw [hneg] at hsign
        simp only [if_true] at hsign
        omega
  · cases h

/-- Numbers of one integral value compare as equal. -/
theorem valueKey_eq_of_toInt? {x y : Binary64} {n : Int} (hx : x.toInt? = some n)
    (hy : y.toInt? = some n) : x.valueKey = y.valueKey := by
  obtain ⟨_, hxunits, hxneg, hxpos⟩ := of_toInt?_eq_some hx
  obtain ⟨_, hyunits, hyneg, hypos⟩ := of_toInt?_eq_some hy
  have hmagnitude := magnitude_eq_of_units_eq (hxunits.trans hyunits.symm)
  unfold valueKey
  rcases Int.lt_trichotomy n 0 with hn | rfl | hn
  · rw [hxneg hn, hyneg hn, hmagnitude]
  · -- only the zeros have no units
    have hzero : x.magnitude = (⟨0⟩ : Binary64).magnitude := by
      refine magnitude_eq_of_units_eq (hxunits.trans ?_)
      rw [Int.natAbs_zero, Nat.zero_mul, units_eq_zero (by decide)]
    rw [← hmagnitude, show x.magnitude = 0 from hzero]
    simp
  · rw [hxpos hn, hypos hn, hmagnitude]

/-- Both zeros have the value zero. -/
theorem toInt?_eq_zero {x : Binary64} (h : x.magnitude = 0) : x.toInt? = some 0 := by
  have hden := x.fraction_den_pos
  have hunits := x.fraction_eq_units
  rw [units_eq_zero h, Nat.zero_mul] at hunits
  have hnum := (Nat.mul_eq_zero.mp hunits).resolve_right (Nat.ne_of_gt (Nat.two_pow_pos _))
  simp [toInt?, isFinite, h, hnum, infiniteMagnitude]

/-- Numbers compare as equal when they are no NaNs and have one value. -/
theorem compare?_eq_some_eq {x y : Binary64} :
    x.compare? y = some .eq ↔ x.isNaN = false ∧ y.isNaN = false ∧ x.valueKey = y.valueKey := by
  unfold compare?
  cases x.isNaN <;> cases y.isNaN <;> simp

theorem isNaN_eq_false_of_isFinite {x : Binary64} (hx : x.isFinite = true) : x.isNaN = false := by
  simp only [isFinite, isNaN, decide_eq_true_eq, decide_eq_false_iff_not] at hx ⊢
  omega

/-- An integral number is not a NaN. -/
theorem isNaN_eq_false_of_toInt? {x : Binary64} {n : Int} (h : x.toInt? = some n) :
    x.isNaN = false :=
  isNaN_eq_false_of_isFinite (of_toInt?_eq_some h).1

end Binary64

end TermRewriting
