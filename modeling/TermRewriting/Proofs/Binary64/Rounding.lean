import TermRewriting.Proofs.Binary64
import TermRewriting.Proofs.Binary64.Exact

/-!
# Rounding keeps to its side

Rounding an integer never passes a number: one that is not above the integer is not above the
rounded integer, and likewise from below (`le_ofInt`, `ofInt_le`). In particular an integer that is
the value of a number is rounded to that value.

The integer has its leading bit at place `L`, and its significand counts units of `2 ^ (L - 52)`.
A number with the same leading bit is a whole number of these, and rounding respects whole numbers
(`le_roundedQuotient`, `roundedQuotient_le`). All other numbers lie beyond a power of two, which
stands between them and both the integer and its rounded value.
-/

namespace TermRewriting

open ExtendedRat

namespace Binary64

/-! ## Thresholds -/

theorem le_roundedQuotient {num den k : Nat} (h : k * den ≤ num) (hden : 0 < den) :
    k ≤ roundedQuotient num den :=
  ((Nat.le_div_iff_mul_le hden).mpr h).trans (div_le_roundedQuotient num den)

/-- The magnitude is an exponent field and a significand with its leading bit. -/
theorem units_of_magnitude {x : Binary64} {e s : Nat} (h : x.magnitude = e * 2 ^ 52 + s)
    (hlow : 2 ^ 52 ≤ s) (hhigh : s < 2 ^ 53) : x.units = s * 2 ^ e := by
  have hexponent : x.magnitude / 2 ^ 52 - 1 = e := by omega
  have hsignificand : x.significand = s := by
    unfold significand
    simp only [Nat.pow_eq]
    split <;> omega
  rw [units, hexponent, hsignificand]

theorem two_pow_mul_succ (e : Nat) : 2 ^ 53 * 2 ^ e = 2 ^ 52 * 2 ^ (e + 1) := by
  rw [← Nat.pow_add, ← Nat.pow_add, Nat.add_comm e 1, ← Nat.add_assoc]

theorem units_lt_of_magnitude_lt {x : Binary64} {e : Nat}
    (h : x.magnitude < e * 2 ^ 52 + 2 ^ 52) : x.units < 2 ^ 52 * 2 ^ e := by
  unfold units
  cases e with
  | zero =>
    have hexponent : x.magnitude / 2 ^ 52 - 1 = 0 := by omega
    have hsignificand : x.significand = x.magnitude := if_pos (by simpa using h)
    rw [hexponent, hsignificand]
    omega
  | succ e =>
    have hexponent : x.magnitude / 2 ^ 52 - 1 ≤ e := by omega
    calc x.significand * 2 ^ (x.magnitude / 2 ^ 52 - 1)
        < 2 ^ 53 * 2 ^ (x.magnitude / 2 ^ 52 - 1) :=
          Nat.mul_lt_mul_of_pos_right x.significand_lt (Nat.two_pow_pos _)
      _ ≤ 2 ^ 53 * 2 ^ e := Nat.mul_le_mul_left _ (Nat.pow_le_pow_right (by decide) hexponent)
      _ = 2 ^ 52 * 2 ^ (e + 1) := two_pow_mul_succ e

theorem le_units_of_le_magnitude {x : Binary64} {e : Nat}
    (h : e * 2 ^ 52 + 2 ^ 53 ≤ x.magnitude) : 2 ^ 53 * 2 ^ e ≤ x.units := by
  have hexponent : e + 1 ≤ x.magnitude / 2 ^ 52 - 1 := by omega
  have hsignificand : 2 ^ 52 ≤ x.significand := by
    unfold significand
    simp only [Nat.pow_eq]
    split <;> omega
  calc 2 ^ 53 * 2 ^ e = 2 ^ 52 * 2 ^ (e + 1) := two_pow_mul_succ e
    _ ≤ x.units :=
        Nat.mul_le_mul hsignificand (Nat.pow_le_pow_right (by decide) hexponent)

/-! ## Natural numbers -/

/-- What is rounded to the significand of an integer is the integer itself, in other units. -/
theorem scaled_mul_two_pow (n : Nat) :
    (scaled n 1 (n.log2 - (52 : Nat))).1 * 2 ^ (n.log2 + 1022)
      = n * 2 ^ places * (scaled n 1 (n.log2 - (52 : Nat))).2 := by
  unfold scaled
  simp only [Nat.pow_eq, Nat.one_mul]
  split
  · next hq =>
    have hk : n.log2 + 1022 = places + ((n.log2 : Int) - (52 : Nat)).toNat := by
      unfold places
      omega
    rw [hk, Nat.pow_add, Nat.mul_assoc]
  · next hq =>
    have hk : (-((n.log2 : Int) - (52 : Nat))).toNat + (n.log2 + 1022) = places := by
      unfold places
      omega
    rw [Nat.mul_one, Nat.mul_assoc, ← Nat.pow_add, hk]

section

variable {x : Binary64} {n : Nat}

/-- A number with the leading bit of the integer is a whole number of its last places. -/
theorem units_le_iff (hn : n ≠ 0) {k : Nat} (hk : x.units = k * 2 ^ (n.log2 + 1022)) :
    (x.units ≤ n * 2 ^ places ↔ k * (scaled n 1 (n.log2 - (52 : Nat))).2
        ≤ (scaled n 1 (n.log2 - (52 : Nat))).1)
      ∧ (n * 2 ^ places ≤ x.units ↔ (scaled n 1 (n.log2 - (52 : Nat))).1
        ≤ k * (scaled n 1 (n.log2 - (52 : Nat))).2) := by
  obtain ⟨hden, -, -⟩ := scaled_log2 hn 52
  have hscaled := scaled_mul_two_pow n
  have hpos := Nat.two_pow_pos (n.log2 + 1022)
  generalize (scaled n 1 (n.log2 - (52 : Nat))).1 = num at hscaled
  generalize (scaled n 1 (n.log2 - (52 : Nat))).2 = den at hscaled hden
  rw [hk]
  constructor
  · rw [← Nat.mul_le_mul_right_iff hden, ← hscaled, Nat.mul_right_comm,
      Nat.mul_le_mul_right_iff hpos]
  · rw [← Nat.mul_le_mul_right_iff hden, ← hscaled, Nat.mul_right_comm,
      Nat.mul_le_mul_right_iff hpos]

theorem two_pow_log2_le (hn : n ≠ 0) : 2 ^ 52 * 2 ^ (n.log2 + 1022) ≤ n * 2 ^ places := by
  have hplaces : 52 + (n.log2 + 1022) = n.log2 + places := by
    unfold places
    omega
  rw [← Nat.pow_add, hplaces, Nat.pow_add]
  exact Nat.mul_le_mul_right _ (Nat.log2_self_le hn)

theorem lt_two_pow_log2 (n : Nat) : n * 2 ^ places < 2 ^ 53 * 2 ^ (n.log2 + 1022) := by
  have hplaces : 53 + (n.log2 + 1022) = n.log2 + 1 + places := by
    unfold places
    omega
  rw [← Nat.pow_add, hplaces, Nat.pow_add]
  exact Nat.mul_lt_mul_of_pos_right Nat.lt_log2_self (Nat.two_pow_pos _)

theorem le_intMagnitude (hx : x.isFinite = true) (h : x.units ≤ n * 2 ^ places) :
    x.magnitude ≤ intMagnitude n := by
  have hfinite : x.magnitude < infiniteMagnitude := of_decide_eq_true hx
  unfold intMagnitude
  split
  · next hn =>
    subst hn
    rw [Nat.zero_mul, Nat.le_zero, units_eq_zero_iff] at h
    omega
  · next hn =>
    refine le_min ?_ (Nat.le_of_lt hfinite)
    have hleast := intSignificand_ge hn
    rcases Nat.lt_or_ge x.magnitude ((n.log2 + 1022) * 2 ^ 52 + 2 ^ 52) with hbelow | hlow
    · omega
    rcases Nat.lt_or_ge x.magnitude ((n.log2 + 1022) * 2 ^ 52 + 2 ^ 53) with hhigh | habove
    · obtain ⟨k, hk⟩ := Nat.exists_eq_add_of_le (Nat.le_trans (Nat.le_add_right _ _) hlow)
      have hunits := units_of_magnitude hk (by omega) (by omega)
      have hwhole := le_roundedQuotient ((units_le_iff hn hunits).1.mp h) (scaled_log2 hn 52).1
      exact hk ▸ Nat.add_le_add_left hwhole _
    · exact absurd (Nat.le_trans (le_units_of_le_magnitude habove) h)
        (Nat.not_le_of_lt (lt_two_pow_log2 n))

theorem intMagnitude_le (h : n * 2 ^ places ≤ x.units) : intMagnitude n ≤ x.magnitude := by
  unfold intMagnitude
  split
  · exact Nat.zero_le _
  · next hn =>
    refine (min_le_left _ _).trans ?_
    have hmost := intSignificand_le hn
    rcases Nat.lt_or_ge x.magnitude ((n.log2 + 1022) * 2 ^ 52 + 2 ^ 52) with hbelow | hlow
    · exact absurd (Nat.lt_of_lt_of_le (units_lt_of_magnitude_lt hbelow) (two_pow_log2_le hn))
        (Nat.not_lt_of_le h)
    rcases Nat.lt_or_ge x.magnitude ((n.log2 + 1022) * 2 ^ 52 + 2 ^ 53) with hhigh | habove
    · obtain ⟨k, hk⟩ := Nat.exists_eq_add_of_le (Nat.le_trans (Nat.le_add_right _ _) hlow)
      have hunits := units_of_magnitude hk (by omega) (by omega)
      have hwhole := roundedQuotient_le ((units_le_iff hn hunits).2.mp h) (scaled_log2 hn 52).1
      exact hk ▸ Nat.add_le_add_left hwhole _
    · omega

end

/-! ## Integers -/

theorem fields_ofInt (n : Int) :
    (ofInt n).negative = decide (n < 0) ∧ (ofInt n).magnitude = intMagnitude n.natAbs := by
  rw [ofInt, nearest_one]
  exact fields_ofMagnitude (intMagnitude_lt n.natAbs) (n < 0)

theorem valueKey_ofInt (n : Int) :
    (ofInt n).valueKey
      = if n < 0 then -(intMagnitude n.natAbs : Int) else intMagnitude n.natAbs := by
  rw [valueKey, (fields_ofInt n).1, (fields_ofInt n).2]
  simp

theorem isNaN_ofInt (n : Int) : (ofInt n).isNaN = false := by
  rw [isNaN, (fields_ofInt n).2]
  simpa using intMagnitude_le_infinite n.natAbs

theorem valueKey_ofInt_mono {m n : Int} (h : m ≤ n) :
    (ofInt m).valueKey ≤ (ofInt n).valueKey := by
  have hbelow := @intMagnitude_mono n.natAbs m.natAbs
  have habove := @intMagnitude_mono m.natAbs n.natAbs
  rw [valueKey_ofInt, valueKey_ofInt]
  split <;> split <;> omega

/-- **A finite number stays on its side of an integer that is rounded.** -/
theorem signedUnits_ofInt {x : Binary64} (hx : x.isFinite = true) (n : Int) :
    (n * 2 ^ places ≤ x.signedUnits → (ofInt n).valueKey ≤ x.valueKey)
      ∧ (x.signedUnits ≤ n * 2 ^ places → x.valueKey ≤ (ofInt n).valueKey) := by
  have hunits : n * 2 ^ places = if n < 0 then -((n.natAbs * 2 ^ places : Nat) : Int)
      else (n.natAbs * 2 ^ places : Nat) := by
    rw [Nat.cast_mul, Nat.cast_pow, Nat.cast_ofNat, ← neg_mul, ← ite_mul]
    congr 1
    split <;> omega
  have hle := @le_intMagnitude x n.natAbs hx
  have hge := @intMagnitude_le x n.natAbs
  have hzero := @units_eq_zero_iff x
  rw [hunits, valueKey_ofInt, signedUnits, valueKey]
  generalize n.natAbs * 2 ^ places = bound at *
  split <;> split <;> omega

theorem valueKey_ofInt_bounds (n : Int) :
    -(infiniteMagnitude : Int) ≤ (ofInt n).valueKey ∧ (ofInt n).valueKey ≤ infiniteMagnitude := by
  have hbound := intMagnitude_le_infinite n.natAbs
  rw [valueKey_ofInt]
  split <;> omega

theorem ofInt_le {x : Binary64} (hx : x.isNaN = false) {n : Int} (h : ofRat n ≤ x.exact) :
    (ofInt n).valueKey ≤ x.valueKey := by
  rcases exact_cases hx with ⟨hfinite, -⟩ | ⟨-, hkey⟩ | ⟨hbot, -⟩
  · rw [hfinite, ofRat_le_ofRat, intCast_le_value] at h
    exact (signedUnits_ofInt (exact_eq_ofRat_iff.mp hfinite).1 n).1 h
  · rw [hkey]
    exact (valueKey_ofInt_bounds n).2
  · rw [hbot, le_bot_iff] at h
    exact absurd h (ofRat_ne_bot n)

theorem le_ofInt {x : Binary64} (hx : x.isNaN = false) {n : Int} (h : x.exact ≤ ofRat n) :
    x.valueKey ≤ (ofInt n).valueKey := by
  rcases exact_cases hx with ⟨hfinite, -⟩ | ⟨htop, -⟩ | ⟨-, hkey⟩
  · rw [hfinite, ofRat_le_ofRat, value_le_intCast] at h
    exact (signedUnits_ofInt (exact_eq_ofRat_iff.mp hfinite).1 n).2 h
  · rw [htop, top_le_iff] at h
    exact absurd h (ofRat_ne_top n)
  · rw [hkey]
    exact (valueKey_ofInt_bounds n).1

/-- An integer that is the value of a number is rounded to that value. -/
theorem exact_ofInt_of_value {x : Binary64} {n : Int} (hx : x.isNaN = false)
    (h : x.exact = ofRat n) : (ofInt n).exact = ofRat n := by
  rw [← h, exact_inj (isNaN_ofInt n) hx]
  exact Int.le_antisymm (ofInt_le hx (le_of_eq h.symm)) (le_ofInt hx (le_of_eq h))

/-- A positive integer not beyond `2 ^ 53` has a significand and an exponent field. -/
theorem exists_significand {m : Nat} (hm : m ≠ 0) (h : m ≤ 2 ^ 53) :
    ∃ e s, 2 ^ 52 ≤ s ∧ s < 2 ^ 53 ∧ e ≤ 1075 ∧ s * 2 ^ e = m * 2 ^ places := by
  rcases Nat.lt_or_eq_of_le h with hlt | rfl
  · have hlog : m.log2 < 53 := (Nat.log2_lt hm).mpr hlt
    obtain ⟨k, hk⟩ : ∃ k, k + m.log2 = 52 := ⟨52 - m.log2, by omega⟩
    have hplaces : k + (m.log2 + 1022) = places := by
      unfold places
      omega
    refine ⟨m.log2 + 1022, m * 2 ^ k, ?_, ?_, by omega, ?_⟩
    · rw [← hk, Nat.pow_add, Nat.mul_comm]
      exact Nat.mul_le_mul_right _ (Nat.log2_self_le hm)
    · rw [show 53 = (m.log2 + 1) + k by omega, Nat.pow_add]
      exact Nat.mul_lt_mul_of_pos_right Nat.lt_log2_self (Nat.two_pow_pos k)
    · rw [Nat.mul_assoc, ← Nat.pow_add, hplaces]
  · exact ⟨places + 1, 2 ^ 52, le_refl _, by decide, by decide, (two_pow_mul_succ places).symm⟩

/-- **An integer not beyond `2 ^ 53` is rounded to itself.** -/
theorem exact_ofInt {n : Int} (h : n.natAbs ≤ 2 ^ 53) : (ofInt n).exact = ofRat n := by
  by_cases hn : n = 0
  · subst hn
    have hmagnitude : (⟨0⟩ : Binary64).magnitude = 0 := by decide
    have hvalue := toInt?_eq_some_iff.mp (toInt?_eq_zero hmagnitude)
    exact exact_ofInt_of_value (by decide) (exact_eq_ofRat_iff.mpr hvalue)
  · obtain ⟨e, s, hlow, hhigh, he, hunits⟩ := exists_significand (by omega) h
    have hbound : e * 2 ^ 52 + s < infiniteMagnitude := by
      simp only [infiniteMagnitude, Nat.pow_eq]
      omega
    obtain ⟨hnegative, hmagnitude⟩ :=
      fields_ofMagnitude (hbound.trans (by decide)) (decide (n < 0))
    generalize ofMagnitude (decide (n < 0)) (e * 2 ^ 52 + s) = x at hnegative hmagnitude
    have hfinite : x.isFinite = true := by
      rw [isFinite, hmagnitude]
      exact decide_eq_true hbound
    have hvalue : x.value = n := by
      refine value_eq_intCast.mpr ⟨?_, ?_⟩
      · rw [units_of_magnitude hmagnitude hlow hhigh, hunits]
      · rw [hnegative]
        simp only [decide_eq_true_eq]
        split <;> omega
    have hnotNaN : x.isNaN = false := by
      rw [isNaN, hmagnitude]
      exact decide_eq_false (Nat.not_lt_of_lt hbound)
    exact exact_ofInt_of_value hnotNaN (exact_eq_ofRat_iff.mpr ⟨hfinite, hvalue⟩)

end Binary64

end TermRewriting
