import Mathlib.Algebra.Ring.Nat
import Mathlib.Order.MinMax
import TermRewriting.Binary64

/-!
# Rounding integers

A positive integer with leading bit `L` is rounded to a significand of 53 bits whose last place is
`L - 52`. Its magnitude is the exponent field `L + 1022`, times `2 ^ 52`, plus that significand, so
it grows with the integer: within one length because rounding does, and between lengths because a
significand never exceeds `2 ^ 53`. So an integer never rounds to a number that comes, in the total
order, after the one to which a larger integer rounds (`totalKey_ofInt_mono`).
-/

namespace TermRewriting

namespace Binary64

/-! ## Rounded quotients -/

theorem div_le_roundedQuotient (num den : Nat) : num / den ≤ roundedQuotient num den := by
  simp only [roundedQuotient]
  split
  · exact le_refl _
  · split <;> omega

theorem roundedQuotient_le_succ (num den : Nat) : roundedQuotient num den ≤ num / den + 1 := by
  simp only [roundedQuotient]
  split
  · omega
  · split <;> omega

/-- An integer that bounds a quotient from above bounds the rounded one. -/
theorem roundedQuotient_le {num den k : Nat} (h : num ≤ k * den) (hden : 0 < den) :
    roundedQuotient num den ≤ k := by
  rcases Nat.lt_or_eq_of_le h with hlt | rfl
  · have hdiv : num / den < k := (Nat.div_lt_iff_lt_mul hden).mpr hlt
    exact (roundedQuotient_le_succ num den).trans hdiv
  · simp [roundedQuotient, hden]

theorem roundedQuotient_mono {num num' den : Nat} (h : num ≤ num') :
    roundedQuotient num den ≤ roundedQuotient num' den := by
  rcases Nat.lt_or_eq_of_le (Nat.div_le_div_right (c := den) h) with hdiv | hdiv
  · have hupper := roundedQuotient_le_succ num den
    have hlower := div_le_roundedQuotient num' den
    omega
  · -- the same integer below both: the remainders decide
    have hmod : num % den ≤ num' % den := by
      have h₁ := Nat.div_add_mod num den
      have h₂ := Nat.div_add_mod num' den
      rw [hdiv] at h₁
      omega
    simp only [roundedQuotient, hdiv]
    split_ifs <;> omega

/-! ## Magnitudes of integers -/

/-- Scaled by its length less `k`, a positive integer keeps `k + 1` bits before the point. -/
theorem scaled_log2 {n : Nat} (hn : n ≠ 0) (k : Nat) :
    0 < (scaled n 1 (n.log2 - k)).2
      ∧ 2 ^ k * (scaled n 1 (n.log2 - k)).2 ≤ (scaled n 1 (n.log2 - k)).1
      ∧ (scaled n 1 (n.log2 - k)).1 ≤ 2 ^ (k + 1) * (scaled n 1 (n.log2 - k)).2 := by
  have hlow := Nat.log2_self_le hn
  have hhigh : n ≤ 2 ^ (n.log2 + 1) := Nat.le_of_lt Nat.lt_log2_self
  unfold scaled
  simp only [Nat.pow_eq, Nat.one_mul]
  split
  · next hq =>
    have hk : k + ((n.log2 : Int) - k).toNat = n.log2 := by omega
    refine ⟨Nat.two_pow_pos _, ?_, ?_⟩
    · rw [← Nat.pow_add, hk]
      exact hlow
    · rw [← Nat.pow_add, Nat.add_right_comm, hk]
      exact hhigh
  · next hq =>
    have hk : n.log2 + (-((n.log2 : Int) - k)).toNat = k := by omega
    refine ⟨Nat.one_pos, ?_, ?_⟩
    · calc 2 ^ k * 1 = 2 ^ n.log2 * 2 ^ (-((n.log2 : Int) - k)).toNat := by
            rw [← Nat.pow_add, hk, Nat.mul_one]
        _ ≤ n * 2 ^ (-((n.log2 : Int) - k)).toNat := Nat.mul_le_mul_right _ hlow
    · calc n * 2 ^ (-((n.log2 : Int) - k)).toNat
          ≤ 2 ^ (n.log2 + 1) * 2 ^ (-((n.log2 : Int) - k)).toNat := Nat.mul_le_mul_right _ hhigh
        _ = 2 ^ (k + 1) * 1 := by
            rw [← Nat.pow_add, Nat.add_right_comm, hk, Nat.mul_one]

theorem lastPlace_one {n : Nat} (hn : n ≠ 0) : lastPlace n 1 = (n.log2 : Int) - 52 := by
  obtain ⟨hpos, hlow, _⟩ := scaled_log2 hn 53
  have hguess : (n.log2 : Int) - Nat.log2 1 - 53 = n.log2 - (53 : Nat) := by
    rw [show Nat.log2 1 = 0 from rfl]
    omega
  have hlead : Nat.pow 2 53 ≤ (scaled n 1 ((n.log2 : Int) - (53 : Nat))).1
      / (scaled n 1 ((n.log2 : Int) - (53 : Nat))).2 := (Nat.le_div_iff_mul_le hpos).mpr hlow
  unfold lastPlace
  dsimp only
  rw [hguess, if_pos hlead]
  omega

/-- The significand to which a positive integer is rounded. -/
def intSignificand (n : Nat) : Nat :=
  roundedQuotient (scaled n 1 (n.log2 - (52 : Nat))).1 (scaled n 1 (n.log2 - (52 : Nat))).2

theorem intSignificand_ge {n : Nat} (hn : n ≠ 0) : 2 ^ 52 ≤ intSignificand n := by
  obtain ⟨hpos, hlow, _⟩ := scaled_log2 hn 52
  exact Nat.le_trans ((Nat.le_div_iff_mul_le hpos).mpr hlow) (div_le_roundedQuotient _ _)

theorem intSignificand_le {n : Nat} (hn : n ≠ 0) : intSignificand n ≤ 2 ^ 53 := by
  obtain ⟨hpos, _, hhigh⟩ := scaled_log2 hn 52
  exact roundedQuotient_le hhigh hpos

/-- Within one length the significand grows with the integer. -/
theorem intSignificand_mono {m n : Nat} (h : m ≤ n) (hlog : m.log2 = n.log2) :
    intSignificand m ≤ intSignificand n := by
  unfold intSignificand
  rw [hlog]
  unfold scaled
  split
  · exact roundedQuotient_mono h
  · exact roundedQuotient_mono (Nat.mul_le_mul_right _ h)

/-- The magnitude to which a natural number is rounded. -/
def intMagnitude (n : Nat) : Nat :=
  if n = 0 then 0
  else min ((n.log2 + 1022) * 2 ^ 52 + intSignificand n) infiniteMagnitude

theorem nearest_one (negative : Bool) (n : Nat) :
    nearest negative n 1 = ofMagnitude negative (intMagnitude n) := by
  unfold nearest intMagnitude
  split
  · rfl
  · next hn =>
    simp only [lastPlace_one hn]
    rw [show ((n.log2 : Int) - 52 + 1074).toNat = n.log2 + 1022 by omega]
    rfl

theorem intMagnitude_mono {m n : Nat} (h : m ≤ n) : intMagnitude m ≤ intMagnitude n := by
  unfold intMagnitude
  by_cases hm : m = 0
  · simp [hm]
  have hn : n ≠ 0 := by omega
  rw [if_neg hm, if_neg hn]
  refine min_le_min ?_ (Nat.le_refl _)
  have hlog : m.log2 ≤ n.log2 := (Nat.le_log2 hn).mpr ((Nat.log2_self_le hm).trans h)
  rcases Nat.lt_or_eq_of_le hlog with hlog | hlog
  · have hupper := intSignificand_le hm
    have hlower := intSignificand_ge hn
    omega
  · rw [hlog]
    exact Nat.add_le_add_left (intSignificand_mono h hlog) _

theorem intMagnitude_le_infinite (n : Nat) : intMagnitude n ≤ infiniteMagnitude := by
  unfold intMagnitude
  split
  · exact Nat.zero_le _
  · exact min_le_right _ _

theorem intMagnitude_lt (n : Nat) : intMagnitude n < 2 ^ 63 :=
  Nat.lt_of_le_of_lt (intMagnitude_le_infinite n) (by decide)

/-! ## Order -/

theorem fields_ofMagnitude {magnitude : Nat} (h : magnitude < 2 ^ 63) (negative : Bool) :
    (ofMagnitude negative magnitude).negative = negative
      ∧ (ofMagnitude negative magnitude).magnitude = magnitude := by
  have hword : (ofMagnitude negative magnitude).bits.toNat
      = if negative then 2 ^ 63 + magnitude else magnitude := by
    simp only [ofMagnitude, UInt64.toNat_ofNat', Nat.pow_eq]
    split <;> omega
  unfold Binary64.negative Binary64.magnitude
  rw [hword]
  cases negative with
  | true =>
    rw [if_pos rfl, Nat.pow_eq, Nat.add_mod_left]
    exact ⟨by simp, Nat.mod_eq_of_lt h⟩
  | false =>
    rw [if_neg Bool.false_ne_true, Nat.pow_eq]
    exact ⟨by simpa using h, Nat.mod_eq_of_lt h⟩

theorem totalKey_ofMagnitude {magnitude : Nat} (h : magnitude < 2 ^ 63) (negative : Bool) :
    (ofMagnitude negative magnitude).totalKey
      = if negative then -1 - (magnitude : Int) else magnitude := by
  obtain ⟨hnegative, hmagnitude⟩ := fields_ofMagnitude h negative
  rw [totalKey, hnegative, hmagnitude]

/-- The key of a rounded integer. -/
theorem totalKey_ofInt (n : Int) :
    (ofInt n).totalKey
      = if n < 0 then -1 - (intMagnitude n.natAbs : Int) else intMagnitude n.natAbs := by
  rw [ofInt, nearest_one, totalKey_ofMagnitude (intMagnitude_lt _)]
  simp

/-- **Rounding keeps the order of integers.** -/
theorem totalKey_ofInt_mono {m n : Int} (h : m ≤ n) :
    (ofInt m).totalKey ≤ (ofInt n).totalKey := by
  rw [totalKey_ofInt, totalKey_ofInt]
  by_cases hn : n < 0
  · have hmagnitude := intMagnitude_mono (show n.natAbs ≤ m.natAbs by omega)
    rw [if_pos hn, if_pos (by omega)]
    omega
  by_cases hm : m < 0
  · rw [if_pos hm, if_neg hn]
    omega
  · have hmagnitude := intMagnitude_mono (show m.natAbs ≤ n.natAbs by omega)
    rw [if_neg hm, if_neg hn]
    exact Int.ofNat_le.mpr hmagnitude

end Binary64

end TermRewriting
