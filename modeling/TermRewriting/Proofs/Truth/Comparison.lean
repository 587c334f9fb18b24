import TermRewriting.Proofs.Binary64.Rounding
import TermRewriting.Truth

/-!
# Comparing numbers in conditions

`Equal` compares two numbers exactly. The tests of size round integers to binary64 first, and
rounding keeps to its side: what they find smaller is smaller, but different values that round to
one number are found neither smaller nor greater. So the five tests are those of the exact values
except at these pairs (`comparesExactly_iff`), one of which is an integer beyond `2 ^ 53`.
-/

namespace TermRewriting

open ExtendedRat

namespace Binary64

section

variable {x y : Binary64} (hx : x.isNaN = false) (hy : y.isNaN = false)

include hx hy

theorem compare?_eq_some_compare : x.compare? y = some (compare x.valueKey y.valueKey) := by
  rw [compare?, hx, hy]
  rfl

theorem lt_eq_decide : x.lt y = decide (x.valueKey < y.valueKey) := by
  rw [lt, compare?_eq_some_compare hx hy, Bool.eq_iff_iff, beq_iff_eq, Option.some_inj,
    Int.compare_eq_lt, decide_eq_true_iff]

theorem le_eq_decide : x.le y = decide (x.valueKey ≤ y.valueKey) := by
  rw [le, lt_eq_decide hx hy, compare?_eq_some_compare hx hy, Bool.eq_iff_iff, Bool.or_eq_true,
    beq_iff_eq, Option.some_inj, compare_eq_iff_eq, decide_eq_true_iff, decide_eq_true_iff,
    le_iff_lt_or_eq]

end

end Binary64

namespace Term

/-- The exact value of an integer, or of a real that is not a NaN. -/
inductive HasValue : Term → ExtendedRat → Prop where
  | integer (n : Int64) : HasValue (.integer n) (ofRat n.toInt)
  | real {r : Binary64} : r.isNaN = false → HasValue (.real r) r.exact

/-- The value that the tests of size take for a number. -/
def roundedValue? (t : Term) : Option ExtendedRat := t.number?.map Binary64.exact

variable {a b : Term} {x y : ExtendedRat}

theorem HasValue.exists_number (h : a.HasValue x) :
    ∃ u, a.number? = some u ∧ u.isNaN = false := by
  cases h with
  | integer n => exact ⟨_, rfl, Binary64.isNaN_ofInt n.toInt⟩
  | real hr => exact ⟨_, rfl, hr⟩

/-- **Rounding keeps the order of all numbers.** -/
theorem HasValue.number_mono (ha : a.HasValue x) (hb : b.HasValue y) {u v : Binary64}
    (hu : a.number? = some u) (hv : b.number? = some v) (h : x ≤ y) : u.valueKey ≤ v.valueKey := by
  cases ha with
  | integer m =>
    cases hu
    cases hb with
    | integer n =>
      cases hv
      exact Binary64.valueKey_ofInt_mono (by simpa using h)
    | real hr =>
      cases hv
      exact Binary64.ofInt_le hr h
  | real hr =>
    cases hu
    cases hb with
    | integer n =>
      cases hv
      exact Binary64.le_ofInt hr h
    | real hs =>
      cases hv
      exact (Binary64.exact_le_exact hr hs).mp h

/-! ## The tests -/

/-- Each of the five tests is that of the exact values. -/
structure ComparesExactly (table : SymbolTable) (a b : Term) (x y : ExtendedRat) : Prop where
  less : (call "Less" [a, b]).truth table = some (decide (x < y))
  equal : (call "Equal" [a, b]).truth table = some (decide (x = y))
  greater : (call "Greater" [a, b]).truth table = some (decide (y < x))
  lessEqual : (call "LessEqual" [a, b]).truth table = some (decide (x ≤ y))
  greaterEqual : (call "GreaterEqual" [a, b]).truth table = some (decide (y ≤ x))

variable (table : SymbolTable)

theorem toBool?_ofBool (ok : Bool) : (Verdict.ofBool ok).toBool? = some ok := by
  cases ok <;> rfl

/-- The verdict on two numbers is the exact one. -/
theorem HasValue.verdict_eq (ha : a.HasValue x) (hb : b.HasValue y) :
    a.verdict table b = .ofBool (decide (x = y)) := by
  cases ha with
  | integer m =>
    cases hb with
    | integer n =>
      show Verdict.ofBool (m == n) = _
      congr 1
      rw [Bool.eq_iff_iff, beq_iff_eq, decide_eq_true_iff, ofRat_inj, Int.cast_inj, Int64.toInt_inj]
    | @real r hr =>
      show Verdict.ofBool (r.toInt? == some m.toInt) = _
      congr 1
      rw [Bool.eq_iff_iff, beq_iff_eq, decide_eq_true_iff, Binary64.toInt?_eq_some_iff,
        ← Binary64.exact_eq_ofRat_iff, eq_comm]
  | @real r hr =>
    cases hb with
    | integer n =>
      show Verdict.ofBool (r.toInt? == some n.toInt) = _
      congr 1
      rw [Bool.eq_iff_iff, beq_iff_eq, decide_eq_true_iff, Binary64.toInt?_eq_some_iff,
        ← Binary64.exact_eq_ofRat_iff]
    | @real s hs =>
      show Verdict.ofBool (r == s || r.compare? s == some .eq) = _
      congr 1
      rw [Bool.eq_iff_iff, Bool.or_eq_true, beq_iff_eq, beq_iff_eq, decide_eq_true_iff,
        Binary64.compare?_eq_some_compare hr hs, Option.some_inj, compare_eq_iff_eq,
        Binary64.exact_inj hr hs, or_iff_right_of_imp (congrArg Binary64.valueKey)]

theorem truth_equal (ha : a.HasValue x) (hb : b.HasValue y) :
    (call "Equal" [a, b]).truth table = some (decide (x = y)) := by
  show (a.verdict table b).toBool? = _
  rw [ha.verdict_eq table hb, toBool?_ofBool]

/-- What the tests of size answer, in terms of the rounded numbers. -/
theorem truth_sizes {u v : Binary64} (hu : a.number? = some u) (hv : b.number? = some v)
    (hunum : u.isNaN = false) (hvnum : v.isNaN = false) :
    (call "Less" [a, b]).truth table = some (decide (u.valueKey < v.valueKey))
      ∧ (call "Greater" [a, b]).truth table = some (decide (v.valueKey < u.valueKey))
      ∧ (call "LessEqual" [a, b]).truth table = some (decide (u.valueKey ≤ v.valueKey))
      ∧ (call "GreaterEqual" [a, b]).truth table = some (decide (v.valueKey ≤ u.valueKey)) := by
  have htest : ∀ test : Binary64 → Binary64 → Bool, numericTest? test a b = some (test u v) := by
    intro test
    rw [numericTest?, hu, hv]
  refine ⟨?_, ?_, ?_, ?_⟩
  · rw [← Binary64.lt_eq_decide hunum hvnum]
    exact htest Binary64.lt
  · rw [← Binary64.lt_eq_decide hvnum hunum]
    exact htest fun x y => y.lt x
  · rw [← Binary64.le_eq_decide hunum hvnum]
    exact htest Binary64.le
  · rw [← Binary64.le_eq_decide hvnum hunum]
    exact htest fun x y => y.le x

/-- An integer not beyond `2 ^ 53` is taken at its value, and so is a real. -/
theorem HasValue.roundedValue?_eq (ha : a.HasValue x)
    (hsmall : ∀ n, a = .integer n → n.toInt.natAbs ≤ 2 ^ 53) : a.roundedValue? = some x := by
  cases ha with
  | integer n => exact congrArg some (Binary64.exact_ofInt (hsmall n rfl))
  | real hr => rfl

/-- The five tests are exact where numbers that round to one value are equal, and only there. -/
theorem comparesExactly_iff_separates (ha : a.HasValue x) (hb : b.HasValue y) :
    ComparesExactly table a b x y ↔ (a.roundedValue? = b.roundedValue? → x = y) := by
  obtain ⟨u, hu, hunum⟩ := ha.exists_number
  obtain ⟨v, hv, hvnum⟩ := hb.exists_number
  obtain ⟨hless, hgreater, hlessEqual, hgreaterEqual⟩ := truth_sizes table hu hv hunum hvnum
  have hup : x ≤ y → u.valueKey ≤ v.valueKey := ha.number_mono hb hu hv
  have hdown : y ≤ x → v.valueKey ≤ u.valueKey := hb.number_mono ha hv hu
  have hrounded : a.roundedValue? = b.roundedValue? ↔ u.valueKey = v.valueKey := by
    rw [roundedValue?, roundedValue?, hu, hv, Option.map_some, Option.map_some, Option.some_inj,
      Binary64.exact_inj hunum hvnum]
  rw [hrounded]
  constructor
  · intro h hsame
    have hnotLess : ¬x < y := by
      simpa [hsame] using h.less.symm.trans hless
    have hnotGreater : ¬y < x := by
      simpa [hsame] using h.greater.symm.trans hgreater
    exact le_antisymm (not_lt.mp hnotGreater) (not_lt.mp hnotLess)
  · intro hseparates
    have hle : u.valueKey ≤ v.valueKey ↔ x ≤ y := by
      refine ⟨fun hkeys => ?_, hup⟩
      by_contra hlt
      have hsame := Int.le_antisymm hkeys (hdown (le_of_not_ge hlt))
      exact hlt (le_of_eq (hseparates hsame))
    have hge : v.valueKey ≤ u.valueKey ↔ y ≤ x := by
      refine ⟨fun hkeys => ?_, hdown⟩
      by_contra hlt
      have hsame := Int.le_antisymm (hup (le_of_not_ge hlt)) hkeys
      exact hlt (le_of_eq (hseparates hsame).symm)
    exact {
      less := by simp only [hless, ← not_le, hge]
      equal := truth_equal table ha hb
      greater := by simp only [hgreater, ← not_le, hle]
      lessEqual := by simp only [hlessEqual, hle]
      greaterEqual := by simp only [hgreaterEqual, hge] }

/-- **When numbers are compared exactly.** `Equal` always is. The tests of size never find anything
smaller or greater that is not, and `LessEqual` and `GreaterEqual` are the negations of `Greater`
and `Less`. All five are the exact comparisons if and only if the numbers do not round to one value
without being equal, and so whenever the integers among them are not beyond `2 ^ 53`. -/
theorem comparesExactly_iff (ha : a.HasValue x) (hb : b.HasValue y) :
    (call "Equal" [a, b]).truth table = some (decide (x = y))
      ∧ (∃ less greater : Bool,
          (call "Less" [a, b]).truth table = some less
            ∧ (call "Greater" [a, b]).truth table = some greater
            ∧ (call "LessEqual" [a, b]).truth table = some (!greater)
            ∧ (call "GreaterEqual" [a, b]).truth table = some (!less)
            ∧ (less = true → x < y) ∧ (greater = true → y < x))
      ∧ (ComparesExactly table a b x y ↔ (a.roundedValue? = b.roundedValue? → x = y))
      ∧ ((∀ n, a = .integer n ∨ b = .integer n → n.toInt.natAbs ≤ 2 ^ 53) →
          ComparesExactly table a b x y) := by
  refine ⟨truth_equal table ha hb, ?sizes, comparesExactly_iff_separates table ha hb, ?small⟩
  case sizes =>
    obtain ⟨u, hu, hunum⟩ := ha.exists_number
    obtain ⟨v, hv, hvnum⟩ := hb.exists_number
    obtain ⟨hless, hgreater, hlessEqual, hgreaterEqual⟩ := truth_sizes table hu hv hunum hvnum
    refine ⟨_, _, hless, hgreater, ?_, ?_, ?_, ?_⟩
    · simp only [hlessEqual, ← decide_not, not_lt]
    · simp only [hgreaterEqual, ← decide_not, not_lt]
    · intro h
      have hkeys := of_decide_eq_true h
      exact lt_of_not_ge fun hle => absurd (hb.number_mono ha hv hu hle) (not_le_of_gt hkeys)
    · intro h
      have hkeys := of_decide_eq_true h
      exact lt_of_not_ge fun hle => absurd (ha.number_mono hb hu hv hle) (not_le_of_gt hkeys)
  case small =>
    intro hsmall
    refine (comparesExactly_iff_separates table ha hb).mpr fun hsame => ?_
    rw [ha.roundedValue?_eq fun n hn => hsmall n (.inl hn),
      hb.roundedValue?_eq fun n hn => hsmall n (.inr hn)] at hsame
    exact Option.some.inj hsame

/-- The integer `2 ^ 53` and the real one half. -/
theorem comparesExactly_iff_mixed :
    ∃ x y, (integer 9007199254740992).HasValue x ∧ (real ⟨0x3fe0000000000000⟩).HasValue y
      ∧ ComparesExactly .empty (integer 9007199254740992) (real ⟨0x3fe0000000000000⟩) x y := by
  have ha := HasValue.integer 9007199254740992
  have hb : (real ⟨0x3fe0000000000000⟩).HasValue _ := .real (by decide)
  refine ⟨_, _, ha, hb, (comparesExactly_iff .empty ha hb).2.2.2 ?_⟩
  rintro n (h | h)
  · cases h
    decide
  · cases h

/-- Of the neighbours `2 ^ 53` and `2 ^ 53 + 1` the first is found neither smaller than the second,
nor equal, nor greater. -/
theorem not_comparesExactly_neighbours :
    let a := integer 9007199254740992
    let b := integer 9007199254740993
    (call "Less" [a, b]).truth .empty = some false
      ∧ (call "Equal" [a, b]).truth .empty = some false
      ∧ (call "Greater" [a, b]).truth .empty = some false
      ∧ ∃ x y, a.HasValue x ∧ b.HasValue y ∧ x < y ∧ ¬ComparesExactly .empty a b x y := by
  intro a b
  have hless : (call "Less" [a, b]).truth .empty = some false := by decide +kernel
  have hlt : ofRat (9007199254740992 : Int64).toInt < ofRat (9007199254740993 : Int64).toInt := by
    rw [← not_le, ofRat_le_ofRat, Int.cast_le]
    decide
  refine ⟨hless, by decide +kernel, by decide +kernel, _, _, .integer _, .integer _, hlt, ?_⟩
  intro h
  have hanswer := hless.symm.trans h.less
  rw [decide_eq_true hlt] at hanswer
  cases hanswer

end Term

end TermRewriting
