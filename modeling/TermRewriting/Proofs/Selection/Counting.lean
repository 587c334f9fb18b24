import Mathlib.Data.Nat.Factorial.Basic
import TermRewriting.Proofs.Selection.Cursor

/-!
# Counting the tuples in words

The count is a product of factors from `n - r + 1` up to `n`. All of them are positive, so the partial
products only grow, and one of them leaves 64 bits exactly if the whole product does
(`boundedProduct?_eq`): giving up early loses nothing.

The first factor is computed before the product, also when there are no factors. At the largest word
and `r = 0` it is one more than the largest word, though the count is one.
-/

namespace TermRewriting

/-- The number of tuples of `r` distinct indices below `n`. -/
def tupleCount (n r : Nat) : Nat := if n < r then 0 else n.factorial / (n - r).factorial

/-- A number, if it fits 64 bits. -/
def fitting? (n : Nat) : Option Nat := if n < UInt64.size then some n else none

theorem tupleCount_eq_descFactorial (n r : Nat) : tupleCount n r = n.descFactorial r := by
  unfold tupleCount
  split
  · next h => exact (Nat.descFactorial_of_lt h).symm
  · next h => exact (Nat.descFactorial_eq_div (Nat.le_of_not_lt h)).symm

/-- **A product of positive factors gives up exactly if it does not fit in the end.** -/
theorem boundedProduct?_eq {acc k : Nat} (hacc : acc < UInt64.size) (hk : 0 < k) (count : Nat) :
    boundedProduct? acc k count = fitting? (acc * k.ascFactorial count) := by
  induction count generalizing acc k with
  | zero => rw [boundedProduct?, Nat.ascFactorial_zero, Nat.mul_one, fitting?, if_pos hacc]
  | succ count ih =>
    have hsplit : acc * k.ascFactorial (count + 1) = acc * k * (k + 1).ascFactorial count := by
      rw [Nat.mul_assoc, Nat.succ_ascFactorial, Nat.ascFactorial_succ]
    rw [boundedProduct?, hsplit]
    split
    · next h => exact ih h (Nat.succ_pos k)
    · next h =>
      -- the later factors are positive, so the product stays out of bounds
      have hlarge : acc * k ≤ acc * k * (k + 1).ascFactorial count :=
        Nat.le_mul_of_pos_right _ (Nat.ascFactorial_pos k count)
      rw [fitting?, if_neg (by omega)]

theorem arrangementCount?_eq (n r : Nat) : arrangementCount? n r = fitting? (tupleCount n r) := by
  rw [tupleCount_eq_descFactorial]
  unfold arrangementCount?
  split
  · next h => rw [Nat.descFactorial_of_lt h]; rfl
  · next h =>
    have hsum : n - r + r = n := Nat.sub_add_cancel (Nat.le_of_not_lt h)
    rw [boundedProduct?_eq (by decide) (Nat.succ_pos _), Nat.one_mul,
      ← Nat.add_descFactorial_eq_ascFactorial, hsum]

/-- A cursor with as many tuples as are counted. -/
theorem tuples_of_arrangementCount? {n r c : Nat} (h : arrangementCount? n r = some c) :
    ∃ all : List (List Nat), all.length = c
      ∧ ∀ count, Cursor.tuples count (Cursor.start? n r) = all.take count := by
  refine ⟨(selections r (List.range n)).map Prod.fst, ?_, (Cursor.passes_start? n r).tuples_eq rfl⟩
  rw [arrangementCount?_eq, fitting?] at h
  split at h
  · injection h with h
    rw [List.length_map, length_selections, List.length_range, ← tupleCount_eq_descFactorial, h]
  · cases h

/-- **The count in words is exact, except at one input.** It fails exactly for the tuples of no index
below the largest word. Everywhere else it is the number of tuples if that fits 64 bits, and none
otherwise; and the cursor has as many tuples as are counted. -/
theorem checkedArrangementCount?_exact (n r : Nat) (hn : n < UInt64.size) :
    (checkedArrangementCount? n r = none ↔ n = UInt64.size - 1 ∧ r = 0)
      ∧ (¬(n = UInt64.size - 1 ∧ r = 0) →
          checkedArrangementCount? n r = some (fitting? (tupleCount n r)))
      ∧ ∀ c, checkedArrangementCount? n r = some (some c) →
          ∃ all : List (List Nat), all.length = c
            ∧ ∀ count, Cursor.tuples count (Cursor.start? n r) = all.take count := by
  have hfails : (r ≤ n ∧ UInt64.size ≤ n - r + 1) ↔ n = UInt64.size - 1 ∧ r = 0 := by
    have hsize : UInt64.size = 18446744073709551616 := rfl
    omega
  unfold checkedArrangementCount?
  refine ⟨?fails, ?counts, ?yields⟩
  case fails =>
    rw [← hfails, ite_eq_left_iff]
    simp
  case counts =>
    intro h
    rw [if_neg (mt hfails.mp h), arrangementCount?_eq]
  case yields =>
    intro c h
    split at h
    · cases h
    · injection h with h
      exact tuples_of_arrangementCount? h

/-- A count that fits, with its tuples, and the first one of its kind that does not fit. -/
theorem checkedArrangementCount?_exact_small :
    (checkedArrangementCount? 20 3 = some (some 6840)
        ∧ ∃ all : List (List Nat), all.length = 6840
          ∧ ∀ count, Cursor.tuples count (Cursor.start? 20 3) = all.take count)
      ∧ fitting? (tupleCount 2642247 3) = none := by
  have hcount : checkedArrangementCount? 20 3 = some (some 6840) := by decide
  have hlarge := (checkedArrangementCount?_exact 2642247 3 (by decide)).2.1 (by decide)
  exact ⟨⟨hcount, (checkedArrangementCount?_exact 20 3 (by decide)).2.2 _ hcount⟩,
    Option.some_inj.mp (hlarge.symm.trans (by decide))⟩

/-- There is one tuple of no index below the largest word, and it is not counted. -/
theorem checkedArrangementCount?_fails :
    fitting? (tupleCount (UInt64.size - 1) 0) = some 1
      ∧ checkedArrangementCount? (UInt64.size - 1) 0 = none := by
  refine ⟨?_, by decide⟩
  rw [tupleCount_eq_descFactorial, Nat.descFactorial_zero]
  rfl

end TermRewriting
