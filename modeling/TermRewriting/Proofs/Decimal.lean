/-!
# Decimal digits

The digits of a number, and the text of an integer: its digits after a sign if it is negative. The
text determines the integer (`toString_int_inj`). Only zero starts with a zero.
-/

namespace TermRewriting

theorem toList_toString_int (n : Int) :
    (toString n).toList = (if n < 0 then ['-'] else []) ++ Nat.toDigits 10 n.natAbs := by
  rw [Int.toString_eq_repr, Int.repr_eq_if]
  split
  · next h =>
    rw [if_neg (by omega), Nat.toList_repr, List.nil_append]
    congr 1
    omega
  · next h =>
    rw [if_pos (by omega), String.toList_append, Nat.toList_repr]
    congr 2
    omega

theorem isDigit_of_mem_decimal {n : Nat} {c : Char} (h : c ∈ Nat.toDigits 10 n) :
    c.isDigit = true :=
  Nat.isDigit_of_mem_toDigits (by decide) (by decide) h

/-- No digit is a minus sign. -/
theorem toDigits_ne_minus_cons (n : Nat) (cs : List Char) : Nat.toDigits 10 n ≠ '-' :: cs := by
  intro h
  exact absurd (isDigit_of_mem_decimal (h ▸ List.mem_cons_self)) (by decide)

theorem toString_int_inj {m n : Int} (h : toString m = toString n) : m = n := by
  have hchars := congrArg String.toList h
  rw [toList_toString_int, toList_toString_int] at hchars
  have habs : Nat.toDigits 10 m.natAbs = Nat.toDigits 10 n.natAbs → m.natAbs = n.natAbs := by
    intro hdigits
    have hvalue := congrArg (fun ds => Nat.ofDigitChars 10 ds 0) hdigits
    simpa using hvalue
  -- both have a minus sign or neither
  split at hchars <;> split at hchars
  · have := habs (List.append_cancel_left hchars)
    omega
  · exact absurd hchars.symm (toDigits_ne_minus_cons _ _)
  · exact absurd hchars (toDigits_ne_minus_cons _ _)
  · have := habs (List.append_cancel_left hchars)
    omega

end TermRewriting
