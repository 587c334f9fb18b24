import TermRewriting.Symbols
import TermRewriting.Term.Identity

/-!
# Equality

Two terms may be equal, different, or neither provably: symbols that differ may still come to stand
for the same value. Only atoms with fixed values and applications to different numbers of arguments
are ever found different.
-/

namespace TermRewriting

/-! ## Verdicts -/

inductive Verdict where
  | equal
  | different
  | undecided
deriving DecidableEq

namespace Verdict

def ofBool (b : Bool) : Verdict := if b then .equal else .different

/-- The name of a verdict. -/
def name : Verdict → String
  | .equal => "Equal"
  | .different => "NotEqual"
  | .undecided => "Undecidable"

/-- A verdict as a term. -/
def toTerm : Verdict → Term
  | .equal => .symbol "True"
  | .different => .symbol "False"
  | .undecided => .symbol "Indeterminate"

/-- The truth of "they are equal", where it is known. -/
def toBool? : Verdict → Option Bool
  | .equal => some true
  | .different => some false
  | .undecided => none

end Verdict

/-! ## Atoms -/

/-- Two symbols are equal by name, and `True` differs from `False`. -/
def symbolVerdict (a b : String) : Verdict :=
  if a = b then .equal
  else if (a = "True" ∧ b = "False") ∨ (a = "False" ∧ b = "True") then .different
  else .undecided

/-- Numbers are compared exactly, a NaN equals only its own bits; strings and numbers differ. -/
def Atom.verdict : Atom → Atom → Verdict
  | .integer a, .integer b => .ofBool (a == b)
  | .real a, .real b => .ofBool (a == b || a.compare? b == some .eq)
  | .integer a, .real b => .ofBool (b.toInt? == some a.toInt)
  | .real a, .integer b => .ofBool (a.toInt? == some b.toInt)
  | .string a, .string b => .ofBool (a == b)
  | .string _, .integer _ => .different
  | .string _, .real _ => .different
  | .integer _, .string _ => .different
  | .real _, .string _ => .different
  | .symbol a, .symbol b => symbolVerdict a b
  | _, _ => .undecided

/-! ## Terms -/

/-- The list without its first element that satisfies the test. -/
def eraseFirst? {α : Type} (p : α → Bool) : List α → Option (List α)
  | [] => none
  | a :: as => if p a then some as else (eraseFirst? p as).map (a :: ·)

mutual

/-- The verdict on two terms. Identical applications are equal at once; that their fingerprints agree
then need not be asked first. Other applications to the same number of arguments are equal when
their heads are and their arguments are: place by place, or under an orderless head in some order. -/
def Term.verdict (table : SymbolTable) : Term → Term → Verdict
  | .atom a, .atom b => a.verdict b
  | .app h as m, .app k bs n =>
    if as.length ≠ bs.length then .different
    else if Term.identical (.app h as m) (.app k bs n) then .equal
    else if h.verdict table k ≠ .equal then .undecided
    else if h.symbolName?.any table.isOrderless then
      if Term.pairsOff table as bs then .equal else .undecided
    else if Term.equalInPlace table as bs then .equal else .undecided
  | _, _ => .undecided

/-- Whether two lists are equal place by place. -/
def Term.equalInPlace (table : SymbolTable) : List Term → List Term → Bool
  | [], [] => true
  | a :: as, b :: bs => a.verdict table b == .equal && Term.equalInPlace table as bs
  | _, _ => false

/-- Whether each element, in turn, finds an equal among the elements that are left. It takes the
first one and never gives it back. -/
def Term.pairsOff (table : SymbolTable) : List Term → List Term → Bool
  | [], bs => bs.isEmpty
  | a :: as, bs =>
    match eraseFirst? (fun b => a.verdict table b == .equal) bs with
    | some rest => Term.pairsOff table as rest
    | none => false

end

namespace Term

/-- The verdict on two ordered lists of arguments. -/
def orderedVerdict (table : SymbolTable) (as bs : List Term) : Verdict :=
  if as.length ≠ bs.length then .different
  else if equalInPlace table as bs then .equal else .undecided

/-- The verdict on two lists of arguments whose order does not matter. -/
def orderlessVerdict (table : SymbolTable) (as bs : List Term) : Verdict :=
  if as.length ≠ bs.length then .different
  else if pairsOff table as bs then .equal else .undecided

/-- The term once its equality with another one has been asked: applications to the same number of
arguments are fingerprinted first. -/
def askedEqual (t other : Term) : Term :=
  match t, other with
  | .app _ as _, .app _ bs _ => if as.length = bs.length then t.memoized else t
  | _, _ => t

end Term

end TermRewriting
