import TermRewriting.Term

/-!
# Canonical order

Numbers come first, by value, an integer before a real of the same value; then strings and symbols by
code points; then applications by head, number of arguments and arguments. An integer is compared
with a real as the nearest binary64 number, reals among each other by the total order of their bits.
-/

namespace TermRewriting

/-- Where a kind of atom stands: numbers, strings, symbols. -/
def Atom.rank : Atom → Nat
  | .integer _ => 0
  | .real _ => 0
  | .string _ => 1
  | .symbol _ => 2

/-- The order of atoms. -/
def Atom.order : Atom → Atom → Ordering
  | .integer a, .integer b => compare a.toInt b.toInt
  | .real a, .real b => a.totalOrder b
  | .integer a, .real b => ((Binary64.ofInt a.toInt).totalOrder b).then .lt
  | .real a, .integer b => (a.totalOrder (.ofInt b.toInt)).then .gt
  | .string a, .string b => compareOfLessAndEq a b
  | .symbol a, .symbol b => compareOfLessAndEq a b
  | a, b => compare a.rank b.rank

namespace Term

mutual

/-- The order of terms. -/
def order : Term → Term → Ordering
  | .atom a, .atom b => a.order b
  | .atom _, .app .. => .lt
  | .app .., .atom _ => .gt
  | .app h as _, .app k bs _ =>
    (h.order k).then ((compare as.length bs.length).then (orderAll as bs))

/-- The order of two lists of one length: the first place where they differ decides. -/
def orderAll : List Term → List Term → Ordering
  | a :: as, b :: bs => (a.order b).then (orderAll as bs)
  | _, _ => .eq

end

/-- Whether `a` may stand before `b` in a sorted list. -/
def notAfter (a b : Term) : Bool := a.order b != .gt

/-- Whether no argument is after its neighbour. -/
def inOrder : List Term → Bool
  | a :: b :: rest => a.notAfter b && inOrder (b :: rest)
  | _ => true

/-- The arguments in canonical order, identical ones staying in place. -/
def sortedArgs (args : List Term) : List Term := args.mergeSort notAfter

/-- The node with its arguments sorted, and whether anything moved. A node that is in order stays
as it is, marks included. -/
def sorted : Term → Term × Bool
  | .app head args marks =>
    if inOrder args then (.app head args marks, false) else (.apply head (sortedArgs args), true)
  | t => (t, false)

/-- Whether argument `i` comes strictly before argument `j`; not so where one is missing. -/
def argPrecedes (t : Term) (i j : Nat) : Bool :=
  match t.args[i]?, t.args[j]? with
  | some a, some b => a.order b == .lt
  | _, _ => false

theorem sortedArgs_perm (args : List Term) : (sortedArgs args).Perm args :=
  List.mergeSort_perm args notAfter

end Term

end TermRewriting
