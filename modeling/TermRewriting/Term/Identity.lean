import TermRewriting.Term.Fingerprint

/-!
# Identity

Two terms are identical when they have the same structure and the same atoms, reals by their bits.
Marks do not count, except that two different remembered fingerprints settle the question at once.
-/

namespace TermRewriting

/-- Whether two nodes remember different fingerprints. -/
def Marks.disagree (m n : Marks) : Bool :=
  match m.fingerprint, n.fingerprint with
  | some a, some b => a != b
  | _, _ => false

mutual

/-- Whether two terms are identical. -/
def Term.identical : Term → Term → Bool
  | .atom a, .atom b => a == b
  | .app h as m, .app k bs n => !m.disagree n && (h.identical k && Term.identicalAll as bs)
  | _, _ => false

/-- Whether two lists are identical, place by place. -/
def Term.identicalAll : List Term → List Term → Bool
  | [], [] => true
  | a :: as, b :: bs => a.identical b && Term.identicalAll as bs
  | _, _ => false

end

/-- `==` on terms is identity. -/
instance : BEq Term := ⟨Term.identical⟩

mutual

/-- The term without anything remembered: every node as if just built. -/
def Term.unmarked : Term → Term
  | .atom a => .atom a
  | .app head args _ => .apply head.unmarked (Term.unmarkedAll args)

def Term.unmarkedAll : List Term → List Term
  | [] => []
  | a :: as => a.unmarked :: Term.unmarkedAll as

end

end TermRewriting
