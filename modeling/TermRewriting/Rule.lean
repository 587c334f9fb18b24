import TermRewriting.Term.Identity

/-!
# Rules

A rule replaces what its left-hand side matches by its right-hand side. A rule set is a list in which
the first rule that matches wins.
-/

namespace TermRewriting

/-- Replace `lhs` by `rhs`. Delayed rules are written with another arrow and work alike. -/
structure Rule where
  lhs : Term
  rhs : Term
  delayed : Bool

namespace Rule

/-- Reads `Rule[lhs, rhs]` or `RuleDelayed[lhs, rhs]`. -/
def ofTerm? (t : Term) : Option Rule :=
  match t.callArgs? "Rule", t.callArgs? "RuleDelayed" with
  | some [lhs, rhs], _ => some ⟨lhs, rhs, false⟩
  | _, some [lhs, rhs] => some ⟨lhs, rhs, true⟩
  | _, _ => none

/-- The head under which a rule is written. -/
def headName (r : Rule) : String := if r.delayed then "RuleDelayed" else "Rule"

def toTerm (r : Rule) : Term := .call r.headName [r.lhs, r.rhs]

/-- Whether two rules are identical. -/
def identical (r s : Rule) : Bool :=
  r.lhs.identical s.lhs && (r.rhs.identical s.rhs && r.delayed == s.delayed)

theorem ofTerm?_toTerm (r : Rule) : ofTerm? r.toTerm = some r := by
  obtain ⟨lhs, rhs, delayed⟩ := r
  cases delayed <;> rfl

end Rule

/-- Rules in the order in which they are tried. -/
abbrev RuleSet := List Rule

namespace RuleSet

/-- Puts a rule in the place of the first one with an identical left-hand side, or at the end if
there is none. -/
def put (r : Rule) : RuleSet → RuleSet
  | [] => [r]
  | old :: rest => if old.lhs.identical r.lhs then r :: rest else old :: put r rest

/-- Whether a rule has this left-hand side. -/
def hasLhs (lhs : Term) (rules : RuleSet) : Bool := rules.any fun old => old.lhs.identical lhs

end RuleSet

end TermRewriting
