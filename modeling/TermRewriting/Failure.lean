import TermRewriting.Rendering

/-!
# Failures

What can go wrong, with one message for each cause.
-/

namespace TermRewriting

inductive Failure where
  /-- A node was to be built without a head. -/
  | missingHead
  /-- The term still changes after as many applications or rounds as are allowed. -/
  | iterationLimit (limit : Nat)
  /-- No symbol can carry a definition with this left-hand side. -/
  | notDefinable (lhs : Term)
  /-- The symbol accepts no definitions. -/
  | locked (symbol : String)

/-- The message that reports a failure. -/
def Failure.message : Failure → String
  | .missingHead => "Malformed expression: expression has no head"
  | .iterationLimit limit => "Iteration limit of " ++ toString limit ++ " exceeded"
  | .notDefinable lhs => "Not a pattern: " ++ lhs.display
  | .locked symbol => "Symbol " ++ symbol ++ " is Protected"

end TermRewriting
