import TermRewriting.Term

/-!
# Conditional expressions

`ConditionalExpression[value, condition]` is a value that holds under a condition. A node with such
arguments hands their conditions upwards, joined in the order of the arguments.
-/

namespace TermRewriting

namespace Term

/-- The value and the condition of a conditional expression. -/
def conditional? : Term → Option (Term × Term)
  | t =>
    match t.callArgs? "ConditionalExpression" with
    | some [value, condition] => some (value, condition)
    | _ => none

/-- An argument without its condition. -/
def bareValue (t : Term) : Term :=
  match t.conditional? with
  | some (value, _) => value
  | none => t

/-- The conditions that the arguments carry. -/
def conditions (args : List Term) : List Term :=
  args.filterMap fun a => a.conditional?.map Prod.snd

/-- The conditional expression that a node with conditional arguments amounts to; nothing if no
argument carries a condition. -/
def hoisted? (head : Term) (args : List Term) : Option Term :=
  if (conditions args).isEmpty then none
  else some (call "ConditionalExpression"
    [apply head (args.map bareValue), call "And" (conditions args)])

@[simp] theorem conditional?_pair (v c : Term) (m : Marks) :
    (Term.app (.symbol "ConditionalExpression") [v, c] m).conditional? = some (v, c) := by
  simp [conditional?, callArgs?]

/-- Nothing is handed upwards exactly when no argument is conditional. -/
theorem hoisted?_eq_none_iff {head : Term} {args : List Term} :
    hoisted? head args = none ↔ ∀ a ∈ args, a.conditional? = none := by
  have key : (conditions args).isEmpty = true ↔ ∀ a ∈ args, a.conditional? = none := by
    simp [conditions]
  unfold hoisted?
  split
  · next h => simpa using key.mp h
  · next h => simpa using fun hall => h (key.mpr hall)

theorem eq_of_hoisted? {head t : Term} {args : List Term} (h : hoisted? head args = some t) :
    t = call "ConditionalExpression"
      [apply head (args.map bareValue), call "And" (conditions args)] := by
  unfold hoisted? at h
  split at h
  · cases h
  · exact (Option.some.inj h).symm

end Term

end TermRewriting
