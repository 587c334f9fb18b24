import TermRewriting.Conditional
import TermRewriting.Replacement
import TermRewriting.Term.Order

/-!
# Canonical form

A node is canonical when no argument is an application of `Sequence`, none is an application of its
own flat head, the arguments of an orderless head are in order, and no argument carries a condition
that the node would hand upwards.
-/

namespace TermRewriting

namespace Term

/-- The arguments with the applications of `name` among them dissolved, if there are any. -/
def dissolving? (name : String) (args : List Term) : Option (List Term) :=
  if args.any (isCall name) then some (spliced name args) else none

/-- The arguments in order, if they are not. -/
def sorting? (args : List Term) : Option (List Term) :=
  if inOrder args then none else some (sortedArgs args)

/-- A further change, made on what an earlier one left. -/
def changedFurther (args : List Term) (change : List Term → Option (List Term))
    (earlier : Option (List Term)) : Option (List Term) :=
  match change (keepOr args earlier) with
  | some new => some new
  | none => earlier

/-- What a head changes about its arguments, if anything: sequences dissolve under any head, then
nested applications under a flat symbol, and last an orderless symbol sorts. -/
def changedArgs? (table : SymbolTable) (head : Term) (args : List Term) : Option (List Term) :=
  let spread := dissolving? "Sequence" args
  match head.symbolName? with
  | none => spread
  | some name =>
    let attributes := table.attributes name
    let flattened :=
      if attributes.isFlat then changedFurther args (dissolving? name) spread else spread
    if attributes.isOrderless then changedFurther args sorting? flattened else flattened

/-- Whether a head hands the conditions of its arguments upwards: every symbol does but
`ConditionalExpression` itself. -/
def handsUp (head : Term) : Bool := head.symbolName?.any (· != "ConditionalExpression")

/-- The canonical form of a node whose parts are canonical, and whether it differs. -/
def canonicalNode (table : SymbolTable) (head : Term) (args : List Term) (marks : Marks) :
    Term × Bool :=
  let newArgs := changedArgs? table head args
  let hoisted := if handsUp head then hoisted? head (keepOr args newArgs) else none
  match hoisted, newArgs with
  | some t, _ => (t, true)
  | none, some args => (.apply head args, true)
  | none, none => (.app head args marks, false)

/-- The canonical form of a term whose parts are canonical, and whether it differs. -/
def canonicalTop (table : SymbolTable) : Term → Term × Bool
  | .atom a => (.atom a, false)
  | .app head args marks => canonicalNode table head args marks

/-- An unchanged part of a list stands for itself. -/
def unchangedArg (t : Term) : List Term := [t]

mutual

/-- The term with every node in canonical form, from the bottom up. -/
def canonical? (table : SymbolTable) : Term → Option Term
  | .atom _ => none
  | .app head args marks =>
    match rebuilt? head args (head.canonical? table) (canonicalAll? table args) with
    | some t => some (t.canonicalTop table).1
    | none =>
      match canonicalNode table head args marks with
      | (t, true) => some t
      | (_, false) => none

def canonicalAll? (table : SymbolTable) : List Term → Option (List Term)
  | [] => none
  | a :: as => relisted? a as unchangedArg (a.canonical? table) (canonicalAll? table as)

end

/-- The canonical form of a term. -/
def canonical (table : SymbolTable) (t : Term) : Term := keepOr t (t.canonical? table)

end Term

end TermRewriting
