import TermRewriting.Equality

/-!
# Truth of conditions

A condition is true, false, or not decided. `And`, `Or` and `Not` follow strong three-valued logic;
comparisons and a few tests decide about values; everything else is left open.
-/

namespace TermRewriting

/-! ## Three truth values -/

/-- The verdicts on the arguments of a connective, asked for in turn. The first decisive one is the
verdict on the whole; an open one is passed over, but without a decisive one the whole is then open
too. `known` says that none was open so far. -/
def firstDecisive (decisive known : Bool) : List (Option Bool) → Option Bool
  | [] => if known then some (!decisive) else none
  | some verdict :: rest =>
    if verdict = decisive then some decisive else firstDecisive decisive known rest
  | none :: rest => firstDecisive decisive false rest

/-! ## Tests on one term -/

/-- The tests that are understood without definitions. -/
def builtinTest? (name : String) (t : Term) : Option Bool :=
  match name with
  | "IntegerQ" => some (match t with | .integer _ => true | _ => false)
  | "NumberQ" => some (match t with | .integer _ => true | .real _ => true | _ => false)
  | "StringQ" => some (match t with | .string _ => true | _ => false)
  | "AtomQ" => some t.isAtom
  | "EvenQ" => some (match t with | .integer n => n.toInt % 2 == 0 | _ => false)
  | "OddQ" => some (match t with | .integer n => n.toInt % 2 != 0 | _ => false)
  | _ => none

/-- The binary64 number that stands for a number in a comparison. -/
def Term.number? : Term → Option Binary64
  | .integer n => some (.ofInt n.toInt)
  | .real x => some x
  | _ => none

/-- A comparison of two numbers. -/
def numericTest? (test : Binary64 → Binary64 → Bool) (a b : Term) : Option Bool :=
  match a.number?, b.number? with
  | some x, some y => some (test x y)
  | _, _ => none

/-- A relation between two terms. -/
def binaryTest? (table : SymbolTable) (name : String) (a b : Term) : Option Bool :=
  match name with
  | "SameQ" => some (a.identical b)
  | "UnsameQ" => some (!a.identical b)
  | "Equal" => (a.verdict table b).toBool?
  | "Unequal" => (a.verdict table b).toBool?.map (!·)
  | "Less" => numericTest? Binary64.lt a b
  | "Greater" => numericTest? (fun x y => y.lt x) a b
  | "LessEqual" => numericTest? Binary64.le a b
  | "GreaterEqual" => numericTest? (fun x y => y.le x) a b
  | _ => none

/-! ## Conditions -/

/-- The truth of an application of a symbol, given the truth of each argument. -/
def applicationTruth (table : SymbolTable) (name : String) (args : List Term)
    (truths : List (Option Bool)) : Option Bool :=
  match name, truths, args with
  | "And", truths, _ => firstDecisive false true truths
  | "Or", truths, _ => firstDecisive true true truths
  | "Not", [truth], _ => truth.map (!·)
  | name, _, [a] => builtinTest? name a
  | name, _, [a, b] => binaryTest? table name a b
  | _, _, _ => none

mutual

/-- The truth of a condition whose bound names have been replaced. -/
def Term.truth (table : SymbolTable) : Term → Option Bool
  | .symbol "True" => some true
  | .symbol "False" => some false
  | .atom _ => none
  | .app head args _ =>
    match head.symbolName? with
    | none => none
    | some name => applicationTruth table name args (Term.truths table args)

def Term.truths (table : SymbolTable) : List Term → List (Option Bool)
  | [] => []
  | a :: as => a.truth table :: Term.truths table as

end

end TermRewriting
