import TermRewriting.Binary64

/-!
# Terms

A term is an atom or an application `head[arg, …]` of any head, itself a term, to a list of
arguments. Every application carries `Marks`: what is known about the node and forgotten as soon as
it is edited.

Terms are read with accessors that answer for atoms too: an atom's head is the symbol that names its
kind.
-/

namespace TermRewriting

/-- A term without parts. -/
inductive Atom where
  | symbol (name : String)
  | integer (value : Int64)
  | real (value : Binary64)
  | string (text : String)
deriving DecidableEq

/-- What a node remembers: whether it still has to be evaluated, its fingerprint once that has been
computed, and the stamp of the rule table under which it was found normal. -/
structure Marks where
  needsEval : Bool := true
  fingerprint : Option UInt64 := none
  stamp : Option UInt64 := none
deriving DecidableEq

/-- The marks of a node that was just built or edited. -/
def Marks.fresh : Marks := {}

inductive Term where
  | atom (value : Atom)
  | app (head : Term) (args : List Term) (marks : Marks)

namespace Atom

/-- The name of the kind of an atom. -/
def kind : Atom → String
  | .symbol _ => "Symbol"
  | .integer _ => "Integer"
  | .real _ => "Real"
  | .string _ => "String"

end Atom

namespace Term

/-! ## Construction -/

@[match_pattern]
abbrev symbol (name : String) : Term := .atom (.symbol name)

@[match_pattern]
abbrev integer (value : Int64) : Term := .atom (.integer value)

@[match_pattern]
abbrev real (value : Binary64) : Term := .atom (.real value)

@[match_pattern]
abbrev string (text : String) : Term := .atom (.string text)

/-- A new application. -/
abbrev apply (head : Term) (args : List Term) : Term := .app head args .fresh

/-- A new application of a symbol. -/
abbrev call (name : String) (args : List Term) : Term := apply (.symbol name) args

/-! ## Parts -/

def isAtom : Term → Bool
  | .atom _ => true
  | .app .. => false

/-- The name of a symbol. -/
def symbolName? : Term → Option String
  | .symbol name => some name
  | _ => none

/-- The head of a term; an atom's is the symbol that names its kind. -/
def head : Term → Term
  | .atom a => .symbol a.kind
  | .app head _ _ => head

/-- The name of the head, if the head is a symbol. -/
def headName? : Term → Option String
  | .atom a => some a.kind
  | .app head _ _ => head.symbolName?

/-- The arguments; an atom has none. -/
def args : Term → List Term
  | .atom _ => []
  | .app _ args _ => args

/-- Whether the term still has to be evaluated; atoms never do. -/
def needsEval : Term → Bool
  | .atom _ => false
  | .app _ _ marks => marks.needsEval

/-- The arguments of an application of the symbol `name`. -/
def callArgs? (name : String) : Term → Option (List Term)
  | .app (.symbol h) args _ => if h = name then some args else none
  | _ => none

/-- Whether the term is an application of the symbol `name`. -/
def isCall (name : String) (t : Term) : Bool := (t.callArgs? name).isSome

/-- The arguments of `name[…][…]`, outer ones first. -/
def operatorArgs? (name : String) : Term → Option (List Term × List Term)
  | .app head args _ => (head.callArgs? name).map fun inner => (args, inner)
  | .atom _ => none

/-- Part zero is the head, part `i + 1` is argument `i`. -/
def part? (t : Term) : Nat → Option Term
  | 0 => if t.isAtom then none else some t.head
  | i + 1 => t.args[i]?

/-- A node from its parts, the head first. Without parts there is no node. -/
def ofParts? : List Term → Option Term
  | [] => none
  | head :: args => some (apply head args)

@[simp] theorem ofParts?_cons (h : Term) (as : List Term) :
    ofParts? (h :: as) = some (apply h as) := rfl

@[simp] theorem part?_apply_succ (h : Term) (as : List Term) (m : Marks) (i : Nat) :
    (Term.app h as m).part? (i + 1) = as[i]? := rfl

/-- The arguments spliced in place of every application of `name` among them. -/
def spliced (name : String) (args : List Term) : List Term :=
  args.flatMap fun a => (a.callArgs? name).getD [a]

@[simp] theorem spliced_nil (name : String) : spliced name [] = [] := rfl

@[simp] theorem spliced_cons (name : String) (a : Term) (as : List Term) :
    spliced name (a :: as) = (a.callArgs? name).getD [a] ++ spliced name as := rfl

@[simp] theorem spliced_append (name : String) (as bs : List Term) :
    spliced name (as ++ bs) = spliced name as ++ spliced name bs := by
  simp [spliced]

/-- Without such an application nothing changes. -/
theorem spliced_eq_self {name : String} {args : List Term}
    (h : args.any (isCall name) = false) : spliced name args = args := by
  induction args with
  | nil => rfl
  | cons a as ih =>
    simp only [List.any_cons, Bool.or_eq_false_iff, isCall, Option.isSome_eq_false_iff,
      Option.isNone_iff_eq_none] at h
    rw [spliced_cons, h.1, ih h.2]
    rfl

end Term

end TermRewriting
