import TermRewriting.Hexadecimal
import TermRewriting.Session
import TermRewriting.Text.Unprintable

/-!
# Debugging texts

The structure of terms and sessions, spelled out with the name of every constructor and field.
Strings are quoted with escapes for everything that is not printed as it is.
-/

namespace TermRewriting

namespace Debug

/-! ## Building blocks -/

/-- One character of a quoted string. -/
def escapedChar (c : Char) : List Char :=
  if c = '\x00' then ['\\', '0']
  else if c = '\t' then ['\\', 't']
  else if c = '\r' then ['\\', 'r']
  else if c = '\n' then ['\\', 'n']
  else if c = '\\' then ['\\', '\\']
  else if c = '"' then ['\\', '"']
  else if isUnprintable c then
    '\\' :: 'u' :: '\x7b' :: Nat.toDigits 16 c.toNat ++ ['\x7d']
  else [c]

/-- A string in quotes. -/
def quoted (text : String) : String :=
  "\"" ++ String.ofList (text.toList.flatMap escapedChar) ++ "\""

/-- A constructor with one argument. -/
def wrapped (name contents : String) : String := name ++ "(" ++ contents ++ ")"

def listed (items : List String) : String := "[" ++ ", ".intercalate items ++ "]"

/-- A record with its fields. -/
def record (name : String) (fields : List (String × String)) : String :=
  name ++ " \x7b " ++ ", ".intercalate (fields.map fun f => f.1 ++ ": " ++ f.2) ++ " \x7d"

/-- A map with its entries. -/
def mapping (entries : List (String × String)) : String :=
  "\x7b" ++ ", ".intercalate (entries.map fun e => e.1 ++ ": " ++ e.2) ++ "\x7d"

/-! ## Terms -/

def atom : Atom → String
  | .symbol name => wrapped "Symbol" (wrapped "Symbol" (quoted name))
  | .integer value => wrapped "Integer" (toString value.toInt)
  | .real value => wrapped "Real" value.debugText
  | .string text => wrapped "String" (quoted text)

mutual

def term : Term → String
  | .atom a => atom a
  | .app head args marks =>
    wrapped "Expr" (record "Expression"
      [("head", term head), ("args", listed (terms args)),
        ("needs_eval", truthWord marks.needsEval)])

def terms : List Term → List String
  | [] => []
  | t :: ts => term t :: terms ts

end

/-! ## Sessions -/

def rule (r : Rule) : String :=
  record "Rule"
    [("lhs", term r.lhs), ("rhs", term r.rhs), ("delayed", if r.delayed then "Yes" else "No")]

def ruleSet (rules : RuleSet) : String := wrapped "RuleSet" (listed (rules.map rule))

/-- The rule sets of one kind. -/
def ruleSets (kind : ValueKind) (d : Definitions) : String :=
  mapping ((d.entries.filter fun e => e.1.1 == kind).map fun e =>
    (quoted e.1.2, ruleSet e.2))

def definitions (d : Definitions) : String :=
  record "DefinitionStore"
    [("own", ruleSets .own d), ("down", ruleSets .down d), ("up", ruleSets .up d),
      ("sub", ruleSets .sub d)]

/-- A set of attributes by their names; the empty set by its bits. -/
def attributes (a : Attributes) : String :=
  wrapped "Attributes" (if a.isEmpty then "0x0" else a.text)

def session (s : Session) : String :=
  record "EvalState"
    [("defs", definitions s.definitions),
      ("attributes", mapping (s.attributes.map fun e => (quoted e.1, attributes e.2))),
      ("renderers",
        listed (((s.renderers.map Prod.fst).mergeSort fun a b => decide (a ≤ b)).map quoted)),
      ("generation", toString s.generation.toNat)]

end Debug

end TermRewriting
