import TermRewriting.Equality
import TermRewriting.Rendering
import TermRewriting.Rule

/-!
# Terms and rules as documents

A data format writes strings, numbers, lists, records and cases as documents, and documents as
texts. Here stands what terms, rules, verdicts, forms and attributes are as documents of any format:
a term is one of five cases, an application or a rule is a record. Marks are not written, so what is
read is new.

## Termination

The parts of a document that a format reads are less deep than the document.
-/

namespace TermRewriting

/-! ## Formats -/

/-- How documents are written and read. -/
structure DataFormat (Doc : Type) where
  string : String → Doc
  integer : Int64 → Doc
  real : Binary64 → Doc
  list : List Doc → Doc
  /-- The fields of a record have names. -/
  record : List (String × Doc) → Doc
  /-- One of several cases, by its name and its contents. -/
  variant : String → Doc → Doc
  /-- One of several cases, by its name alone. -/
  unit : String → Doc
  text : Doc → String
  string? : Doc → Option String
  integer? : Doc → Option Int64
  real? : Doc → Option Binary64
  list? : Doc → Option (List Doc)
  /-- The contents of the fields with these names, in the order of the names. -/
  record? : List String → Doc → Option (List Doc)
  variant? : Doc → Option (String × Doc)
  unit? : Doc → Option String
  parse? : String → Option Doc
  depth : Doc → Nat
  depth_lt_of_list? {d : Doc} {items : List Doc} :
    list? d = some items → ∀ p ∈ items, depth p < depth d
  depth_lt_of_record? {names : List String} {d : Doc} {parts : List Doc} :
    record? names d = some parts → ∀ p ∈ parts, depth p < depth d
  depth_lt_of_variant? {d contents : Doc} {name : String} :
    variant? d = some (name, contents) → depth contents < depth d

namespace DataFormat

variable {Doc : Type}

/-! ## Writing -/

def ofAtom (format : DataFormat Doc) : Atom → Doc
  | .symbol name => format.variant "Symbol" (format.string name)
  | .integer value => format.variant "Integer" (format.integer value)
  | .real value => format.variant "Real" (format.real value)
  | .string text => format.variant "String" (format.string text)

mutual

/-- A term without its marks. -/
def ofTerm (format : DataFormat Doc) : Term → Doc
  | .atom a => format.ofAtom a
  | .app head args _ =>
    format.variant "Expr"
      (format.record [("head", ofTerm format head), ("args", format.list (ofTerms format args))])

def ofTerms (format : DataFormat Doc) : List Term → List Doc
  | [] => []
  | t :: ts => ofTerm format t :: ofTerms format ts

end

def delayedName (delayed : Bool) : String := if delayed then "Yes" else "No"

def ofRule (format : DataFormat Doc) (r : Rule) : Doc :=
  format.record [("lhs", format.ofTerm r.lhs), ("rhs", format.ofTerm r.rhs),
    ("delayed", format.unit (delayedName r.delayed))]

def ofRules (format : DataFormat Doc) (rules : RuleSet) : Doc :=
  format.list (rules.map format.ofRule)

def ofVerdict (format : DataFormat Doc) (v : Verdict) : Doc := format.unit v.name

def ofForm (format : DataFormat Doc) (f : Form) : Doc := format.unit f.name

def ofAttributes (format : DataFormat Doc) (a : Attributes) : Doc := format.string a.text

/-! ## Reading -/

/-- The atom with this name of its kind and these contents. -/
def toAtom? (format : DataFormat Doc) (name : String) (contents : Doc) : Option Term :=
  if name = "Symbol" then (format.string? contents).map .symbol
  else if name = "Integer" then (format.integer? contents).map .integer
  else if name = "Real" then (format.real? contents).map .real
  else if name = "String" then (format.string? contents).map .string
  else none

/-- The term that a document holds. All its applications are new. -/
def toTerm? (format : DataFormat Doc) (d : Doc) : Option Term :=
  match hvariant : format.variant? d with
  | none => none
  | some (name, contents) =>
    have := format.depth_lt_of_variant? hvariant
    if name = "Expr" then
      match hrecord : format.record? ["head", "args"] contents with
      | some [head, args] =>
        have := format.depth_lt_of_record? hrecord
        match hlist : format.list? args with
        | none => none
        | some items =>
          have := format.depth_lt_of_list? hlist
          do
            let head ← toTerm? format head
            let args ← items.mapM (toTerm? format)
            some (.apply head args)
      | _ => none
    else format.toAtom? name contents
termination_by format.depth d
decreasing_by
  all_goals grind

def delayedOfName? (name : String) : Option Bool :=
  if name = "Yes" then some true else if name = "No" then some false else none

def toRule? (format : DataFormat Doc) (d : Doc) : Option Rule :=
  match format.record? ["lhs", "rhs", "delayed"] d with
  | some [lhs, rhs, delayed] => do
    let lhs ← format.toTerm? lhs
    let rhs ← format.toTerm? rhs
    let delayed ← (format.unit? delayed).bind delayedOfName?
    some ⟨lhs, rhs, delayed⟩
  | _ => none

def toRules? (format : DataFormat Doc) (d : Doc) : Option RuleSet :=
  (format.list? d).bind fun items => items.mapM format.toRule?

def toVerdict? (format : DataFormat Doc) (d : Doc) : Option Verdict :=
  (format.unit? d).bind fun name =>
    [Verdict.equal, .different, .undecided].find? fun v => v.name == name

def toForm? (format : DataFormat Doc) (d : Doc) : Option Form :=
  (format.unit? d).bind Form.ofName?

def toAttributes? (format : DataFormat Doc) (d : Doc) : Option Attributes :=
  (format.string? d).bind Attributes.ofText?

/-- What a reader finds in a text. -/
def decode? {α : Type} (format : DataFormat Doc) (read : Doc → Option α) (text : String) :
    Option α :=
  (format.parse? text).bind read

end DataFormat

end TermRewriting
