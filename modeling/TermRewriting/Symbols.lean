import TermRewriting.Hexadecimal
import TermRewriting.Term

/-!
# Symbol tables

What comparison, matching, canonical form and rendering want to know about a symbol: its attributes
and, if there is one, the way its applications are written.
-/

namespace TermRewriting

/-! ## Attributes -/

/-- A set of attributes, one bit each. -/
structure Attributes where
  bits : UInt32
deriving DecidableEq

namespace Attributes

/-- No attribute. -/
def empty : Attributes := ⟨0⟩

/-- Nested applications flatten into one argument list. -/
def flat : Attributes := ⟨1⟩

/-- The order of the arguments does not matter. -/
def orderless : Attributes := ⟨2⟩

/-- An application to one argument may stand for the argument. -/
def oneIdentity : Attributes := ⟨4⟩

/-- The symbol accepts no definitions. -/
def locked : Attributes := ⟨8⟩

/-- The names of the attributes, in the order of their bits. -/
def named : List (String × Attributes) :=
  [("FLAT", flat), ("ORDERLESS", orderless), ("ONE_IDENTITY", oneIdentity),
    ("PROTECTED", locked)]

/-- The attribute of a name. -/
def ofName? (name : String) : Option Attributes := named.lookup name

def union (a b : Attributes) : Attributes := ⟨a.bits ||| b.bits⟩

def inter (a b : Attributes) : Attributes := ⟨a.bits &&& b.bits⟩

/-- Whether every attribute of `b` is one of `a`. -/
def contains (a b : Attributes) : Bool := a.inter b == b

def isEmpty (a : Attributes) : Bool := a == empty

def isFlat (a : Attributes) : Bool := a.contains flat

def isOrderless (a : Attributes) : Bool := a.contains orderless

/-- The names of the attributes in a set, joined by bars. -/
def text (a : Attributes) : String :=
  " | ".intercalate ((named.filter fun n => a.contains n.2).map Prod.fst)

/-! ### Reading attribute sets -/

/-- The blank characters of Unicode. -/
def isBlank (c : Char) : Bool :=
  let n := c.toNat
  (0x9 ≤ n && n ≤ 0xd) || n == 0x20 || n == 0x85 || n == 0xa0 || n == 0x1680
    || (0x2000 ≤ n && n ≤ 0x200a) || n == 0x2028 || n == 0x2029 || n == 0x202f || n == 0x205f
    || n == 0x3000

/-- The characters without the blanks at both ends. -/
def trimmed (cs : List Char) : List Char :=
  ((cs.dropWhile isBlank).reverse.dropWhile isBlank).reverse

/-- The pieces between the bars; there is always one. -/
def pieces : List Char → List (List Char)
  | [] => [[]]
  | c :: cs =>
    if c = '|' then [] :: pieces cs
    else
      match pieces cs with
      | piece :: rest => (c :: piece) :: rest
      | [] => [[c]]

/-- The number below `2 ^ 32` that hexadecimal digits stand for; a plus sign may precede them. -/
def ofHex? (cs : List Char) : Option Attributes :=
  let digits := match cs with | '+' :: rest => rest | rest => rest
  if digits.isEmpty then none
  else do
    let values ← digits.mapM hexValue?
    let value := values.foldl (fun acc d => 16 * acc + d) 0
    if value < Nat.pow 2 32 then some ⟨UInt32.ofNat value⟩ else none

/-- One piece: bits in hexadecimal, or a name. -/
def ofPiece? (piece : List Char) : Option Attributes :=
  match trimmed piece with
  | '0' :: 'x' :: digits => ofHex? digits
  | name => ofName? (String.ofList name)

/-- Reads names and hexadecimal numbers separated by bars; a blank text is the empty set. -/
def ofText? (text : String) : Option Attributes :=
  let cs := trimmed text.toList
  if cs.isEmpty then some empty
  else ((pieces cs).mapM ofPiece?).map fun sets => sets.foldl union empty

@[simp] theorem isFlat_empty : empty.isFlat = false := by decide

@[simp] theorem isOrderless_empty : empty.isOrderless = false := by decide

end Attributes

/-! ## Forms and settings -/

inductive Form where
  | inputForm
  | fullForm
  | outputForm
  | standardForm
  | traditionalForm
  | texForm
deriving DecidableEq

namespace Form

/-- The head that asks for a form. -/
def name : Form → String
  | .inputForm => "InputForm"
  | .fullForm => "FullForm"
  | .outputForm => "OutputForm"
  | .standardForm => "StandardForm"
  | .traditionalForm => "TraditionalForm"
  | .texForm => "TeXForm"

def all : List Form :=
  [.inputForm, .fullForm, .outputForm, .standardForm, .traditionalForm, .texForm]

/-- The form that a head asks for. -/
def ofName? (name : String) : Option Form := all.find? fun f => f.name == name

theorem ofName?_name (f : Form) : ofName? f.name = some f := by cases f <;> decide

end Form

/-- How and where a term is written: its form, and the operator around it, if any. -/
structure Setting where
  form : Form := .inputForm
  outer : Option String := none
deriving DecidableEq

namespace Setting

/-- The setting for the operands of an operator. -/
def inside (s : Setting) (head : String) : Setting := { s with outer := some head }

/-- The setting for a term that stands alone. -/
def alone (s : Setting) : Setting := { s with outer := none }

end Setting

/-! ## Renderers -/

/-- How the applications of a head are written. From the setting, the head and the arguments of an
application, and the texts of its arguments in whatever setting they are asked for, a renderer makes
the text of the application, or declines. -/
abbrev Renderer := Setting → String → List Term → (Setting → List String) → Option String

/-! ## Tables -/

/-- What is known about the symbols. -/
structure SymbolTable where
  attributes : String → Attributes
  renderer : String → Option Renderer

namespace SymbolTable

/-- No attributes and no renderers. -/
def empty : SymbolTable := ⟨fun _ => .empty, fun _ => none⟩

def isFlat (table : SymbolTable) (name : String) : Bool := (table.attributes name).isFlat

def isOrderless (table : SymbolTable) (name : String) : Bool := (table.attributes name).isOrderless

/-- Only attributes; a symbol that is not listed has none. -/
def ofAttributes (entries : List (String × Attributes)) : SymbolTable :=
  ⟨fun name => (entries.lookup name).getD .empty, fun _ => none⟩

end SymbolTable

end TermRewriting
