import TermRewriting.Binary64.Decimal
import TermRewriting.Symbols
import TermRewriting.Term

/-!
# Rendering

The text of a term in a form. A head may have a renderer, which writes its applications with
operators or brackets of its own; all other applications are written `head[arg, …]`. `FullForm` uses
no renderer, `OutputForm` writes strings without quotes. An application of a form's name to one
argument is that argument, written in that form.
-/

namespace TermRewriting

/-! ## Layouts -/

/-- How tightly an operator binds. -/
def precedence? : String → Option Nat
  | "Rule" => some 10
  | "RuleDelayed" => some 10
  | "Plus" => some 30
  | "Times" => some 40
  | "Power" => some 50
  | _ => none

/-- Whether an operator inside another one needs parentheses: when the outer one binds at least as
tightly. -/
def needsParentheses (outer : Option String) (head : String) : Bool :=
  match outer.bind precedence?, precedence? head with
  | some o, some p => p ≤ o
  | _, _ => false

namespace Renderer

/-- Between the arguments stands `separator`; `binary` operators take exactly two, others two or
more. Inside an operator that binds at least as tightly the text is put in parentheses. -/
def operator (separator : String) (binary : Bool) : Renderer := fun s head args texts =>
  if args.length < 2 || (binary && args.length != 2) then none
  else
    let body := separator.intercalate (texts (s.inside head))
    some (if needsParentheses s.outer head then "(" ++ body ++ ")" else body)

/-- The arguments stand in braces, each as if alone. -/
def braces : Renderer := fun s _ _ texts =>
  some ("\x7b" ++ ", ".intercalate (texts s.alone) ++ "\x7d")

end Renderer

/-- The renderers of the arithmetic and rule operators and of lists. -/
def standardRenderers : List (String × Renderer) :=
  [("Plus", .operator " + " false), ("Times", .operator "*" false), ("Power", .operator "^" true),
    ("Rule", .operator " -> " true), ("RuleDelayed", .operator " :> " true), ("List", .braces)]

/-! ## Texts of terms -/

/-- One character of a quoted string: quotes and backslashes get a backslash in front. -/
def quotedChar (c : Char) : List Char :=
  if c = '\\' ∨ c = '"' then ['\\', c] else [c]

/-- A string in quotes. -/
def quoted (text : String) : String :=
  "\"" ++ String.ofList (text.toList.flatMap quotedChar) ++ "\""

def Atom.render (s : Setting) : Atom → String
  | .symbol name => name
  | .integer value => toString value.toInt
  | .real value => value.renderedText
  | .string text => if s.form = .outputForm then text else quoted text

/-- The text of `head[arg, …]`. -/
def bracketed (head : String) (args : List String) : String :=
  head ++ "[" ++ ", ".intercalate args ++ "]"

/-- The text of an application of a symbol by its renderer, where the form and the renderer allow
it. -/
def SymbolTable.layout? (table : SymbolTable) (s : Setting) (head : String) (args : List Term)
    (texts : Setting → List String) : Option String :=
  if s.form = .fullForm then none
  else (table.renderer head).bind fun renderer => renderer s head args texts

/-- The text of the only argument in the form that the head asks for. -/
def formLayout? (head : String) (count : Nat) (texts : Setting → List String) : Option String :=
  if count = 1 then
    (Form.ofName? head).map fun form => String.join (texts ⟨form, none⟩)
  else none

/-- The text of an application of a symbol that is not written with brackets. -/
def specialLayout? (table : SymbolTable) (s : Setting) (head : Option String) (args : List Term)
    (texts : Setting → List String) : Option String :=
  match head with
  | none => none
  | some name =>
    match table.layout? s name args texts with
    | some text => some text
    | none => formLayout? name args.length texts

mutual

/-- The text of a term. The head of a bracketed application is written in the same setting, the
arguments as if alone. -/
def Term.render (table : SymbolTable) (s : Setting) : Term → String
  | .atom a => a.render s
  | .app head args _ =>
    match specialLayout? table s head.symbolName? args
        (fun s => Term.renderAll table s args) with
    | some text => text
    | none => bracketed (head.render table s) (Term.renderAll table s.alone args)

def Term.renderAll (table : SymbolTable) (s : Setting) : List Term → List String
  | [] => []
  | a :: as => a.render table s :: Term.renderAll table s as

end

/-- The text of a term in full form. -/
def Term.display (t : Term) : String := t.render .empty ⟨.fullForm, none⟩

end TermRewriting
