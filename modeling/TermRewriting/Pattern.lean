import TermRewriting.Term.Identity

/-!
# Patterns

A pattern is read off a term. Some heads are pattern heads: they stand for a blank, a name, a run of
arguments, a condition and so on. Every other application is a compound pattern, which asks for an
application with a matching head and matching arguments, and an atom asks for itself.

Runs of arguments and optional arguments have a meaning only as arguments of a compound pattern,
where each argument is a `Slot`.
-/

namespace TermRewriting

/-! ## Pattern heads -/

/-- What a pattern head asks for. -/
inductive PatternHead where
  | blank
  | namedBlank
  | named
  | run (least : Nat)
  | namedRun (least : Nat)
  | condition
  | test
  | alternatives
  | optional
  | hold
deriving DecidableEq

/-- The pattern head of a name. -/
def PatternHead.ofName? : String → Option PatternHead
  | "Blank" => some .blank
  | "NamedBlank" => some .namedBlank
  | "Pattern" => some .named
  | "BlankSequence" => some (.run 1)
  | "BlankNullSequence" => some (.run 0)
  | "NamedBlankSequence" => some (.namedRun 1)
  | "NamedBlankNullSequence" => some (.namedRun 0)
  | "Condition" => some .condition
  | "PatternTest" => some .test
  | "Alternative" => some .alternatives
  | "Alternatives" => some .alternatives
  | "Optional" => some .optional
  | "HoldPattern" => some .hold
  | _ => none

/-- Whether a symbol is a pattern head. -/
def isPatternHead (name : String) : Bool := (PatternHead.ofName? name).isSome

/-! ## Patterns -/

/-- A run of arguments: how many it has at least, the name it is bound to, the type that each
element has. -/
structure RunSpec where
  least : Nat
  name : Option String
  type : Option Term

/-- What a compound pattern asks of its arguments at one place: a run of them, one or none, or
one. -/
inductive Slot (α : Type) where
  | run (spec : RunSpec)
  | optional (one : α)
  | single (one : α)

inductive Pattern where
  /-- The atom itself. -/
  | literal (value : Atom)
  /-- Any term of the type. -/
  | blank (type : Option Term)
  /-- Any term of the type, bound to the name. -/
  | namedBlank (name : String) (type : Option Term)
  /-- A single term as a run of one. -/
  | run (spec : RunSpec)
  /-- No term. -/
  | never
  /-- A term that matches, bound to the name. -/
  | named (name : String) (inner : Pattern)
  /-- A term that matches so that the condition holds of the bindings. -/
  | condition (inner : Pattern) (proviso : Term)
  /-- A term that matches and passes the test. -/
  | test (inner : Pattern) (predicate : Term)
  /-- A term that matches one of the alternatives, the first such being taken. -/
  | alternatives (choices : List Pattern)
  /-- An application. `symbol` is the head of the pattern if that is a symbol. -/
  | compound (symbol : Option String) (head : Pattern) (slots : List (Slot Pattern))

/-! ## Reading slots -/

/-- The run that a term describes without naming it. -/
def RunSpec.anonymous? : Term → Option RunSpec
  | .app (.symbol name) args _ =>
    match PatternHead.ofName? name with
    | some (.run least) => some ⟨least, none, args.head?⟩
    | _ => none
  | _ => none

/-- The named run with these arguments: its name, which is a symbol, and its type. -/
def RunSpec.ofNamedArgs? (least : Nat) (args : List Term) : Option RunSpec :=
  (args.head?.bind Term.symbolName?).map fun name => ⟨least, some name, args[1]?⟩

/-- The run that a term describes as an argument of a compound pattern. -/
def RunSpec.ofTerm? : Term → Option RunSpec
  | .app (.symbol name) args _ =>
    match PatternHead.ofName? name, args with
    | some (.run least), _ => some ⟨least, none, args.head?⟩
    | some (.namedRun least), _ => ofNamedArgs? least args
    | some .named, [.symbol x, inner] => (anonymous? inner).map fun spec => { spec with name := some x }
    | _, _ => none
  | _ => none

namespace Term

/-- Whether the term stands for an optional argument. -/
def isOptional (t : Term) : Bool :=
  match t.callArgs? "Optional" with
  | some (_ :: _) => true
  | _ => false

/-- Whether the term stands for a varying number of arguments. -/
def isVariadic (t : Term) : Bool := (RunSpec.ofTerm? t).isSome || t.isOptional

end Term

/-- The slot that an argument stands for, given the pattern that it is on its own. -/
def Slot.ofTerm (t : Term) (pattern : Pattern) : Slot Pattern :=
  match RunSpec.ofTerm? t with
  | some spec => .run spec
  | none => if t.isOptional then .optional pattern else .single pattern

/-! ## Reading patterns -/

namespace Pattern

/-- The pattern that an application of a pattern head is, given its arguments as terms and as
patterns, if the head has as many arguments as it asks for. -/
def ofPatternHead? (args : List Term) (patterns : List Pattern) : PatternHead → Option Pattern
  | .blank => some (.blank args.head?)
  | .namedBlank =>
    match args.head?.bind Term.symbolName? with
    | some name => some (.namedBlank name args[1]?)
    | none => some .never
  | .run least => some (.run ⟨least, none, args.head?⟩)
  | .namedRun least =>
    match RunSpec.ofNamedArgs? least args with
    | some spec => some (.run spec)
    | none => some .never
  | .named =>
    match args, patterns with
    | [.symbol name, _], [_, inner] => some (.named name inner)
    | [_, _], _ => some .never
    | _, _ => none
  | .condition =>
    match args, patterns with
    | [_, proviso], [inner, _] => some (.condition inner proviso)
    | _, _ => none
  | .test =>
    match args, patterns with
    | [_, predicate], [inner, _] => some (.test inner predicate)
    | _, _ => none
  | .alternatives => some (.alternatives patterns)
  | .optional => patterns.head?
  | .hold => patterns.head?

/-- The pattern that an application is, given its head and arguments as terms and as patterns. -/
def ofParts (head : Term) (headPattern : Pattern) (args : List Term) (patterns : List Pattern) :
    Pattern :=
  let special := (head.symbolName?.bind PatternHead.ofName?).bind (ofPatternHead? args patterns)
  special.getD (.compound head.symbolName? headPattern (List.zipWith Slot.ofTerm args patterns))

mutual

/-- The pattern that a term describes. -/
def ofTerm : Term → Pattern
  | .atom a => .literal a
  | .app head args _ => ofParts head (ofTerm head) args (ofTerms args)

def ofTerms : List Term → List Pattern
  | [] => []
  | t :: ts => ofTerm t :: ofTerms ts

end

theorem ofTerms_eq_map (ts : List Term) : ofTerms ts = ts.map ofTerm := by
  induction ts with
  | nil => rfl
  | cons t ts ih => simp [ofTerms, ih]

end Pattern

/-! ## Literal terms and cores -/

namespace Term

mutual

/-- Whether no node of the term has a pattern head. -/
def isPatternFree : Term → Bool
  | .atom _ => true
  | .app head args _ =>
    !head.symbolName?.any isPatternHead && (head.isPatternFree && allPatternFree args)

def allPatternFree : List Term → Bool
  | [] => true
  | a :: as => a.isPatternFree && allPatternFree as

end

/-- The term inside `HoldPattern[p]` and `Condition[p, c]`, to any depth. -/
def core : Term → Term
  | .app (.symbol "HoldPattern") [p] _ => p.core
  | .app (.symbol "Condition") [p, _] _ => p.core
  | t => t

end Term

end TermRewriting
