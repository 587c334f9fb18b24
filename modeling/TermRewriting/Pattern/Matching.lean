import TermRewriting.Pattern
import TermRewriting.Pattern.Search
import TermRewriting.Truth

/-!
# Matching

A pattern is turned into a matcher, a search for bindings that extend given ones. Compound patterns
compare argument lists in one of four ways, by the attributes of the symbol at the pattern's head:

* in order, runs taking the fewest arguments first (`matchInOrder`),
* orderless: single arguments are picked in every order, the others are left to the runs
  (`matchOrderless`),
* orderless and flat, with more arguments than patterns: one pattern takes the rest as a group
  (`matchAbsorbing`),
* flat: every pattern takes a group of neighbours (`matchGroups`).

Nothing is bound by a search that fails: bindings are values and only a result carries new ones.

## Termination

The argument matchers consume their slots, the patterns are consumed by `Pattern.matcher`.
-/

namespace TermRewriting

/-! ## Matchers -/

/-- A search for bindings that extend the given ones. -/
abbrev Matcher := Term → Bindings → Search Bindings

/-- What decides tests and conditions. Without an oracle the known tests decide, and the truth of
the condition with its names replaced. -/
structure Oracle where
  test : Option (Term → Term → Bool) := none
  condition : Option (Term → Bindings → Bool) := none

/-- What a match depends on besides pattern and term. -/
structure MatchContext where
  table : SymbolTable
  oracle : Oracle := {}

/-- Goes on if the term passes the test. -/
def MatchContext.checkTest (c : MatchContext) (predicate subject : Term) (b : Bindings) :
    Search Bindings :=
  match c.oracle.test with
  | some answer => ⟨if answer predicate subject then some b else none, [.test predicate subject]⟩
  | none =>
    .require ((predicate.symbolName?.bind fun name => builtinTest? name subject) == some true) b

/-- Goes on if the condition holds of the bindings. -/
def MatchContext.checkCondition (c : MatchContext) (proviso : Term) (b : Bindings) :
    Search Bindings :=
  match c.oracle.condition with
  | some answer => ⟨if answer proviso b then some b else none, [.condition proviso b]⟩
  | none => .require ((proviso.instantiate b).truth c.table == some true) b

/-- Whether a term has a type: a symbol is the name of the head, another type is the head itself. -/
def Term.hasType (type t : Term) : Bool :=
  match type with
  | .symbol name => t.headName? == some name
  | _ => type.identical t.head

/-- Whether a term has the type that is asked for, if one is. -/
def Term.hasOptionalType (type : Option Term) (t : Term) : Bool :=
  match type with
  | some type => type.hasType t
  | none => true

/-- Binds the run, as an application of `Sequence`, if it is long enough and of one type. -/
def RunSpec.matchRun (spec : RunSpec) (items : List Term) (b : Bindings) : Search Bindings :=
  if spec.least ≤ items.length && items.all (Term.hasOptionalType spec.type) then
    match spec.name with
    | some name => .ofOption (b.bind? name (.call "Sequence" items))
    | none => .succeed b
  else .fail

/-! ## Argument lists -/

/-- How many arguments the slots take at least. -/
def leastArgs {α : Type} : List (Slot α) → Nat
  | [] => 0
  | .run spec :: rest => spec.least + leastArgs rest
  | .optional _ :: rest => leastArgs rest
  | .single _ :: rest => 1 + leastArgs rest

/-- The numbers from `low` to `high`. -/
def lengthsBetween (low high : Nat) : List Nat := List.range' low (high + 1 - low)

/-- Arguments in order. A run takes as few arguments as it can, an optional place takes one if it
can. -/
def matchInOrder : List (Slot Matcher) → List Term → Bindings → Search Bindings
  | [], items, b => .require items.isEmpty b
  | .run spec :: rest, items, b =>
    .firstOf (lengthsBetween spec.least (items.length - leastArgs rest)) fun k =>
      (spec.matchRun (items.take k) b).andThen (matchInOrder rest (items.drop k))
  | .optional one :: rest, items, b =>
    match items with
    | item :: others =>
      ((one item b).andThen (matchInOrder rest others)).orElse fun _ => matchInOrder rest items b
    | [] => matchInOrder rest [] b
  | .single one :: rest, items, b =>
    match items with
    | item :: others => (one item b).andThen (matchInOrder rest others)
    | [] => .fail

/-- Each matcher on its own item, the bindings passing from one to the next. -/
def matchEach : List Matcher → List Term → Bindings → Search Bindings
  | one :: rest, item :: others, b => (one item b).andThen (matchEach rest others)
  | _, _, b => .succeed b

/-- Several arguments of a flat head as one term; one argument stands for itself. -/
def grouped (head : Term) : List Term → Term
  | [item] => item
  | items => .apply head items

/-- More arguments than matchers under a flat and orderless head: one matcher takes a group, each
of the others one argument. Every matcher gets its turn to take the group. -/
def matchAbsorbing (head : Term) (singles : List Matcher) (items : List Term) (b : Bindings) :
    Search Bindings :=
  .firstOf (pickOne singles) fun p =>
    .firstSelection p.2.length items fun picked rest =>
      (matchEach p.2 picked b).andThen (p.1 (grouped head rest))

/-- Groups of neighbours under a flat head, shorter ones first; the last takes what is left. -/
def matchGroups (head : Term) : List Matcher → List Term → Bindings → Search Bindings
  | [], items, b => .require items.isEmpty b
  | [one], items, b => if items.isEmpty then .fail else one (grouped head items) b
  | one :: rest, items, b =>
    .firstOf (lengthsBetween 1 (items.length - rest.length)) fun k =>
      (one (grouped head (items.take k)) b).andThen (matchGroups head rest (items.drop k))

/-- The matchers of the places that take one argument. -/
def Slot.singles {α : Type} : List (Slot α) → List α
  | [] => []
  | .single one :: rest => one :: Slot.singles rest
  | _ :: rest => Slot.singles rest

/-- Whether a place takes a varying number of arguments. -/
def Slot.isVariadic {α : Type} : Slot α → Bool
  | .single _ => false
  | _ => true

/-- Arguments in any order: single places pick theirs, the runs and optional places take what is
left, in order. -/
def matchOrderless (head : Term) (flat : Bool) (slots : List (Slot Matcher)) (items : List Term)
    (b : Bindings) : Search Bindings :=
  let singles := Slot.singles slots
  let variadic := slots.filter Slot.isVariadic
  if items.length < singles.length then .fail
  else if variadic.isEmpty && singles.length < items.length then
    if flat then matchAbsorbing head singles items b else .fail
  else
    .firstSelection singles.length items fun picked rest =>
      (matchEach singles picked b).andThen (matchInOrder variadic rest)

/-- The arguments of a compound pattern against those of an application of `head`. -/
def matchArgs (attributes : Attributes) (head : Term) (slots : List (Slot Matcher))
    (items : List Term) (b : Bindings) : Search Bindings :=
  if attributes.isOrderless then matchOrderless head attributes.isFlat slots items b
  else if attributes.isFlat && !slots.any Slot.isVariadic then
    matchGroups head (Slot.singles slots) items b
  else matchInOrder slots items b

/-- A compound pattern: head first, then the arguments. Without runs, optional places and a flat
head the number of arguments is fixed. -/
def matchCompound (table : SymbolTable) (symbol : Option String) (head : Matcher)
    (slots : List (Slot Matcher)) : Matcher
  | .atom _, _ => .fail
  | .app h items _, b =>
    let attributes := (symbol.map table.attributes).getD .empty
    if !slots.any Slot.isVariadic && !attributes.isFlat && slots.length != items.length then .fail
    else (head h b).andThen (matchArgs attributes h slots items)

/-- The first of the matchers that succeeds. -/
def matchFirst (choices : List Matcher) : Matcher := fun t b => .firstOf choices fun one => one t b

/-! ## Patterns -/

mutual

/-- The matcher of a pattern. -/
def Pattern.matcher (c : MatchContext) : Pattern → Matcher
  | .literal a => fun t b => .require ((Term.atom a).identical t) b
  | .blank type => fun t b => .require (t.hasOptionalType type) b
  | .namedBlank name type => fun t b =>
    if t.hasOptionalType type then .ofOption (b.bind? name t) else .fail
  | .run spec => fun t b => spec.matchRun [t] b
  | .never => fun _ _ => .fail
  | .named name inner => fun t b =>
    (inner.matcher c t b).andThen fun b => .ofOption (b.bind? name t)
  | .condition inner proviso => fun t b =>
    (inner.matcher c t b).andThen (c.checkCondition proviso)
  | .test inner predicate => fun t b =>
    (inner.matcher c t b).andThen (c.checkTest predicate t)
  | .alternatives choices => matchFirst (Pattern.matchers c choices)
  | .compound symbol head slots =>
    matchCompound c.table symbol (head.matcher c) (Slot.matchers c slots)

def Pattern.matchers (c : MatchContext) : List Pattern → List Matcher
  | [] => []
  | p :: ps => p.matcher c :: Pattern.matchers c ps

def Slot.matchers (c : MatchContext) : List (Slot Pattern) → List (Slot Matcher)
  | [] => []
  | s :: ss => Slot.matcher c s :: Slot.matchers c ss

def Slot.matcher (c : MatchContext) : Slot Pattern → Slot Matcher
  | .run spec => .run spec
  | .optional one => .optional (one.matcher c)
  | .single one => .single (one.matcher c)

end

/-! ## Terms against terms -/

/-- The search for bindings, extending `b`, under which the pattern that `pattern` describes matches
the term. -/
def Term.searchMatch (c : MatchContext) (pattern t : Term) (b : Bindings) : Search Bindings :=
  (Pattern.ofTerm pattern).matcher c t b

/-- The bindings under which a pattern matches a term. -/
def Term.matches? (table : SymbolTable) (pattern t : Term) : Option Bindings :=
  (pattern.searchMatch ⟨table, {}⟩ t []).result

end TermRewriting
