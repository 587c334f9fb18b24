import TermRewriting.Pattern.Matching

/-!
# Matching in place

A matcher may as well be handed bindings to write into, and answer whether the term matches. What it
has written by then stays written. So it writes at once only where it cannot fail any more
(`Attempt.bindIn`); what may fail after a part of it has succeeded works on a copy, which replaces
the bindings only if all of it succeeds (`Attempt.onCopy`). Parts that run on a copy of somebody
else, like `assignEach`, need no copy of their own.

Tests and conditions are asked of hooks. A hook may remember what it was asked, so its answers may
depend on what was asked before.
-/

namespace TermRewriting

/-! ## Attempts -/

/-- What decides tests and conditions, with a memory `ω`. Without a hook the known tests decide, and
the truth of the condition with its names replaced. -/
structure Hooks (ω : Type) where
  test : Option (Term → Term → ω → Bool × ω) := none
  condition : Option (Term → Bindings → ω → Bool × ω) := none

/-- Computations that write into bindings. -/
abbrev Attempt (ω : Type) := StateM (Bindings × ω)

/-- A matcher that writes into bindings, and answers whether the term matches. -/
abbrev Trial (ω : Type) := Term → Attempt ω Bool

variable {α ω : Type}

namespace Attempt

/-- Binds a name. A name that is bound already accepts only an identical term. -/
def bindIn (name : String) (value : Term) : Attempt ω Bool := do
  let (b, memory) ← get
  match b.get? name with
  | some bound => pure (bound.identical value)
  | none => do
    set (b ++ [(name, value)], memory)
    pure true

/-- Goes on only after a success. -/
def andThen (first second : Attempt ω Bool) : Attempt ω Bool := do
  if ← first then second else pure false

/-- Goes on elsewhere after a failure. -/
def orElse (first second : Attempt ω Bool) : Attempt ω Bool := do
  if ← first then pure true else second

/-- Works on a copy, which replaces the bindings on success. -/
def onCopy (attempt : Attempt ω Bool) : Attempt ω Bool := do
  let (b, memory) ← get
  let (ok, (copy, memory)) := attempt.run (b, memory)
  set (if ok then copy else b, memory)
  pure ok

/-- One choice after another until one succeeds. -/
def anyOf (choices : List α) (attempt : α → Attempt ω Bool) : Attempt ω Bool :=
  match choices with
  | [] => pure false
  | a :: as => (attempt a).orElse (anyOf as attempt)

end Attempt

open Attempt

/-- Asks whether the term passes the test. -/
def Hooks.checkTest (hooks : Hooks ω) (predicate subject : Term) : Attempt ω Bool :=
  match hooks.test with
  | some ask => do
    let (b, memory) ← get
    let (ok, memory) := ask predicate subject memory
    set (b, memory)
    pure ok
  | none => pure ((predicate.symbolName?.bind fun name => builtinTest? name subject) == some true)

/-- Asks whether the condition holds of the bindings. -/
def Hooks.checkCondition (table : SymbolTable) (hooks : Hooks ω) (proviso : Term) :
    Attempt ω Bool := do
  let (b, memory) ← get
  match hooks.condition with
  | some ask => do
    let (ok, memory) := ask proviso b memory
    set (b, memory)
    pure ok
  | none => pure ((proviso.instantiate b).truth table == some true)

/-! ## Argument lists -/

/-- Takes the run, if it is long enough and of one type, and binds its name. -/
def RunSpec.takeRun (spec : RunSpec) (items : List Term) : Attempt ω Bool :=
  if spec.least ≤ items.length && items.all (Term.hasOptionalType spec.type) then
    match spec.name with
    | some name => bindIn name (.call "Sequence" items)
    | none => pure true
  else pure false

/-- Arguments in order. -/
def tryInOrder : List (Slot (Trial ω)) → List Term → Attempt ω Bool
  | [], items => pure items.isEmpty
  | .run spec :: rest, items =>
    anyOf (lengthsBetween spec.least (items.length - leastArgs rest)) fun k =>
      onCopy ((spec.takeRun (items.take k)).andThen (tryInOrder rest (items.drop k)))
  | .optional one :: rest, items =>
    match items with
    | item :: others =>
      (onCopy ((one item).andThen (tryInOrder rest others))).orElse (tryInOrder rest items)
    | [] => tryInOrder rest []
  | .single one :: rest, items =>
    match items with
    | item :: others => onCopy ((one item).andThen (tryInOrder rest others))
    | [] => pure false

/-- Each trial on its own item. What is written before one fails stays. -/
def assignEach : List (Trial ω) → List Term → Attempt ω Bool
  | one :: rest, item :: others => (one item).andThen (assignEach rest others)
  | _, _ => pure true

/-- More arguments than trials under a flat and orderless head. -/
def tryAbsorbing (head : Term) (singles : List (Trial ω)) (items : List Term) : Attempt ω Bool :=
  anyOf (pickOne singles) fun p =>
    anyOf (selections p.2.length items) fun s =>
      onCopy ((assignEach p.2 s.1).andThen (p.1 (grouped head s.2)))

/-- Groups of neighbours under a flat head. -/
def tryGroups (head : Term) : List (Trial ω) → List Term → Attempt ω Bool
  | [], items => pure items.isEmpty
  | one :: rest, items =>
    if items.length < rest.length + 1 then pure false
    else
      let most := items.length - rest.length
      anyOf (lengthsBetween (if rest.isEmpty then most else 1) most) fun k =>
        onCopy ((one (grouped head (items.take k))).andThen (tryGroups head rest (items.drop k)))

/-- Arguments in any order. -/
def tryOrderless (head : Term) (flat : Bool) (slots : List (Slot (Trial ω))) (items : List Term) :
    Attempt ω Bool :=
  let singles := Slot.singles slots
  let variadic := slots.filter Slot.isVariadic
  if items.length < singles.length then pure false
  else if variadic.isEmpty && singles.length < items.length then
    if flat then tryAbsorbing head singles items else pure false
  else
    anyOf (selections singles.length items) fun s =>
      onCopy ((assignEach singles s.1).andThen (tryInOrder variadic s.2))

/-- The arguments of a compound pattern against those of an application of `head`. -/
def tryArgs (attributes : Attributes) (head : Term) (slots : List (Slot (Trial ω)))
    (items : List Term) : Attempt ω Bool :=
  if attributes.isOrderless then tryOrderless head attributes.isFlat slots items
  else if attributes.isFlat && !slots.any Slot.isVariadic then
    tryGroups head (Slot.singles slots) items
  else tryInOrder slots items

/-- A compound pattern: head first, then the arguments. -/
def tryCompound (table : SymbolTable) (symbol : Option String) (head : Trial ω)
    (slots : List (Slot (Trial ω))) : Trial ω
  | .atom _ => pure false
  | .app h items _ =>
    let attributes := (symbol.map table.attributes).getD .empty
    if !slots.any Slot.isVariadic && !attributes.isFlat && slots.length != items.length then
      pure false
    else onCopy ((head h).andThen (tryArgs attributes h slots items))

/-! ## Patterns -/

mutual

/-- The trial of a pattern. -/
def Pattern.trial (table : SymbolTable) (hooks : Hooks ω) : Pattern → Trial ω
  | .literal a => fun t => pure ((Term.atom a).identical t)
  | .blank type => fun t => pure (t.hasOptionalType type)
  | .namedBlank name type => fun t => if t.hasOptionalType type then bindIn name t else pure false
  | .run spec => fun t => spec.takeRun [t]
  | .never => fun _ => pure false
  | .named name inner => fun t =>
    onCopy ((inner.trial table hooks t).andThen (bindIn name t))
  | .condition inner proviso => fun t =>
    onCopy ((inner.trial table hooks t).andThen (hooks.checkCondition table proviso))
  | .test inner predicate => fun t =>
    onCopy ((inner.trial table hooks t).andThen (hooks.checkTest predicate t))
  | .alternatives choices => fun t =>
    anyOf (Pattern.trials table hooks choices) fun one => onCopy (one t)
  | .compound symbol head slots =>
    tryCompound table symbol (head.trial table hooks) (Slot.trials table hooks slots)

def Pattern.trials (table : SymbolTable) (hooks : Hooks ω) : List Pattern → List (Trial ω)
  | [] => []
  | p :: ps => p.trial table hooks :: Pattern.trials table hooks ps

def Slot.trials (table : SymbolTable) (hooks : Hooks ω) :
    List (Slot Pattern) → List (Slot (Trial ω))
  | [] => []
  | s :: ss => Slot.trial table hooks s :: Slot.trials table hooks ss

def Slot.trial (table : SymbolTable) (hooks : Hooks ω) : Slot Pattern → Slot (Trial ω)
  | .run spec => .run spec
  | .optional one => .optional (one.trial table hooks)
  | .single one => .single (one.trial table hooks)

end

/-- Matches a term in place: what is bound under the match is written into the bindings. -/
def Term.matchInto (table : SymbolTable) (hooks : Hooks ω) (pattern t : Term) : Attempt ω Bool :=
  (Pattern.ofTerm pattern).trial table hooks t

/-- The hooks of an oracle, which remember what they were asked. -/
def Oracle.hooks (o : Oracle) : Hooks (List Question) where
  test := o.test.map fun answer predicate subject asked =>
    (answer predicate subject, asked ++ [.test predicate subject])
  condition := o.condition.map fun answer proviso b asked =>
    (answer proviso b, asked ++ [.condition proviso b])

end TermRewriting
