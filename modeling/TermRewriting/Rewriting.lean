import TermRewriting.Canonical
import TermRewriting.RuleIndex
import TermRewriting.Session

/-!
# Rewriting

A pass goes through a term from the bottom up: every node is put into canonical form and then the
first definition that matches is applied to it. Passes are repeated until one changes nothing. What
a pass did to canonical form costs nothing, every application of a definition is paid from a budget.

## Termination

A pass follows the term. Between two passes that pay there are at most as many as the weight of the
term allows: dissolving an argument removes a node, and handing a condition upwards takes it out of
a node around it, which weighs more than the nodes it adds (`Term.weight`). A pass that only sorts
is followed by one that changes nothing. So `settle` counts paying passes by the limit and free ones
by the weight.
-/

namespace TermRewriting

/-! ## Budget -/

/-- How many applications are allowed, if they are limited, how many were paid, and whether one
could not be paid. -/
structure Budget where
  limit : Option Nat
  used : Nat := 0
  exhausted : Bool := false
deriving DecidableEq

/-- The budget after an application, and whether it could be paid. -/
def Budget.charged (b : Budget) : Budget × Bool :=
  if b.limit.any (· ≤ b.used) then ({ b with exhausted := true }, false)
  else ({ b with used := b.used + 1 }, true)

/-- Traced computation on a budget. -/
abbrev Rewriter := StateT Budget Traced

namespace Rewriter

/-- Pays one application, if it can be paid. -/
def charge : Rewriter Bool := fun b => pure (b.charged.2, b.charged.1)

/-- Records one event. -/
def note (e : Event) : Rewriter Unit := fun b => do
  Traced.note e
  pure ((), b)

/-- A computation that costs nothing. -/
def free {α : Type} (x : Traced α) : Rewriter α := fun b => do
  let a ← x
  pure (a, b)

end Rewriter

/-! ## Programs -/

/-- The definitions of a session, indexed for use. -/
structure Program where
  table : SymbolTable
  generation : UInt64
  rules : List (DefinitionKey × (RuleSet × RuleIndex))

/-- The program of a session. -/
def Session.program (s : Session) : Program :=
  let indexed := s.definitions.entries.map fun e => (e.1, e.2, RuleIndex.ofRules s.table e.2)
  ⟨s.table, s.generation, indexed.filter fun e => !e.2.1.isEmpty⟩

/-- The name under which an argument has definitions for the node around it. -/
def Term.upName? : Term → Option String
  | .symbol name => some name
  | .app head _ _ => head.symbolName?
  | _ => none

/-- Where the definitions are kept that may apply to a term, in the order in which they are asked:
at its arguments, then at its head. -/
def Term.definitionKeys : Term → List DefinitionKey
  | .symbol name => [(.own, name)]
  | .app head args _ =>
    args.filterMap (fun a => a.upName?.map (ValueKind.up, ·)) ++
      match head with
      | .symbol name => [(.down, name)]
      | .app inner _ _ => (inner.symbolName?.map (ValueKind.sub, ·)).toList
      | _ => []
  | _ => []

namespace Program

/-- The definitions that may apply to a term. -/
def definitionsFor (p : Program) (t : Term) : List (DefinitionKey × (RuleSet × RuleIndex)) :=
  t.definitionKeys.filterMap fun key => (p.rules.lookup key).map (key, ·)

/-- Applies the first of the candidates that matches, if it can be paid. -/
def applyCandidates (p : Program) (key : DefinitionKey) (rules : RuleSet) (t : Term) :
    List Nat → Rewriter (Option Term)
  | [] => pure none
  | i :: candidates =>
    match rules[i]? with
    | none => applyCandidates p key rules t candidates
    | some rule => do
      match ← Rewriter.free (rule.lhs.tryMatch p.table t) with
      | none => applyCandidates p key rules t candidates
      | some b =>
        if ← Rewriter.charge then
          Rewriter.note (.rewrote key.1 key.2 t)
          pure (some (rule.rhs.instantiate b))
        else pure none

/-- Applies the first definition that applies. -/
def applyFirst (p : Program) (t : Term) :
    List (DefinitionKey × (RuleSet × RuleIndex)) → Rewriter (Option Term)
  | [] => pure none
  | (key, rules, index) :: rest => do
    match ← p.applyCandidates key rules t (index.candidates t) with
    | some result => pure (some result)
    | none => p.applyFirst t rest

/-- Applies a definition to the term as a whole, and answers what the term is once its definitions
were looked up: an index asks for its fingerprint. -/
def applyTop (p : Program) (t : Term) : Rewriter (Option Term × Term) :=
  match p.definitionsFor t with
  | [] => pure (none, t)
  | definitions => do
    let t := t.memoized
    let result ← p.applyFirst t definitions
    pure (result, t)

/-- What becomes of a node after its parts: it is put into canonical form and a definition is
applied. `changed` tells whether a part did change. -/
def finishNode (p : Program) (head : Term) (args : List Term) (marks : Marks) (changed : Bool) :
    Rewriter (Option Term) := do
  let (node, moved) := Term.canonicalNode p.table head args marks
  match ← p.applyTop node with
  | (some result, _) => pure (some result)
  | (none, node) => pure (if changed || moved then some node else none)

mutual

/-- One pass from the bottom up; `none` if nothing changes. Nodes that are marked as normal are
left alone. -/
def pass (p : Program) : Term → Rewriter (Option Term)
  | .atom a => do
    let (result, _) ← p.applyTop (.atom a)
    pure result
  | .app head args marks =>
    if (Term.app head args marks).isNormalUnder p.generation then pure none
    else do
      let newHead ← p.pass head
      let newArgs ← p.passAll args
      match newHead, newArgs with
      | none, none => p.finishNode head args marks false
      | _, _ => p.finishNode (keepOr head newHead) (keepOr args newArgs) .fresh true

def passAll (p : Program) : List Term → Rewriter (Option (List Term))
  | [] => pure none
  | a :: as => do
    let new ← p.pass a
    let rest ← p.passAll as
    pure (relisted? a as Term.unchangedArg new rest)

end

end Program

/-! ## Weight -/

mutual

/-- The weight of a term inside `around` nodes that hand conditions upwards: one for every node, and
for every conditional expression twice the number of nodes that hand its condition upwards. -/
def Term.weight (around : Nat) : Term → Nat
  | .atom _ => 0
  | .app head args _ =>
    if head.symbolName? = some "ConditionalExpression" then
      1 + 2 * around + (head.weight around + Term.weightAll around args)
    else 1 + (head.weight (around + 1) + Term.weightAll (around + 1) args)

def Term.weightAll (around : Nat) : List Term → Nat
  | [] => 0
  | a :: as => a.weight around + Term.weightAll around as

end

/-! ## Repeated passes -/

namespace Program

/-- What a run of passes came to. -/
abbrev Outcome := Except Failure Term

/-- The failure of a program that does not settle within its budget. -/
def overLimit (limit : Nat) : Outcome := .error (.iterationLimit limit)

/-- One pass, and how to go on: with `free` after a change that cost nothing, with `paid` after one
that was paid. A pass that changes nothing ends the run, as does an exhausted budget. A term that
was asked throughout before is not copied for it. -/
def passThen (p : Program) (limit : Nat) (free paid : Term → Rewriter Outcome) (t : Term) :
    Rewriter Outcome := do
  let t := if t.isAsked then t else t.askedThroughout
  let before ← get
  let new ← p.pass t
  let after ← get
  match new with
  | none => pure (if after.exhausted then overLimit limit else .ok t)
  | some new =>
    if after.exhausted then
      Rewriter.note (.exhausted limit new)
      pure (overLimit limit)
    else if before.used = after.used then free new
    else paid new

/-- Passes of which at most `count` cost nothing, before one that was paid. -/
def freePasses (p : Program) (limit : Nat) (paid : Term → Rewriter Outcome) :
    Nat → Term → Rewriter Outcome
  | 0, _ => pure (overLimit limit)
  | count + 1, t => p.passThen limit (p.freePasses limit paid count) paid t

/-- Passes until one changes nothing, of which at most `rounds` are paid. -/
def settle (p : Program) (limit : Nat) : Nat → Term → Rewriter Outcome
  | 0, t => p.freePasses limit (fun _ => pure (overLimit limit)) (t.weight 0 + 2) t
  | rounds + 1, t =>
    let paid := p.settle limit rounds
    p.passThen limit (fun new => p.freePasses limit paid (new.weight 0 + 2) new) paid t

/-- The result of a run, marked as normal. -/
def finishRun (p : Program) : Outcome × Budget → Traced Outcome
  | (.ok t, budget) => do
    .note (.settled budget.used t)
    pure (.ok (t.markNormal p.generation))
  | (.error e, _) => pure (.error e)

end Program

namespace Session

/-- One pass, without a limit. -/
def rewriteOnce (s : Session) (t : Term) : Traced Term := do
  let t := t.askedThroughout
  let (new, _) ← (s.program.pass t).run ⟨none, 0, false⟩
  pure (keepOr t new)

/-- Rewrites until nothing changes, with at most `limit` applications of definitions. The result is
marked as normal under the generation of the session. -/
def rewrite (s : Session) (limit : Nat) (t : Term) : Traced (Except Failure Term) := do
  let run ← (s.program.settle limit limit t).run ⟨some limit, 0, false⟩
  s.program.finishRun run

/-- The limit that is usually wanted. -/
def usualLimit : Nat := 4096

def rewriteAll (s : Session) (t : Term) : Traced (Except Failure Term) := s.rewrite usualLimit t

end Session

/-! ## Rewriting with a list of rules -/

/-- Rounds of replacement, each followed by canonical form, until nothing is replaced; at most
`rounds` of them. -/
def replaceRounds (table : SymbolTable) (rules : List Rule) (limit : Nat) :
    Nat → Term → Traced (Except Failure Term)
  | 0, t => do
    match ← t.replaced? table rules with
    | none => pure (.ok t)
    | some _ => pure (.error (.iterationLimit limit))
  | rounds + 1, t => do
    match ← t.replaced? table rules with
    | none => pure (.ok t)
    | some new => replaceRounds table rules limit rounds (new.canonical table)

/-- Rewrites with a list of rules until nothing changes, in at most `limit` rounds. -/
def Session.rewriteRules (s : Session) (rules : List Rule) (limit : Nat) (t : Term) :
    Traced (Except Failure Term) :=
  replaceRounds s.table rules limit limit (t.canonical s.table)

end TermRewriting
