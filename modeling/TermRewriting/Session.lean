import TermRewriting.Failure
import TermRewriting.Rule
import TermRewriting.Pattern
import TermRewriting.Trace

/-!
# Sessions

A session holds the definitions, attributes and renderers that are in force. Its generation counts
the changes to definitions and attributes, so that what was normal before a change is not taken for
normal after it.
-/

namespace TermRewriting

/-! ## Tables of entries -/

/-- Puts a value in the place of the one with the same key, or at the end. -/
def putEntry {κ ν : Type} [DecidableEq κ] (key : κ) (value : ν) : List (κ × ν) → List (κ × ν)
  | [] => [(key, value)]
  | e :: rest => if e.1 = key then (key, value) :: rest else e :: putEntry key value rest

theorem lookup_putEntry {κ ν : Type} [DecidableEq κ] [BEq κ] [LawfulBEq κ] (key other : κ)
    (value : ν) (entries : List (κ × ν)) :
    (putEntry key value entries).lookup other
      = if other = key then some value else entries.lookup other := by
  have beq_false : ∀ {a b : κ}, a ≠ b → (a == b) = false := fun h => by simp [h]
  induction entries with
  | nil =>
    by_cases h : other = key
    · simp [putEntry, h]
    · simp [putEntry, List.lookup_cons, h, beq_false h]
  | cons e rest ih =>
    obtain ⟨k, v⟩ := e
    unfold putEntry
    by_cases hk : k = key
    · subst hk
      by_cases h : other = k
      · simp [h]
      · simp [List.lookup_cons, h, beq_false h]
    · by_cases ho : other = k
      · subst ho
        simp [hk]
      · simp [hk, List.lookup_cons, beq_false ho, ih]

/-- What is found under a key is there with this key. -/
theorem mem_of_lookup_eq_some {κ ν : Type} [BEq κ] [LawfulBEq κ] {key : κ} {value : ν}
    {entries : List (κ × ν)} (h : entries.lookup key = some value) : (key, value) ∈ entries := by
  obtain ⟨before, after, rfl, _⟩ := List.lookup_eq_some_iff.mp h
  exact List.mem_append_right before List.mem_cons_self

/-! ## Definitions -/

/-- Where a rule set is kept. -/
abbrev DefinitionKey := ValueKind × String

structure Definitions where
  entries : List (DefinitionKey × RuleSet) := []

namespace Definitions

/-- The rules at a key, in the order in which they are tried; an empty set counts as none. -/
def rules? (kind : ValueKind) (symbol : String) (d : Definitions) : Option RuleSet :=
  match d.entries.lookup (kind, symbol) with
  | none => none
  | some [] => none
  | some rules => some rules

/-- The rule set at a key, whether or not there are rules in it. -/
def ruleSet (kind : ValueKind) (symbol : String) (d : Definitions) : RuleSet :=
  (d.entries.lookup (kind, symbol)).getD []

/-- Changes the rule set at a key. -/
def modify (kind : ValueKind) (symbol : String) (change : RuleSet → RuleSet) (d : Definitions) :
    Definitions :=
  ⟨putEntry (kind, symbol) (change (d.ruleSet kind symbol)) d.entries⟩

/-- Drops all rules at a symbol. -/
def clear (symbol : String) (d : Definitions) : Definitions :=
  ⟨d.entries.filter fun e => e.1.2 != symbol⟩

def isDefined (symbol : String) (d : Definitions) : Bool :=
  ValueKind.all.any fun kind => (d.rules? kind symbol).isSome

end Definitions

/-- The key at which a rule is kept: what its left-hand side is about is a symbol, an application of
a symbol, or an application of an application of a symbol. -/
def Term.definitionKey? (lhs : Term) : Option DefinitionKey :=
  match lhs.core with
  | .symbol name => some (.own, name)
  | .app (.symbol name) _ _ => if isPatternHead name then none else some (.down, name)
  | .app (.app (.symbol name) _ _) _ _ => if isPatternHead name then none else some (.sub, name)
  | _ => none

/-! ## Sessions -/

structure Session where
  definitions : Definitions := {}
  attributes : List (String × Attributes) := []
  renderers : List (String × Renderer) := []
  generation : UInt64 := 0

namespace Session

/-- What the session knows about symbols. -/
def table (s : Session) : SymbolTable :=
  ⟨fun name => (s.attributes.lookup name).getD .empty, fun name => s.renderers.lookup name⟩

/-- Ages everything that was found normal. -/
def nextGeneration (s : Session) : Session := { s with generation := s.generation + 1 }

/-- Sets the attributes of a symbol. -/
def setAttributes (symbol : String) (attributes : Attributes) (s : Session) : Session :=
  { s with attributes := putEntry symbol attributes s.attributes }.nextGeneration

/-- Gives a symbol further attributes. -/
def addAttributes (symbol : String) (attributes : Attributes) (s : Session) : Session :=
  s.setAttributes symbol ((s.table.attributes symbol).union attributes)

/-- Sets the way in which the applications of a head are written. No generation is needed for it. -/
def setRenderer (head : String) (renderer : Renderer) (s : Session) : Session :=
  { s with renderers := putEntry head renderer s.renderers }

/-- Sets the renderers of operators and lists. -/
def withStandardRenderers (s : Session) : Session :=
  standardRenderers.foldl (fun s r => s.setRenderer r.1 r.2) s

/-- A session in which sums and products are flat and orderless. -/
def arithmetic : Session :=
  let attributes := (Attributes.flat.union .orderless).union .oneIdentity
  (({} : Session).setAttributes "Plus" attributes).setAttributes "Times" attributes

/-- The arithmetic session with the standard renderers. -/
def standard : Session := arithmetic.withStandardRenderers

/-- Stores a rule at a key, in the place of a rule with an identical left-hand side if there is
one. Locked symbols accept none. -/
def attach (kind : ValueKind) (symbol : String) (rule : Rule) (s : Session) :
    Traced (Except Failure Session) :=
  if (s.table.attributes symbol).contains .locked then pure (.error (.locked symbol))
  else do
    let replaced := (s.definitions.ruleSet kind symbol).hasLhs rule.lhs
    .note (.defined kind symbol replaced)
    let definitions := s.definitions.modify kind symbol (RuleSet.put rule)
    pure (.ok { s with definitions }.nextGeneration)

/-- Stores a rule at the symbol that its left-hand side is about. -/
def define (rule : Rule) (s : Session) : Traced (Except Failure Session) :=
  match rule.lhs.definitionKey? with
  | some (kind, symbol) => s.attach kind symbol rule
  | none => pure (.error (.notDefinable rule.lhs))

/-- Stores a rule at a symbol that occurs as an argument, or as the head of one. -/
def defineUp (symbol : String) (rule : Rule) (s : Session) : Traced (Except Failure Session) :=
  s.attach .up symbol rule

/-- Drops all definitions at a symbol. -/
def clearDefinitions (symbol : String) (s : Session) : Session :=
  { s with definitions := s.definitions.clear symbol }.nextGeneration

end Session

end TermRewriting
