import TermRewriting.Rule
import TermRewriting.Trace

/-!
# Replacement

A rule is applied to the elements of a list, to some of the arguments of an orderless head, or
throughout a term. Every application instantiates the right-hand side anew. Functions on terms
answer `none` where nothing changes.
-/

namespace TermRewriting

/-! ## Elements of a list -/

/-- Replaces every element that the rule matches, and counts them. -/
def replaceEach (table : SymbolTable) (rule : Rule) : List Term → Traced (List Term × Nat)
  | [] => pure ([], 0)
  | a :: as => do
    let found ← rule.lhs.tryMatch table a
    let (rest, count) ← replaceEach table rule as
    match found with
    | some b => pure (rule.rhs.instantiate b :: rest, count + 1)
    | none => pure (a :: rest, count)

/-! ## Some of the arguments -/

/-- The matchers of the components of a left-hand side. -/
def componentMatchers (table : SymbolTable) (components : List Term) : List Matcher :=
  components.map fun p => p.searchMatch ⟨table, {}⟩

/-- The first pair of different elements that the two matchers accept one after the other, as the
bindings and the elements left over. -/
def searchPair (first second : Matcher) (items : List Term) : Search (Bindings × List Term) :=
  .firstOf (pickOne items) fun p =>
    (first p.1 []).andThen fun b =>
      .firstOf (pickOne p.2) fun q => (second q.1 b).andThen fun c => .succeed (c, q.2)

/-- The first choice of elements that the matchers accept one after the other, as the bindings and
the elements left over. -/
def searchComponents (matchers : List Matcher) (items : List Term) :
    Search (Bindings × List Term) :=
  match matchers with
  | [first, second] => searchPair first second items
  | _ =>
    .firstSelection matchers.length items fun picked rest =>
      (matchEach matchers picked []).andThen fun b => .succeed (b, rest)

/-- Takes elements that the components match out of the list and appends the instance of the
right-hand side. -/
def replaceSome (table : SymbolTable) (components : List Term) (rhs : Term) (items : List Term) :
    Traced (Option (List Term)) :=
  if components.isEmpty || items.length < components.length then pure none
  else
    match (searchComponents (componentMatchers table components) items).result with
    | some (b, rest) => pure (some (rest ++ [rhs.instantiate b]))
    | none => do
      .note (.unassigned components.length items.length)
      pure none

/-! ## Throughout a term -/

/-- The instance of the first rule that matches the term as a whole. -/
def replaceWhole (table : SymbolTable) (t : Term) : List Rule → Traced (Option Term)
  | [] => pure none
  | rule :: rules => do
    match ← rule.lhs.tryMatch table t with
    | some b => pure (some (rule.rhs.instantiate b))
    | none => replaceWhole table t rules

/-- The components of a left-hand side that may stand for some of `count` arguments of `head`: those
of an application of the same head to fewer arguments, each of which stands for one. -/
def Rule.components? (head : String) (count : Nat) (rule : Rule) : Option (List Term) :=
  match rule.lhs.callArgs? head with
  | some components =>
    if components.isEmpty || count ≤ components.length || components.any Term.isVariadic then none
    else some components
  | none => none

/-- The node after the first rule that rewrites some of the arguments of the head. -/
def replaceSubset (table : SymbolTable) (name : String) (head : Term) (args : List Term) :
    List Rule → Traced (Option Term)
  | [] => pure none
  | rule :: rules =>
    match rule.components? name args.length with
    | none => replaceSubset table name head args rules
    | some components => do
      match ← replaceSome table components rule.rhs args with
      | some args => pure (some (.apply head args))
      | none => replaceSubset table name head args rules

/-- The node after a rule for some of its arguments, if its head is an orderless symbol. -/
def replaceArguments (table : SymbolTable) (rules : List Rule) (head : Term) (args : List Term) :
    Traced (Option Term) :=
  match head.symbolName? with
  | some name =>
    if table.isOrderless name then replaceSubset table name head args rules else pure none
  | none => pure none

/-- A part of a node after a traversal: what it became, or itself. -/
def keepOr {α : Type} (old : α) (new : Option α) : α := new.getD old

/-- The node with the parts that changed, if any did. -/
def rebuilt? (head : Term) (args : List Term) : Option Term → Option (List Term) → Option Term
  | none, none => none
  | newHead, newArgs => some (.apply (keepOr head newHead) (keepOr args newArgs))

/-- A list in which the first element became `new` and the others `rest`, where each may be
unchanged. -/
def relisted? (old : Term) (olds : List Term) (dissolve : Term → List Term) :
    Option Term → Option (List Term) → Option (List Term)
  | none, none => none
  | new, rest => some ((new.map dissolve).getD [old] ++ keepOr olds rest)

/-- A replaced argument, dissolved if it is an application of `Sequence`. -/
def dissolved (t : Term) : List Term := (t.callArgs? "Sequence").getD [t]

mutual

/-- One pass from the top: at each node the first rule that matches wins, and its result is not
visited. An orderless node that no rule matches may have some of its arguments rewritten; otherwise
head and arguments are visited. -/
def Term.replaced? (table : SymbolTable) (rules : List Rule) : Term → Traced (Option Term)
  | .atom a => replaceWhole table (.atom a) rules
  | .app head args marks => do
    match ← replaceWhole table (.app head args marks) rules with
    | some t => pure (some t)
    | none =>
      match ← replaceArguments table rules head args with
      | some t => pure (some t)
      | none => do
        let newHead ← head.replaced? table rules
        let newArgs ← Term.replacedAll? table rules args
        pure (rebuilt? head args newHead newArgs)

def Term.replacedAll? (table : SymbolTable) (rules : List Rule) :
    List Term → Traced (Option (List Term))
  | [] => pure none
  | a :: as => do
    let new ← a.replaced? table rules
    let rest ← Term.replacedAll? table rules as
    pure (relisted? a as dissolved new rest)

end

/-- The term after one pass with the rules. -/
def Term.replaceAll (table : SymbolTable) (rules : List Rule) (t : Term) : Traced Term := do
  let new ← t.replaced? table rules
  pure (keepOr t new)

end TermRewriting
