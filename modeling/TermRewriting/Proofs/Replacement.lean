import TermRewriting.Proofs.Pattern.Congruence
import TermRewriting.Proofs.Selection
import TermRewriting.Replacement

/-!
# What a replacement finds

A rule applies at a node if it matches the node as a whole, or if it is a rule for fewer arguments
of the same orderless symbol and its components match some of the arguments one after another, in
any order (`Rule.Applies`). A pass goes through the nodes of a term; at a node where a rule applies
the first one that does is used. That a pass answers `none` means that no rule of the list applies
at any node, atoms and heads included (`replaced?_eq_none_iff`).

What is replaced depends on the structure of the term alone: passes over alike terms both change
nothing or lead to alike terms (`Alike.replaced?`).
-/

namespace TermRewriting

/-! ## Components -/

/-- The patterns match the terms one after another, each with the bindings that those before it
left. -/
inductive MatchInTurn (table : SymbolTable) :
    List Term → List Term → Bindings → Bindings → Prop where
  | nil (b : Bindings) : MatchInTurn table [] [] b b
  | cons {p t : Term} {ps ts : List Term} {b c d : Bindings} :
      (p.searchMatch ⟨table, {}⟩ t b).result = some c → MatchInTurn table ps ts c d →
      MatchInTurn table (p :: ps) (t :: ts) b d

theorem MatchInTurn.length_eq {table : SymbolTable} {ps ts : List Term} {b c : Bindings}
    (h : MatchInTurn table ps ts b c) : ts.length = ps.length := by
  induction h with
  | nil b => rfl
  | cons _ _ ih => rw [List.length_cons, List.length_cons, ih]

theorem result_matchEach_eq_some {table : SymbolTable} {ps ts : List Term}
    (hlength : ts.length = ps.length) {b d : Bindings} :
    (matchEach (componentMatchers table ps) ts b).result = some d
      ↔ MatchInTurn table ps ts b d := by
  induction ps generalizing ts b with
  | nil =>
    obtain rfl := List.length_eq_zero_iff.mp hlength
    constructor
    · intro h
      cases h
      exact .nil _
    · rintro (_ | _)
      rfl
  | cons p ps ih =>
    cases ts with
    | nil => cases hlength
    | cons t ts =>
      have hrest := @ih ts (Nat.succ_inj.mp hlength)
      show ((p.searchMatch ⟨table, {}⟩ t b).andThen
        (matchEach (componentMatchers table ps) ts)).result = some d ↔ _
      rw [Search.result_andThen, Option.bind_eq_some_iff]
      constructor
      · rintro ⟨c, hc, h⟩
        exact .cons hc (hrest.mp h)
      · rintro (_ | ⟨hc, h⟩)
        exact ⟨_, hc, hrest.mpr h⟩

/-- The search for pairs is the general one. -/
theorem result_searchPair (first second : Matcher) (items : List Term) :
    (searchPair first second items).result
      = (Search.firstSelection 2 items fun picked rest =>
          (matchEach [first, second] picked []).andThen fun b => .succeed (b, rest)).result := by
  rw [searchPair, Search.firstSelection, Search.result_firstOf, Search.result_firstOf]
  congr 1
  funext p
  rw [Search.result_andThen, Search.firstSelection, Search.result_firstOf]
  cases hfirst : (first p.1 []).result with
  | none =>
    -- without the first there is no second, whichever is tried
    refine (List.findSome?_eq_none_iff.mpr fun q _ => ?_).symm
    simp [Search.firstSelection, matchEach, hfirst]
  | some b =>
    rw [Option.bind_some, Search.result_firstOf]
    congr 1
    funext q
    simp [Search.firstSelection, matchEach, hfirst]

/-- However many components there are, their search is one through the selections. -/
theorem result_searchComponents (matchers : List Matcher) (items : List Term) :
    (searchComponents matchers items).result
      = (Search.firstSelection matchers.length items fun picked rest =>
          (matchEach matchers picked []).andThen fun b => .succeed (b, rest)).result := by
  unfold searchComponents
  split
  · exact result_searchPair _ _ items
  · rfl

/-- **The search for components fails exactly if no choice of elements matches them in turn.** -/
theorem result_searchComponents_eq_none {table : SymbolTable} {components items : List Term} :
    (searchComponents (componentMatchers table components) items).result = none
      ↔ ∀ chosen b, chosen.Subperm items → ¬MatchInTurn table components chosen [] b := by
  have hcount : (componentMatchers table components).length = components.length :=
    List.length_map _
  rw [result_searchComponents, Search.result_firstSelection, List.findSome?_eq_none_iff, hcount]
  constructor
  · intro h chosen b hchosen hmatch
    obtain ⟨rest, hrest⟩ := subperm_iff_mem_selections.mp hchosen
    rw [hmatch.length_eq] at hrest
    have hnone := h _ hrest
    rw [Search.result_andThen, (result_matchEach_eq_some hmatch.length_eq).mpr hmatch] at hnone
    cases hnone
  · rintro h ⟨chosen, rest⟩ hmem
    have hlength : chosen.length = components.length := length_of_mem_selections hmem
    rw [← hlength] at hmem
    rw [Search.result_andThen, Option.bind_eq_none_iff]
    intro b hb
    exact absurd ((result_matchEach_eq_some hlength).mp hb)
      (h chosen b (subperm_iff_mem_selections.mpr ⟨rest, hmem⟩))

/-! ## Rules at a node -/

/-- The rule is one for an application of `name` to fewer arguments, each component of which stands
for one, and its components match some of the arguments in turn. -/
def Rule.FitsSome (table : SymbolTable) (name : String) (args : List Term) (rule : Rule) : Prop :=
  ∃ components marks, rule.lhs = .app (.symbol name) components marks
    ∧ components ≠ [] ∧ components.length < args.length
    ∧ (∀ p ∈ components, p.isVariadic = false)
    ∧ ∃ chosen b, chosen.Subperm args ∧ MatchInTurn table components chosen [] b

/-- The rule has something to do at the node. -/
inductive Rule.Applies (table : SymbolTable) (rule : Rule) : Term → Prop where
  | whole {t : Term} {b : Bindings} : rule.lhs.matches? table t = some b → rule.Applies table t
  | someArgs {name : String} {args : List Term} {marks : Marks} : table.isOrderless name = true →
      rule.FitsSome table name args → rule.Applies table (.app (.symbol name) args marks)

variable {table : SymbolTable} {rules : List Rule}

theorem Rule.not_applies_iff {rule : Rule} {t : Term} :
    ¬rule.Applies table t ↔ rule.lhs.matches? table t = none
      ∧ ∀ name args marks, t = .app (.symbol name) args marks → table.isOrderless name = true →
          ¬rule.FitsSome table name args := by
  constructor
  · intro h
    refine ⟨Option.eq_none_iff_forall_ne_some.mpr fun b hb => h (.whole hb), ?_⟩
    rintro name args marks rfl horderless hfits
    exact h (.someArgs horderless hfits)
  · rintro ⟨hwhole, hsome⟩ (hb | ⟨horderless, hfits⟩)
    · rw [hb] at hwhole
      cases hwhole
    · exact hsome _ _ _ rfl horderless hfits

theorem value_replaceWhole (t : Term) :
    (replaceWhole table t rules).value
      = rules.findSome? fun rule => (rule.lhs.matches? table t).map rule.rhs.instantiate := by
  induction rules with
  | nil => rfl
  | cons rule rules ih =>
    rw [replaceWhole, Traced.value_bind, Term.value_tryMatch, List.findSome?_cons]
    cases rule.lhs.matches? table t with
    | none => exact ih
    | some b => rfl

theorem Rule.components?_eq_some {rule : Rule} {name : String} {count : Nat}
    {components : List Term} :
    rule.components? name count = some components
      ↔ ∃ marks, rule.lhs = .app (.symbol name) components marks ∧ components ≠ []
          ∧ components.length < count ∧ ∀ p ∈ components, p.isVariadic = false := by
  unfold Rule.components?
  cases hcall : rule.lhs.callArgs? name with
  | none =>
    constructor
    · intro h
      cases h
    · rintro ⟨marks, hlhs, _⟩
      rw [hlhs, Term.callArgs?_eq_some.mpr ⟨marks, rfl⟩] at hcall
      cases hcall
  | some found =>
    obtain ⟨marks, hlhs⟩ := Term.callArgs?_eq_some.mp hcall
    constructor
    · intro h
      dsimp only at h
      split at h
      · cases h
      · next hallowed =>
        cases h
        simpa [hlhs, and_assoc] using hallowed
    · rintro ⟨marks', hlhs', hne, hcount, hsingle⟩
      obtain rfl : found = components := by
        rw [hlhs] at hlhs'
        cases hlhs'
        rfl
      have hallowed : (found.isEmpty || count ≤ found.length || found.any Term.isVariadic)
          = false := by
        simpa [and_assoc] using And.intro hne (And.intro hcount hsingle)
      dsimp only
      rw [hallowed]
      rfl

theorem value_replaceSome (components : List Term) (rhs : Term) (items : List Term) :
    (replaceSome table components rhs items).value
      = if components.isEmpty || items.length < components.length then none
        else (searchComponents (componentMatchers table components) items).result.map
          fun found => found.2 ++ [rhs.instantiate found.1] := by
  unfold replaceSome
  split
  · rfl
  · cases (searchComponents (componentMatchers table components) items).result <;> rfl

theorem value_replaceSubset (name : String) (head : Term) (args : List Term) :
    (replaceSubset table name head args rules).value
      = rules.findSome? fun rule => (rule.components? name args.length).bind fun components =>
          (replaceSome table components rule.rhs args).value.map (Term.apply head) := by
  induction rules with
  | nil => rfl
  | cons rule rules ih =>
    rw [replaceSubset, List.findSome?_cons]
    cases rule.components? name args.length with
    | none => exact ih
    | some components =>
      dsimp only
      rw [Traced.value_bind, Option.bind_some]
      cases (replaceSome table components rule.rhs args).value with
      | none => exact ih
      | some new => rfl

/-- Some of the arguments are rewritten unless no rule fits any of them. -/
theorem value_replaceSubset_eq_none {name : String} {head : Term} {args : List Term} :
    (replaceSubset table name head args rules).value = none
      ↔ ∀ rule ∈ rules, ¬rule.FitsSome table name args := by
  rw [value_replaceSubset, List.findSome?_eq_none_iff]
  refine forall₂_congr fun rule _ => ?_
  rw [Option.bind_eq_none_iff]
  -- for components that are allowed, only the search can fail
  have hsearch : ∀ components, rule.components? name args.length = some components →
      ((replaceSome table components rule.rhs args).value.map (Term.apply head) = none
        ↔ ∀ chosen b, chosen.Subperm args → ¬MatchInTurn table components chosen [] b) := by
    intro components hcomponents
    obtain ⟨_, _, hne, hcount, _⟩ := Rule.components?_eq_some.mp hcomponents
    have hallowed : (components.isEmpty || args.length < components.length) = false := by
      simpa using And.intro hne (Nat.le_of_lt hcount)
    rw [Option.map_eq_none_iff, value_replaceSome, hallowed, if_neg Bool.false_ne_true,
      Option.map_eq_none_iff, result_searchComponents_eq_none]
  constructor
  · rintro h ⟨components, marks, hlhs, hne, hcount, hsingle, chosen, b, hchosen, hmatch⟩
    have hcomponents := Rule.components?_eq_some.mpr ⟨marks, hlhs, hne, hcount, hsingle⟩
    exact (hsearch components hcomponents).mp (h components hcomponents) chosen b hchosen hmatch
  · intro h components hcomponents
    obtain ⟨marks, hlhs, hne, hcount, hsingle⟩ := Rule.components?_eq_some.mp hcomponents
    exact (hsearch components hcomponents).mpr fun chosen b hchosen hmatch =>
      h ⟨components, marks, hlhs, hne, hcount, hsingle, chosen, b, hchosen, hmatch⟩

theorem value_replaceArguments_eq_none {head : Term} {args : List Term} :
    (replaceArguments table rules head args).value = none
      ↔ ∀ name, head = .symbol name → table.isOrderless name = true →
          ∀ rule ∈ rules, ¬rule.FitsSome table name args := by
  unfold replaceArguments
  cases hname : head.symbolName? with
  | none =>
    constructor
    · rintro _ name rfl
      cases hname
    · intro _
      rfl
  | some name =>
    obtain rfl := Term.symbolName?_eq_some.mp hname
    dsimp only
    split
    · next horderless => simp [value_replaceSubset_eq_none, horderless]
    · next horderless => simp [horderless]

/-! ## Throughout a term -/

theorem rebuilt?_eq_none {head : Term} {args : List Term} {newHead : Option Term}
    {newArgs : Option (List Term)} :
    rebuilt? head args newHead newArgs = none ↔ newHead = none ∧ newArgs = none := by
  cases newHead <;> cases newArgs <;> simp [rebuilt?]

theorem relisted?_eq_none {a : Term} {as : List Term} {dissolve : Term → List Term}
    {new : Option Term} {rest : Option (List Term)} :
    relisted? a as dissolve new rest = none ↔ new = none ∧ rest = none := by
  cases new <;> cases rest <;> simp [relisted?]

namespace Term

theorem value_replaced?_app (head : Term) (args : List Term) (marks : Marks) :
    ((Term.app head args marks).replaced? table rules).value
      = (replaceWhole table (.app head args marks) rules).value.or
          ((replaceArguments table rules head args).value.or
            (rebuilt? head args (head.replaced? table rules).value
              (replacedAll? table rules args).value)) := by
  rw [replaced?, Traced.value_bind]
  cases (replaceWhole table (.app head args marks) rules).value with
  | some t => rfl
  | none =>
    dsimp only
    rw [Traced.value_bind, Option.none_or]
    cases (replaceArguments table rules head args).value with
    | some t => rfl
    | none => rfl

theorem value_replacedAll?_cons (a : Term) (as : List Term) :
    (replacedAll? table rules (a :: as)).value
      = relisted? a as dissolved (a.replaced? table rules).value
          (replacedAll? table rules as).value := by
  rw [replacedAll?, Traced.value_bind, Traced.value_bind]
  rfl

theorem value_replacedAll?_eq_none {args : List Term} :
    (replacedAll? table rules args).value = none
      ↔ ∀ a ∈ args, (a.replaced? table rules).value = none := by
  induction args with
  | nil => simp [replacedAll?]
  | cons a as ih => rw [value_replacedAll?_cons, relisted?_eq_none, ih, List.forall_mem_cons]

/-- Some rule of the list applies at some node of the term. -/
def Reducible (table : SymbolTable) (rules : List Rule) (t : Term) : Prop :=
  ∃ path u, t.at? path = some u ∧ ∃ rule ∈ rules, rule.Applies table u

theorem not_reducible_iff {t : Term} :
    ¬t.Reducible table rules
      ↔ ∀ path u, t.at? path = some u → ∀ rule ∈ rules, ¬rule.Applies table u := by
  simp [Reducible]

/-- **A pass answers that nothing is replaced exactly if no rule applies at any node.** -/
theorem replaced?_eq_none_iff {t : Term} :
    (t.replaced? table rules).value = none ↔ ¬t.Reducible table rules := by
  rw [not_reducible_iff]
  induction t using induct with
  | atom a =>
    rw [forall_at?_atom, replaced?, value_replaceWhole, List.findSome?_eq_none_iff]
    refine forall₂_congr fun rule _ => ?_
    rw [Option.map_eq_none_iff, Rule.not_applies_iff]
    simp
  | app head args marks ihhead ihargs =>
    rw [forall_at?_app, value_replaced?_app, Option.or_eq_none_iff, Option.or_eq_none_iff,
      rebuilt?_eq_none, ihhead, value_replacedAll?_eq_none, value_replaceWhole,
      List.findSome?_eq_none_iff, value_replaceArguments_eq_none, ← and_assoc]
    refine and_congr ?_ (and_congr Iff.rfl (forall₂_congr ihargs))
    simp only [Rule.not_applies_iff, Option.map_eq_none_iff]
    constructor
    · rintro ⟨hwhole, hsome⟩ rule hrule
      refine ⟨hwhole rule hrule, ?_⟩
      rintro name args marks ⟨⟩ horderless
      exact hsome name rfl horderless rule hrule
    · intro h
      refine ⟨fun rule hrule => (h rule hrule).1, ?_⟩
      rintro name rfl horderless rule hrule
      exact (h rule hrule).2 name args marks rfl horderless

theorem reducible_of_replaced? {t new : Term}
    (h : (t.replaced? table rules).value = some new) : t.Reducible table rules := by
  by_contra hirreducible
  rw [replaced?_eq_none_iff.mpr hirreducible] at h
  cases h

end Term

/-! ## Alike terms -/

theorem optionRel_findSome? {α β γ : Type} {P : β → γ → Prop} {f : α → Option β}
    {g : α → Option γ} {l : List α} (h : ∀ a ∈ l, Option.Rel P (f a) (g a)) :
    Option.Rel P (l.findSome? f) (l.findSome? g) := by
  induction l with
  | nil => exact .none
  | cons a as ih =>
    obtain ⟨ha, has⟩ := List.forall_mem_cons.mp h
    rw [List.findSome?_cons, List.findSome?_cons]
    rcases optionRel_cases ha with ⟨hf, hg⟩ | ⟨b, c, hf, hg, hbc⟩
    · rw [hf, hg]
      exact ih has
    · rw [hf, hg]
      exact .some hbc

/-- Lists in which the first element and the others became alike are alike, if what dissolves is. -/
theorem alike_relisted? {Q : Term → Prop} {dissolve : Term → List Term}
    (hdissolve : ∀ {s t}, Term.Alike Q s t → Term.AlikeAll Q (dissolve s) (dissolve t))
    {a a' : Term} {as as' : List Term} (ha : Term.Alike Q a a') (has : Term.AlikeAll Q as as')
    {new new' : Option Term} (hnew : Option.Rel (Term.Alike Q) new new')
    {rest rest' : Option (List Term)} (hrest : Option.Rel (Term.AlikeAll Q) rest rest') :
    Option.Rel (Term.AlikeAll Q) (relisted? a as dissolve new rest)
      (relisted? a' as' dissolve new' rest') := by
  have htail : Term.AlikeAll Q (keepOr as rest) (keepOr as' rest') := optionRel_getD hrest has
  rcases optionRel_cases hnew with ⟨rfl, rfl⟩ | ⟨u, u', rfl, rfl, hu⟩
  · rcases optionRel_cases hrest with ⟨rfl, rfl⟩ | ⟨us, us', rfl, rfl, _⟩
    · exact .none
    · exact .some (.cons ha htail)
  · have happend := List.rel_append (hdissolve hu) htail
    cases rest <;> cases rest' <;> exact .some happend

section

variable {Q : Term → Prop} (hQ : Term.Robust Q)

include hQ

theorem alike_rebuilt? {j k : Term} {as bs : List Term} (hhead : Term.Alike Q j k)
    (hargs : Term.AlikeAll Q as bs) {newHead newHead' : Option Term}
    (hnewHead : Option.Rel (Term.Alike Q) newHead newHead') {newArgs newArgs' : Option (List Term)}
    (hnewArgs : Option.Rel (Term.AlikeAll Q) newArgs newArgs') :
    Option.Rel (Term.Alike Q) (rebuilt? j as newHead newArgs)
      (rebuilt? k bs newHead' newArgs') := by
  have hnode := Term.alike_apply hQ (optionRel_getD hnewHead hhead) (optionRel_getD hnewArgs hargs)
  rcases optionRel_cases hnewHead with ⟨rfl, rfl⟩ | ⟨u, u', rfl, rfl, hu⟩
  · rcases optionRel_cases hnewArgs with ⟨rfl, rfl⟩ | ⟨us, us', rfl, rfl, hus⟩
    · exact .none
    · exact .some hnode
  · cases newArgs <;> cases newArgs' <;> exact .some hnode

variable (table)

theorem agree_searchComponents {components : List Term} (hcomponents : ∀ p ∈ components, p.Coherent)
    {items items' : List Term} (h : Term.AlikeAll Q items items') :
    Search.Agree (fun x y => Bindings.Alike Q x.1 y.1 ∧ Term.AlikeAll Q x.2 y.2)
      (searchComponents (componentMatchers table components) items)
      (searchComponents (componentMatchers table components) items') := by
  have hmatchers : ∀ m ∈ componentMatchers table components, m.Respects Q :=
    List.forall_mem_map.mpr fun p hp => respects_searchMatch hQ table (hcomponents p hp)
  unfold Search.Agree
  rw [result_searchComponents, result_searchComponents]
  refine Search.agree_firstSelection h fun picked picked' rest rest' hpicked hrest => ?_
  refine Search.agree_andThen (agree_matchEach hmatchers hpicked .nil) fun b b' hb => ?_
  exact Search.agree_succeed ⟨hb, hrest⟩

theorem alike_replaceSome {components : List Term} (hcomponents : ∀ p ∈ components, p.Coherent)
    (rhs : Term) {items items' : List Term} (h : Term.AlikeAll Q items items') :
    Option.Rel (Term.AlikeAll Q) (replaceSome table components rhs items).value
      (replaceSome table components rhs items').value := by
  rw [value_replaceSome, value_replaceSome, h.length_eq]
  split
  · exact .none
  · rcases optionRel_cases (agree_searchComponents table hQ hcomponents h) with
      ⟨hx, hy⟩ | ⟨x, y, hx, hy, hbound, hrest⟩
    · rw [hx, hy]
      exact .none
    · rw [hx, hy]
      have hnew := Term.alike_instantiate hQ hbound rhs
      exact .some (List.rel_append hrest (.cons hnew .nil))

variable (hrules : ∀ rule ∈ rules, rule.lhs.Coherent)

include hrules

theorem alike_replaceWhole {s t : Term} (h : Term.Alike Q s t) :
    Option.Rel (Term.Alike Q) (replaceWhole table s rules).value
      (replaceWhole table t rules).value := by
  rw [value_replaceWhole, value_replaceWhole]
  refine optionRel_findSome? fun rule hrule => ?_
  rcases optionRel_cases (h.matches? hQ table (hrules rule hrule)) with
    ⟨hx, hy⟩ | ⟨b, b', hx, hy, hbound⟩
  · rw [hx, hy]
    exact .none
  · rw [hx, hy]
    exact .some (Term.alike_instantiate hQ hbound rule.rhs)

theorem alike_replaceArguments {j k : Term} {as bs : List Term} (hhead : Term.Alike Q j k)
    (hargs : Term.AlikeAll Q as bs) :
    Option.Rel (Term.Alike Q) (replaceArguments table rules j as).value
      (replaceArguments table rules k bs).value := by
  unfold replaceArguments
  rw [hhead.symbolName?_eq]
  split
  · split
    · rw [value_replaceSubset, value_replaceSubset, hargs.length_eq]
      refine optionRel_findSome? fun rule hrule => ?_
      cases hfound : rule.components? _ bs.length with
      | none => exact .none
      | some components =>
        obtain ⟨marks, hlhs, _⟩ := Rule.components?_eq_some.mp hfound
        have hcoherent := hrules rule hrule
        rw [hlhs] at hcoherent
        obtain ⟨_, _, hcomponents⟩ := Term.every_app.mp hcoherent
        rw [Option.bind_some, Option.bind_some]
        rcases optionRel_cases (alike_replaceSome table hQ hcomponents rule.rhs hargs)
          with ⟨hx, hy⟩ | ⟨x, y, hx, hy, hxy⟩
        · rw [hx, hy]
          exact .none
        · rw [hx, hy]
          exact .some (Term.alike_apply hQ hhead hxy)
    · exact .none
  · exact .none

omit hQ hrules in
theorem alike_replacedAll? {as bs : List Term}
    (h : List.Forall₂ (fun a b => Term.Alike Q a b ∧ Option.Rel (Term.Alike Q)
      (a.replaced? table rules).value (b.replaced? table rules).value) as bs) :
    Option.Rel (Term.AlikeAll Q) (Term.replacedAll? table rules as).value
      (Term.replacedAll? table rules bs).value := by
  induction h with
  | nil => exact .none
  | cons hab hrest ih =>
    rw [Term.value_replacedAll?_cons, Term.value_replacedAll?_cons]
    have hdissolve : ∀ {s t}, Term.Alike Q s t → Term.AlikeAll Q (dissolved s) (dissolved t) :=
      fun hst => optionRel_getD (hst.callArgs? "Sequence") (.cons hst .nil)
    exact alike_relisted? hdissolve hab.1 (hrest.imp fun _ _ h => h.1) hab.2 ih

/-- **A pass over alike terms changes neither, or makes alike terms of them.** -/
theorem Term.Alike.replaced? {s t : Term} (h : Term.Alike Q s t) :
    Option.Rel (Term.Alike Q) (s.replaced? table rules).value (t.replaced? table rules).value := by
  induction s using Term.induct generalizing t with
  | atom a =>
    rcases h.cases with ⟨_, hs, rfl⟩ | ⟨j, as, m, k, bs, n, hs, _⟩
    · cases hs
      exact alike_replaceWhole table hQ hrules (Term.alike_atom a)
    · cases hs
  | app j as m ihhead ihargs =>
    rcases h.cases with ⟨a, hs, _⟩ | ⟨j', as', m', k, bs, n, hs, rfl, _, _, hhead, hargs⟩
    · cases hs
    cases hs
    have hparts := (List.forall₂_and_left as bs).mpr
      ⟨fun a ha t (hat : Term.Alike Q a t) => ihargs a ha hat, hargs⟩
    have hnewArgs := alike_replacedAll? table
      (hparts.imp fun a b hab => ⟨hab.2, hab.1 b hab.2⟩)
    rw [Term.value_replaced?_app, Term.value_replaced?_app]
    rcases optionRel_cases (alike_replaceWhole table hQ hrules h) with
      ⟨hx, hy⟩ | ⟨u, u', hx, hy, hu⟩
    · rw [hx, hy, Option.none_or, Option.none_or]
      rcases optionRel_cases (alike_replaceArguments table hQ hrules hhead hargs) with
        ⟨hx, hy⟩ | ⟨u, u', hx, hy, hu⟩
      · rw [hx, hy]
        exact alike_rebuilt? hQ hhead hargs (ihhead hhead) hnewArgs
      · rw [hx, hy]
        exact .some hu
    · rw [hx, hy]
      exact .some hu

theorem Term.Alike.replaceAll {s t : Term} (h : Term.Alike Q s t) :
    Term.Alike Q (s.replaceAll table rules).value (t.replaceAll table rules).value :=
  optionRel_getD (h.replaced? table hQ hrules) h

/-- Of two alike terms a rule applies in both or in none. -/
theorem Term.Alike.reducible_iff {s t : Term} (h : Term.Alike Q s t) :
    s.Reducible table rules ↔ t.Reducible table rules := by
  rw [← not_iff_not, ← Term.replaced?_eq_none_iff, ← Term.replaced?_eq_none_iff]
  rcases optionRel_cases (h.replaced? table hQ hrules) with
    ⟨hx, hy⟩ | ⟨u, u', hx, hy, _⟩
  · rw [hx, hy]
  · simp [hx, hy]

end

end TermRewriting
