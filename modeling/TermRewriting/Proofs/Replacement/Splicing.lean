import TermRewriting.Proofs.Pattern.Growth
import TermRewriting.Proofs.Replacement
import TermRewriting.Proofs.Term.Equivalence

/-!
# Where sequences dissolve

An application of `Sequence` in an argument list stands for its arguments. Instantiating a template
dissolves it, and so does a pass for every argument that it replaces. Hence in a term free of
`Sequence` a pass leaves no argument that is a sequence, except at one place: what a rule for some
of the arguments of an orderless symbol appends is not dissolved. A pass leaves a sequence exactly
if such a rule appends one (`Term.replaceAll_splices`).
-/

namespace TermRewriting

namespace Bindings

/-- Every name is bound to a term with the property. -/
def All (V : Term → Prop) (b : Bindings) : Prop := ∀ bound ∈ b, V bound.2

variable {V : Term → Prop} {b c : Bindings}

theorem all_nil : All V [] := fun _ hmem => absurd hmem List.not_mem_nil

theorem all_bind? {name : String} {t : Term} (hb : b.All V) (ht : V t)
    (h : b.bind? name t = some c) : c.All V := by
  unfold bind? at h
  split at h
  · split at h
    · cases h
      exact hb
    · cases h
  · cases h
    exact List.forall_mem_append.mpr ⟨hb, List.forall_mem_singleton.mpr ht⟩

end Bindings

namespace Term

/-! ## Spliced terms -/

/-- No argument in the term is an application of `Sequence`. -/
def Spliced (t : Term) : Prop := t.Every fun s => s.args.any (isCall "Sequence") = false

/-- The term stands for itself in an argument list, and is spliced. -/
def IsItem (t : Term) : Prop := t.isCall "Sequence" = false ∧ t.Spliced

theorem spliced_app {head : Term} {args : List Term} {marks : Marks} :
    (Term.app head args marks).Spliced ↔ head.Spliced ∧ ∀ a ∈ args, a.IsItem := by
  have hcalls : args.any (isCall "Sequence") = false ↔ ∀ a ∈ args, a.isCall "Sequence" = false := by
    simp
  rw [Spliced, every_app, Term.args, hcalls]
  constructor
  · rintro ⟨hcalls, hhead, hargs⟩
    exact ⟨hhead, fun a ha => ⟨hcalls a ha, hargs a ha⟩⟩
  · rintro ⟨hhead, hargs⟩
    exact ⟨fun a ha => (hargs a ha).1, hhead, fun a ha => (hargs a ha).2⟩

theorem SequenceFree.spliced {t : Term} (h : t.SequenceFree) : t.Spliced := by
  induction t using induct with
  | atom a => exact .atom a
  | app head args marks ihhead ihargs =>
    obtain ⟨_, hhead, hargs⟩ := every_app.mp h
    have hargs : ∀ a ∈ args, a.SequenceFree := hargs
    exact spliced_app.mpr ⟨ihhead hhead, fun a ha =>
      ⟨(hargs a ha).isCall_eq_false, ihargs a ha (hargs a ha)⟩⟩

theorem SequenceFree.isItem {t : Term} (h : t.SequenceFree) : t.IsItem :=
  ⟨h.isCall_eq_false, h.spliced⟩

/-- Where sequences dissolve, what they hold and what stays are items exactly if all was spliced. -/
theorem forall_isItem_iff {args : List Term} :
    (∀ a ∈ spliced "Sequence" args, a.IsItem) ↔ ∀ a ∈ args, a.Spliced := by
  rw [forall_mem_spliced]
  refine forall₂_congr fun a _ => ?_
  cases hcall : a.isCall "Sequence" with
  | false => simp [IsItem, hcall]
  | true =>
    obtain ⟨items, marks, rfl⟩ := isCall_eq_true.mp hcall
    rw [spliced_app]
    simp [Term.args, Spliced]

/-! ## Instances -/

/-- **An instance is spliced** if the terms that names are bound to are. -/
theorem spliced_instantiate {b : Bindings} (hb : b.All Spliced) (template : Term) :
    (template.instantiate b).Spliced := by
  induction template using induct with
  | atom a =>
    cases a with
    | symbol name =>
      rw [instantiate]
      cases hbound : b.get? name with
      | none => exact .atom _
      | some t => exact hb _ (Bindings.mem_of_get? hbound)
    | integer value => exact .atom _
    | real value => exact .atom _
    | string text => exact .atom _
  | app head args marks ihhead ihargs =>
    rw [instantiate, instantiateAll_eq_map]
    exact spliced_app.mpr ⟨ihhead, forall_isItem_iff.mpr (List.forall_mem_map.mpr ihargs)⟩

/-- In terms free of `Sequence` names are bound to such terms and to sequences of them. -/
theorem matchSteps_spliced (names : List String) :
    MatchSteps SequenceFree names fun b c => b.All Spliced → c.All Spliced where
  refl _ hb := hb
  trans hfirst hsecond hb := hsecond (hfirst hb)
  parts h := (every_app.mp h).2
  group h hitems := h.apply hitems
  one _ ht h hb := Bindings.all_bind? hb ht.spliced h
  run _ hitems h hb :=
    have hrun := spliced_app.mpr ⟨.atom _, fun a ha => (hitems a ha).isItem⟩
    Bindings.all_bind? hb hrun h

theorem relates_searchMatch_spliced (context : MatchContext) (p : Term) :
    Matcher.Relates SequenceFree (fun b c => b.All Spliced → c.All Spliced)
      (p.searchMatch context) :=
  Pattern.relates_matcher (matchSteps_spliced _) context (.ofTerm p) (List.Subset.refl _)

/-! ## Rules at a node -/

section

variable {table : SymbolTable} {rules : List Rule}

/-- What replaces a node as a whole is spliced. -/
theorem spliced_replaceWhole {t u : Term} (ht : t.SequenceFree)
    (h : (replaceWhole table t rules).value = some u) : u.Spliced := by
  rw [value_replaceWhole] at h
  obtain ⟨rule, _, hrule⟩ := List.exists_of_findSome?_eq_some h
  obtain ⟨b, hmatch, rfl⟩ := Option.map_eq_some_iff.mp hrule
  have hbound := relates_searchMatch_spliced ⟨table, {}⟩ rule.lhs ht hmatch Bindings.all_nil
  exact spliced_instantiate hbound rule.rhs

/-- The components of a left-hand side bind names to spliced terms. -/
theorem spliced_searchComponents {components items rest : List Term} {b : Bindings}
    (hitems : ∀ a ∈ items, a.SequenceFree)
    (h : (searchComponents (componentMatchers table components) items).result = some (b, rest)) :
    b.All Spliced ∧ ∀ a ∈ rest, a ∈ items := by
  rw [result_searchComponents] at h
  obtain ⟨s, hs, hselected⟩ := Search.exists_of_firstSelection h
  obtain ⟨d, heach, hfound⟩ := Search.andThen_eq_some.mp hselected
  cases hfound
  have hselection : ∀ a ∈ s.1 ++ s.2, a ∈ items := fun a ha =>
    (selections_perm hs).mem_iff.mp ha
  obtain ⟨hpicked, hrest⟩ := List.forall_mem_append.mp hselection
  have hmatchers : ∀ m ∈ componentMatchers table components,
      m.Relates SequenceFree fun b c => b.All Spliced → c.All Spliced :=
    List.forall_mem_map.mpr fun p _ => relates_searchMatch_spliced ⟨table, {}⟩ p
  have hfree : ∀ a ∈ s.1, a.SequenceFree := fun a ha => hitems a (hpicked a ha)
  exact ⟨related_matchEach (matchSteps_spliced []) hmatchers hfree heach Bindings.all_nil, hrest⟩

theorem eq_of_appended_eq {head head' new new' : Term} {rest rest' : List Term}
    (h : apply head (rest ++ [new]) = apply head' (rest' ++ [new'])) : new = new' :=
  List.singleton_inj.mp (List.append_inj' (app.inj h).2.1 rfl).2

/-- A rule for some of the arguments of an orderless symbol keeps the others, and appends a spliced
instance of its right-hand side. -/
theorem exists_of_replaceArguments {head u : Term} {args : List Term}
    (hargs : ∀ a ∈ args, a.SequenceFree)
    (h : (replaceArguments table rules head args).value = some u) :
    ∃ name rule b rest, table.isOrderless name = true ∧ rule ∈ rules ∧ rule.lhs.isCall name = true
      ∧ u = apply head (rest ++ [rule.rhs.instantiate b]) ∧ (rule.rhs.instantiate b).Spliced
      ∧ ∀ a ∈ rest, a ∈ args := by
  unfold replaceArguments at h
  split at h
  · next name _ =>
    split at h
    · next horderless =>
      rw [value_replaceSubset] at h
      obtain ⟨rule, hrule, hfits⟩ := List.exists_of_findSome?_eq_some h
      obtain ⟨components, hcomponents, hnew⟩ := Option.bind_eq_some_iff.mp hfits
      obtain ⟨new, hsome, rfl⟩ := Option.map_eq_some_iff.mp hnew
      obtain ⟨marks, hlhs, _⟩ := Rule.components?_eq_some.mp hcomponents
      rw [value_replaceSome] at hsome
      split at hsome
      · cases hsome
      · obtain ⟨⟨b, rest⟩, hfound, rfl⟩ := Option.map_eq_some_iff.mp hsome
        obtain ⟨hbound, hrest⟩ := spliced_searchComponents hargs hfound
        exact ⟨name, rule, b, rest, horderless, hrule, isCall_eq_true.mpr ⟨_, marks, hlhs⟩, rfl,
          spliced_instantiate hbound rule.rhs, hrest⟩
    · cases h
  · cases h

/-- The node that such a rule leaves is spliced unless what it appends is a sequence. -/
theorem spliced_iff_of_replaceArguments {head u : Term} {args : List Term}
    (hhead : head.SequenceFree) (hargs : ∀ a ∈ args, a.SequenceFree)
    (h : (replaceArguments table rules head args).value = some u) :
    u.Spliced ↔ ¬∃ rest new, u = apply head (rest ++ [new]) ∧ new.isCall "Sequence" = true := by
  obtain ⟨_, rule, b, rest, _, _, _, rfl, hnew, hrest⟩ := exists_of_replaceArguments hargs h
  rw [spliced_app, List.forall_mem_append, List.forall_mem_singleton]
  constructor
  · rintro ⟨_, _, hitem⟩ ⟨rest', new', heq, hcall⟩
    rw [← eq_of_appended_eq heq, hitem.1] at hcall
    cases hcall
  · intro hnone
    have hcall : (rule.rhs.instantiate b).isCall "Sequence" = false :=
      Bool.eq_false_iff.mpr fun hcall => hnone ⟨_, _, rfl, hcall⟩
    exact ⟨hhead.spliced, fun a ha => (hargs a (hrest a ha)).isItem, hcall, hnew⟩

/-- Where a pass appends an application of `Sequence` to the arguments of an orderless symbol. It
comes to a node if no rule applies at a node above it. -/
inductive AppendsSequence (table : SymbolTable) (rules : List Rule) : Term → Prop where
  | here {head new : Term} {args rest : List Term} {marks : Marks} :
      (replaceWhole table (.app head args marks) rules).value = none →
      (replaceArguments table rules head args).value = some (.apply head (rest ++ [new])) →
      new.isCall "Sequence" = true → AppendsSequence table rules (.app head args marks)
  | head {head : Term} {args : List Term} {marks : Marks} :
      (replaceWhole table (.app head args marks) rules).value = none →
      (replaceArguments table rules head args).value = none →
      AppendsSequence table rules head → AppendsSequence table rules (.app head args marks)
  | arg {head a : Term} {args : List Term} {marks : Marks} :
      (replaceWhole table (.app head args marks) rules).value = none →
      (replaceArguments table rules head args).value = none → a ∈ args →
      AppendsSequence table rules a → AppendsSequence table rules (.app head args marks)

theorem appendsSequence_app {head : Term} {args : List Term} {marks : Marks} :
    (Term.app head args marks).AppendsSequence table rules
      ↔ (replaceWhole table (.app head args marks) rules).value = none
        ∧ ((∃ rest new, (replaceArguments table rules head args).value
              = some (.apply head (rest ++ [new])) ∧ new.isCall "Sequence" = true)
          ∨ (replaceArguments table rules head args).value = none
            ∧ (head.AppendsSequence table rules
              ∨ ∃ a ∈ args, a.AppendsSequence table rules)) := by
  constructor
  · rintro (⟨hwhole, harguments, hnew⟩ | ⟨hwhole, harguments, h⟩ | ⟨hwhole, harguments, ha, h⟩)
    · exact ⟨hwhole, .inl ⟨_, _, harguments, hnew⟩⟩
    · exact ⟨hwhole, .inr ⟨harguments, .inl h⟩⟩
    · exact ⟨hwhole, .inr ⟨harguments, .inr ⟨_, ha, h⟩⟩⟩
  · rintro ⟨hwhole, ⟨rest, new, harguments, hnew⟩ | ⟨harguments, h | ⟨a, ha, h⟩⟩⟩
    · exact .here hwhole harguments hnew
    · exact .head hwhole harguments h
    · exact .arg hwhole harguments ha h

/-- Only rules for arguments of orderless symbols append sequences, and only where an instance of
the right-hand side is one. -/
theorem AppendsSequence.exists_rule {t : Term} (ht : t.SequenceFree)
    (h : t.AppendsSequence table rules) :
    ∃ rule ∈ rules, ∃ name b, table.isOrderless name = true ∧ rule.lhs.isCall name = true
      ∧ (rule.rhs.instantiate b).isCall "Sequence" = true := by
  induction h with
  | here _ harguments hnew =>
    obtain ⟨_, _, hargs⟩ := every_app.mp ht
    obtain ⟨name, rule, b, rest, horderless, hrule, hlhs, heq, _⟩ :=
      exists_of_replaceArguments hargs harguments
    rw [eq_of_appended_eq heq] at hnew
    exact ⟨rule, hrule, name, b, horderless, hlhs, hnew⟩
  | head _ _ _ ih => exact ih (every_app.mp ht).2.1
  | arg _ _ ha _ ih => exact ih ((every_app.mp ht).2.2 _ ha)

/-! ## Passes -/

/-- The term after a pass is what it was replaced by, or itself. -/
theorem value_replaceAll (t : Term) :
    (t.replaceAll table rules).value = keepOr t (t.replaced? table rules).value := rfl

theorem dissolved_of_not_isCall {t : Term} (h : t.isCall "Sequence" = false) :
    dissolved t = [t] := by
  rw [isCall, Option.isSome_eq_false_iff, Option.isNone_iff_eq_none] at h
  rw [dissolved, h]
  rfl

/-- In a list free of `Sequence`, a pass dissolves what every element becomes. -/
theorem keepOr_replacedAll? {args : List Term} (hargs : ∀ a ∈ args, a.SequenceFree) :
    keepOr args (replacedAll? table rules args).value
      = spliced "Sequence" (args.map fun a => (a.replaceAll table rules).value) := by
  induction args with
  | nil => rfl
  | cons a as ih =>
    obtain ⟨ha, has⟩ := List.forall_mem_cons.mp hargs
    rw [List.map_cons, spliced_cons, ← dissolved, ← ih has, value_replacedAll?_cons,
      value_replaceAll]
    cases (a.replaced? table rules).value with
    | none =>
      have hself : dissolved (keepOr a none) = [a] := dissolved_of_not_isCall ha.isCall_eq_false
      rw [hself]
      cases (replacedAll? table rules as).value <;> rfl
    | some new => cases (replacedAll? table rules as).value <;> rfl

/-- A node that no rule rewrites keeps its shape: its head and arguments are visited. -/
theorem value_replaceAll_visited {head : Term} {args : List Term} {marks : Marks}
    (hargs : ∀ a ∈ args, a.SequenceFree)
    (hwhole : (replaceWhole table (.app head args marks) rules).value = none)
    (harguments : (replaceArguments table rules head args).value = none) :
    ∃ marks', ((Term.app head args marks).replaceAll table rules).value
      = .app (head.replaceAll table rules).value
          (spliced "Sequence" (args.map fun a => (a.replaceAll table rules).value)) marks' := by
  rw [← keepOr_replacedAll? hargs, value_replaceAll, value_replaceAll, value_replaced?_app, hwhole,
    harguments, Option.none_or, Option.none_or]
  cases (head.replaced? table rules).value with
  | none =>
    cases (replacedAll? table rules args).value with
    | none => exact ⟨marks, rfl⟩
    | some new => exact ⟨.fresh, rfl⟩
  | some newHead => cases (replacedAll? table rules args).value <;> exact ⟨.fresh, rfl⟩

theorem spliced_replaceAll_iff {t : Term} (ht : t.SequenceFree) :
    (t.replaceAll table rules).value.Spliced ↔ ¬t.AppendsSequence table rules := by
  induction t using induct with
  | atom a =>
    have hspliced : ((Term.atom a).replaceAll table rules).value.Spliced := by
      rw [value_replaceAll, replaced?]
      cases hwhole : (replaceWhole table (.atom a) rules).value with
      | none => exact .atom a
      | some u => exact spliced_replaceWhole ht hwhole
    refine iff_of_true hspliced fun happends => ?_
    cases happends
  | app head args marks ihhead ihargs =>
    obtain ⟨_, hhead, hargs⟩ := every_app.mp ht
    have hhead : head.SequenceFree := hhead
    have hargs : ∀ a ∈ args, a.SequenceFree := hargs
    rw [appendsSequence_app]
    cases hwhole : (replaceWhole table (.app head args marks) rules).value with
    | some u =>
      rw [value_replaceAll, value_replaced?_app, hwhole]
      exact iff_of_true (spliced_replaceWhole ht hwhole) fun h => Option.some_ne_none _ h.1
    | none =>
      cases harguments : (replaceArguments table rules head args).value with
      | some u =>
        rw [value_replaceAll, value_replaced?_app, hwhole, harguments]
        refine (spliced_iff_of_replaceArguments hhead hargs harguments).trans ?_
        simp
      | none =>
        obtain ⟨marks', hvisited⟩ := value_replaceAll_visited hargs hwhole harguments
        have hparts : (∀ a ∈ args, (a.replaceAll table rules).value.Spliced)
            ↔ ∀ a ∈ args, ¬a.AppendsSequence table rules :=
          forall₂_congr fun a ha => ihargs a ha (hargs a ha)
        rw [hvisited, spliced_app, forall_isItem_iff, List.forall_mem_map, ihhead hhead, hparts]
        simp

/-- **A pass leaves no sequence among arguments unless it appends one.** Of the three ways to apply
a rule, replacing an argument as a whole and instantiating a right-hand side dissolve what becomes a
sequence. A rule for some of the arguments of an orderless symbol appends its instance as it is, and
a sequence among arguments after a pass comes from such a rule. -/
theorem replaceAll_splices {t : Term} (ht : t.SequenceFree) :
    ((t.replaceAll table rules).value.Spliced ↔ ¬t.AppendsSequence table rules)
      ∧ (t.AppendsSequence table rules →
          ∃ rule ∈ rules, ∃ name b, table.isOrderless name = true ∧ rule.lhs.isCall name = true
            ∧ (rule.rhs.instantiate b).isCall "Sequence" = true) :=
  ⟨spliced_replaceAll_iff ht, fun h => h.exists_rule ht⟩

/-- A sequence in place of an argument, one inside a right-hand side, and a rule for some of the
arguments of an orderless symbol that appends something else. -/
theorem replaceAll_splices_dissolved :
    let table : SymbolTable := .ofAttributes [("Plus", .orderless)]
    let x := call "NamedBlank" [symbol "x"]
    let xs := call "NamedBlankSequence" [symbol "xs"]
    let rules : List Rule :=
      [⟨symbol "a", call "Sequence" [symbol "u", symbol "v"], false⟩,
        ⟨call "g" [xs], call "h" [symbol "xs", symbol "xs"], false⟩,
        ⟨call "Plus" [integer 1, x], call "r" [symbol "x"], false⟩]
    let t := call "f" [symbol "a", call "g" [integer 1, integer 2],
      call "Plus" [symbol "b", symbol "c", integer 1]]
    t.SequenceFree
      ∧ (t.replaceAll table rules).value
        = call "f" [symbol "u", symbol "v", call "h" [integer 1, integer 2, integer 1, integer 2],
            call "Plus" [symbol "c", call "r" [symbol "b"]]]
      ∧ (t.replaceAll table rules).value.Spliced ∧ ¬t.AppendsSequence table rules := by
  intro table x xs rules t
  have ht : t.SequenceFree := by simp [t, SequenceFree, every_app, isCall, callArgs?]
  have hvalue : (t.replaceAll table rules).value
      = call "f" [symbol "u", symbol "v", call "h" [integer 1, integer 2, integer 1, integer 2],
          call "Plus" [symbol "c", call "r" [symbol "b"]]] := by
    simp only [t, table, rules, x, xs]
    rfl
  have hspliced : (t.replaceAll table rules).value.Spliced := by
    rw [hvalue]
    simp [Spliced, every_app, Term.args, isCall, callArgs?]
  exact ⟨ht, hvalue, hspliced, (replaceAll_splices ht).1.mp hspliced⟩

/-- What a rule for two of three arguments appends stays a sequence. -/
theorem replaceAll_appends_sequence :
    let table : SymbolTable := .ofAttributes [("Plus", .orderless)]
    let rule : Rule :=
      ⟨call "Plus" [symbol "a", symbol "c"], call "Sequence" [symbol "x", symbol "y"], false⟩
    let t := call "Plus" [symbol "a", symbol "b", symbol "c"]
    t.SequenceFree
      ∧ (t.replaceAll table [rule]).value
        = call "Plus" [symbol "b", call "Sequence" [symbol "x", symbol "y"]]
      ∧ ¬(t.replaceAll table [rule]).value.Spliced := by
  intro table rule t
  have ht : t.SequenceFree := by simp [t, SequenceFree, every_app, isCall, callArgs?]
  have hvalue : (t.replaceAll table [rule]).value
      = call "Plus" [symbol "b", call "Sequence" [symbol "x", symbol "y"]] := by
    simp only [t, table, rule]
    rfl
  refine ⟨ht, hvalue, ?_⟩
  rw [hvalue]
  simp [Spliced, every_app, Term.args, isCall, callArgs?]

end

end Term

end TermRewriting
