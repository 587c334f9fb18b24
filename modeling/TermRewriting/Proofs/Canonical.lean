import TermRewriting.Canonical
import TermRewriting.Proofs.Term.Alike

/-!
# Canonical nodes

`canonicalTop` reports a change exactly if one of four things is left to be done to the node. They
are the fields of `IsCanonical`, and none of them depends on marks.

A node that is put into canonical form is built from its parts, from parts of its parts, and from
new nodes. So alike nodes become alike, and either both change or none (`Alike.canonicalNode`).
-/

namespace TermRewriting

namespace Term

variable {table : SymbolTable}

/-! ## What is left to be done -/

/-- Nothing is left to be done to the node: no argument is an application of `Sequence` or of the
node's own flat head, the arguments of an orderless head are in order, and under a symbol other than
`ConditionalExpression` no argument is a conditional expression. -/
structure IsCanonical (table : SymbolTable) (t : Term) : Prop where
  spread : ∀ a ∈ t.args, a.isCall "Sequence" = false
  flat : ∀ name, t.head.symbolName? = some name → table.isFlat name = true →
    ∀ a ∈ t.args, a.isCall name = false
  ordered : ∀ name, t.head.symbolName? = some name → table.isOrderless name = true →
    inOrder t.args = true
  unconditional : ∀ name, t.head.symbolName? = some name → name ≠ "ConditionalExpression" →
    ∀ a ∈ t.args, a.conditional? = none

theorem dissolving?_eq_none {name : String} {args : List Term} :
    dissolving? name args = none ↔ ∀ a ∈ args, a.isCall name = false := by
  unfold dissolving?
  split
  · next h =>
    simp only [List.any_eq_true] at h
    obtain ⟨a, ha, hcall⟩ := h
    constructor
    · intro h
      cases h
    · intro h
      have hnot := h a ha
      rw [hcall] at hnot
      cases hnot
  · next h =>
    rw [Bool.not_eq_true, List.any_eq_false] at h
    simpa using h

theorem sorting?_eq_none {args : List Term} : sorting? args = none ↔ inOrder args = true := by
  unfold sorting?
  split <;> simp [*]

/-- Nothing changes further exactly if nothing did before and nothing does now. -/
theorem changedFurther_eq_none {args : List Term} {change : List Term → Option (List Term)}
    {earlier : Option (List Term)} :
    changedFurther args change earlier = none ↔ earlier = none ∧ change args = none := by
  unfold changedFurther
  cases earlier with
  | none =>
    rw [keepOr, Option.getD_none]
    cases change args <;> simp
  | some new =>
    rw [keepOr, Option.getD_some]
    cases change new <;> simp

theorem changedArgs?_eq_none {head : Term} {args : List Term} :
    changedArgs? table head args = none
      ↔ (∀ a ∈ args, a.isCall "Sequence" = false)
        ∧ (∀ name, head.symbolName? = some name → table.isFlat name = true →
            ∀ a ∈ args, a.isCall name = false)
        ∧ (∀ name, head.symbolName? = some name → table.isOrderless name = true →
            inOrder args = true) := by
  unfold changedArgs?
  cases hname : head.symbolName? with
  | none => simp [dissolving?_eq_none]
  | some name =>
    have hflat : table.isFlat name = (table.attributes name).isFlat := rfl
    have horderless : table.isOrderless name = (table.attributes name).isOrderless := rfl
    cases hf : (table.attributes name).isFlat <;> cases ho : (table.attributes name).isOrderless
    all_goals
      simp [hflat, horderless, hf, ho, changedFurther_eq_none, dissolving?_eq_none,
        sorting?_eq_none, and_assoc]

theorem handsUp_eq_true {head : Term} :
    handsUp head = true
      ↔ ∃ name, head.symbolName? = some name ∧ name ≠ "ConditionalExpression" := by
  simp [handsUp, Option.any_eq_true]

/-- What is left of a node in which nothing changes is the node itself, marks included. -/
theorem canonicalNode_eq_self {head : Term} {args : List Term} {marks : Marks} :
    (canonicalNode table head args marks).2 = false →
      canonicalNode table head args marks = (.app head args marks, false) := by
  intro h
  unfold canonicalNode at h ⊢
  dsimp only at h ⊢
  split at h
  · cases h
  · cases h
  · rfl

theorem canonicalTop_eq_self {t : Term} (h : (t.canonicalTop table).2 = false) :
    t.canonicalTop table = (t, false) := by
  cases t with
  | atom a => rfl
  | app head args marks => exact canonicalNode_eq_self h

/-- **No change is reported exactly for nodes to which nothing is left to be done.** -/
theorem canonicalTop_eq_false_iff {t : Term} :
    (t.canonicalTop table).2 = false ↔ IsCanonical table t := by
  cases t with
  | atom a =>
    have nothing : ∀ b ∈ (Term.atom a).args, False := fun b hb => nomatch hb
    constructor
    · intro _
      exact ⟨fun b hb => (nothing b hb).elim, fun _ _ _ b hb => (nothing b hb).elim,
        fun _ _ _ => rfl, fun _ _ _ b hb => (nothing b hb).elim⟩
    · intro _
      rfl
  | app head args marks =>
    -- what is handed up is looked for among the arguments as they are after all other changes
    have key : (canonicalNode table head args marks).2 = false
        ↔ changedArgs? table head args = none
          ∧ (handsUp head = true → hoisted? head args = none) := by
      unfold canonicalNode
      cases hargs : changedArgs? table head args with
      | none =>
        simp only [keepOr, Option.getD_none]
        cases hup : handsUp head with
        | false => simp
        | true => cases hoisted? head args <;> simp
      | some new =>
        dsimp only
        split <;> simp_all
    show (canonicalNode table head args marks).2 = false ↔ _
    rw [key, changedArgs?_eq_none, hoisted?_eq_none_iff, handsUp_eq_true]
    constructor
    · rintro ⟨⟨spread, flat, ordered⟩, unconditional⟩
      exact ⟨spread, flat, ordered, fun name hname hne => unconditional ⟨name, hname, hne⟩⟩
    · rintro ⟨spread, flat, ordered, unconditional⟩
      exact ⟨⟨spread, flat, ordered⟩, fun ⟨name, hname, hne⟩ => unconditional name hname hne⟩

/-- What is left to be done does not depend on marks. -/
theorem isCanonical_unmarked {t : Term} :
    IsCanonical table t.unmarked ↔ IsCanonical table t := by
  constructor
  · rintro ⟨spread, flat, ordered, unconditional⟩
    simp only [args_unmarked, head_unmarked, symbolName?_unmarked, List.forall_mem_map,
      isCall_unmarked, conditional?_unmarked, Option.map_eq_none_iff, inOrder_map_unmarked]
      at spread flat ordered unconditional
    exact ⟨spread, flat, ordered, unconditional⟩
  · rintro ⟨spread, flat, ordered, unconditional⟩
    constructor
    all_goals
      simp only [args_unmarked, head_unmarked, symbolName?_unmarked, List.forall_mem_map,
        isCall_unmarked, conditional?_unmarked, Option.map_eq_none_iff, inOrder_map_unmarked]
      assumption

theorem IsCanonical.of_unmarked_eq {s t : Term} (h : IsCanonical table s)
    (same : s.unmarked = t.unmarked) : IsCanonical table t := by
  rw [← isCanonical_unmarked, ← same, isCanonical_unmarked]
  exact h

theorem keepOr_relisted? (a : Term) (as : List Term) (new : Option Term)
    (rest : Option (List Term)) :
    keepOr (a :: as) (relisted? a as unchangedArg new rest) = keepOr a new :: keepOr as rest := by
  cases new with
  | none => cases rest <;> rfl
  | some new => cases rest <;> rfl

/-! ## Alike nodes -/

variable {Q : Term → Prop}

theorem AlikeAll.dissolving? (name : String) {as bs : List Term} (h : AlikeAll Q as bs) :
    Option.Rel (AlikeAll Q) (dissolving? name as) (dissolving? name bs) := by
  unfold Term.dissolving?
  rw [h.any_isCall_eq name]
  split
  · exact .some (h.spliced name)
  · exact .none

theorem AlikeAll.sorting? {as bs : List Term} (h : AlikeAll Q as bs) :
    Option.Rel (AlikeAll Q) (sorting? as) (sorting? bs) := by
  unfold Term.sorting?
  rw [h.inOrder_eq]
  split
  · exact .none
  · exact .some h.sortedArgs

theorem alike_changedFurther {as bs : List Term} (h : AlikeAll Q as bs)
    {change : List Term → Option (List Term)}
    (hchange : ∀ {as bs}, AlikeAll Q as bs → Option.Rel (AlikeAll Q) (change as) (change bs))
    {x y : Option (List Term)} (hxy : Option.Rel (AlikeAll Q) x y) :
    Option.Rel (AlikeAll Q) (changedFurther as change x) (changedFurther bs change y) := by
  have hnow : Option.Rel (AlikeAll Q) (change (keepOr as x)) (change (keepOr bs y)) :=
    hchange (optionRel_getD hxy h)
  unfold changedFurther
  rcases optionRel_cases hnow with ⟨hx, hy⟩ | ⟨new, new', hx, hy, hnew⟩
  · rw [hx, hy]
    exact hxy
  · rw [hx, hy]
    exact .some hnew

theorem AlikeAll.changedArgs? (table : SymbolTable) {j k : Term} (hhead : Alike Q j k)
    {as bs : List Term} (h : AlikeAll Q as bs) :
    Option.Rel (AlikeAll Q) (changedArgs? table j as) (changedArgs? table k bs) := by
  unfold Term.changedArgs?
  rw [hhead.symbolName?_eq]
  have hspread := h.dissolving? "Sequence"
  cases k.symbolName? with
  | none => exact hspread
  | some name =>
    -- flattening and sorting each go on from what the change before them left
    have hflat : Option.Rel (AlikeAll Q)
        (if (table.attributes name).isFlat then
          changedFurther as (Term.dissolving? name) (Term.dissolving? "Sequence" as)
          else Term.dissolving? "Sequence" as)
        (if (table.attributes name).isFlat then
          changedFurther bs (Term.dissolving? name) (Term.dissolving? "Sequence" bs)
          else Term.dissolving? "Sequence" bs) := by
      split
      · exact alike_changedFurther h (AlikeAll.dissolving? name) hspread
      · exact hspread
    dsimp only
    split
    · exact alike_changedFurther h AlikeAll.sorting? hflat
    · exact hflat

theorem Alike.bareValue {s t : Term} (h : Alike Q s t) : Alike Q s.bareValue t.bareValue := by
  unfold Term.bareValue
  rcases optionRel_cases h.conditional? with ⟨hs, ht⟩ | ⟨c, d, hs, ht, hcd⟩
  · rw [hs, ht]
    exact h
  · rw [hs, ht]
    exact hcd.1

theorem AlikeAll.conditions {as bs : List Term} (h : AlikeAll Q as bs) :
    AlikeAll Q (conditions as) (conditions bs) := by
  induction h with
  | nil => exact .nil
  | @cons a b as bs hab _ ih =>
    unfold Term.conditions at ih ⊢
    rw [List.filterMap_cons, List.filterMap_cons]
    rcases optionRel_cases hab.conditional? with ⟨ha, hb⟩ | ⟨c, d, ha, hb, hcd⟩
    · rw [ha, hb]
      exact ih
    · rw [ha, hb]
      exact .cons hcd.2 ih

theorem AlikeAll.hoisted? (hQ : Robust Q) {j k : Term} (hhead : Alike Q j k) {as bs : List Term}
    (h : AlikeAll Q as bs) : Option.Rel (Alike Q) (hoisted? j as) (hoisted? k bs) := by
  have hvalues : AlikeAll Q (as.map Term.bareValue) (bs.map Term.bareValue) :=
    List.rel_map (fun _ _ hab => hab.bareValue) h
  have hempty : (Term.conditions as).isEmpty = (Term.conditions bs).isEmpty := by
    rw [Bool.eq_iff_iff, List.isEmpty_iff_length_eq_zero, List.isEmpty_iff_length_eq_zero,
      h.conditions.length_eq]
  unfold Term.hoisted?
  rw [hempty]
  split
  · exact .none
  · refine .some (alike_call hQ _ (.cons ?_ (.cons ?_ .nil)))
    · exact alike_apply hQ hhead hvalues
    · exact alike_call hQ "And" h.conditions

/-- What a node hands upwards depends on the arguments that it is left with. -/
theorem AlikeAll.handedUp (hQ : Robust Q) {j k : Term} (hhead : Alike Q j k) {as bs : List Term}
    (h : AlikeAll Q as bs) :
    Option.Rel (Alike Q) (if handsUp j then Term.hoisted? j as else none)
      (if handsUp k then Term.hoisted? k bs else none) := by
  have hup : handsUp j = handsUp k := by
    unfold handsUp
    rw [hhead.symbolName?_eq]
  rw [hup]
  split
  · exact AlikeAll.hoisted? hQ hhead h
  · exact .none

/-- Nodes whose heads and final arguments are alike become alike in canonical form. -/
theorem alike_canonicalNode (hQ : Robust Q) {table : SymbolTable} {j k : Term} {as bs : List Term}
    {m n : Marks} (hm : (Term.app j as m).Every Q) (hn : (Term.app k bs n).Every Q)
    (hhead : Alike Q j k) (hargs : AlikeAll Q (keepOr as (Term.changedArgs? table j as))
      (keepOr bs (Term.changedArgs? table k bs))) :
    Alike Q (canonicalNode table j as m).1 (canonicalNode table k bs n).1 := by
  have hhoisted := AlikeAll.handedUp hQ hhead hargs
  have hnodem := (every_app.mp hm).1
  have hnoden := (every_app.mp hn).1
  unfold Term.canonicalNode
  dsimp only
  rcases optionRel_cases hhoisted with ⟨hs, ht⟩ | ⟨s, t, hs, ht, hst⟩
  · -- arguments that change on one side only still become the same
    rw [hs, ht]
    cases hx : Term.changedArgs? table j as with
    | none =>
      rw [hx] at hargs
      cases hy : Term.changedArgs? table k bs with
      | none =>
        rw [hy] at hargs
        exact alike_app hnodem hnoden hhead hargs
      | some y =>
        rw [hy] at hargs
        exact alike_app hnodem (hQ.built k y) hhead hargs
    | some x =>
      rw [hx] at hargs
      cases hy : Term.changedArgs? table k bs with
      | none =>
        rw [hy] at hargs
        exact alike_app (hQ.built j x) hnoden hhead hargs
      | some y =>
        rw [hy] at hargs
        exact alike_apply hQ hhead hargs
  · rw [hs, ht]
    exact hst

/-- **Alike nodes become alike in canonical form, and either both change or none.** -/
theorem Alike.canonicalNode (hQ : Robust Q) (table : SymbolTable) {j k : Term} {as bs : List Term}
    {m n : Marks} (hm : Q (.app j as m)) (hn : Q (.app k bs n)) (hhead : Alike Q j k)
    (hargs : AlikeAll Q as bs) :
    Alike Q (canonicalNode table j as m).1 (canonicalNode table k bs n).1
      ∧ (canonicalNode table j as m).2 = (canonicalNode table k bs n).2 := by
  obtain ⟨_, has, hbs⟩ := alikeAll_iff.mp hargs
  have hnew : Option.Rel (AlikeAll Q) (Term.changedArgs? table j as)
      (Term.changedArgs? table k bs) := hargs.changedArgs? table hhead
  have hfinal := optionRel_getD hnew hargs
  refine ⟨alike_canonicalNode hQ (.app hm hhead.left has) (.app hn hhead.right hbs) hhead hfinal,
    ?_⟩
  have hhoisted := AlikeAll.handedUp hQ hhead hfinal
  unfold Term.canonicalNode
  dsimp only
  rcases optionRel_cases hhoisted with ⟨hs, ht⟩ | ⟨s, t, hs, ht, _⟩
  · rw [keepOr, hs, keepOr, ht]
    rcases optionRel_cases hnew with ⟨hx, hy⟩ | ⟨x, y, hx, hy, _⟩
    · rw [hx, hy]
    · rw [hx, hy]
  · rw [keepOr, hs, keepOr, ht]

theorem Alike.canonicalTop (hQ : Robust Q) (table : SymbolTable) {s t : Term} (h : Alike Q s t) :
    Alike Q (s.canonicalTop table).1 (t.canonicalTop table).1
      ∧ (s.canonicalTop table).2 = (t.canonicalTop table).2 := by
  rcases h.cases with ⟨a, rfl, rfl⟩ | ⟨j, as, m, k, bs, n, rfl, rfl, hm, hn, hhead, hargs⟩
  · exact ⟨alike_atom a, rfl⟩
  · exact Alike.canonicalNode hQ table hm hn hhead hargs

end Term

end TermRewriting
