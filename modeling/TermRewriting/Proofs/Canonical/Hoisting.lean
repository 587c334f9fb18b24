import TermRewriting.Proofs.Canonical.Conditions
import TermRewriting.Proofs.Rewriting.Weight

/-!
# Canonical form hoists conditions

Putting a term into canonical form neither takes a condition up that would not have come up anyway
(`carries_canonical`) nor changes the number of arguments that a value takes next to its condition
(`places_bareValue_canonical`). So whether all conditions are hoisted in the end is decided by the term
as it is at the beginning (`hoistsFully_canonical`).

In between the parts of a conditional expression that was just built are not yet canonical, and its
value may be a sequence. What is kept from node to node is therefore said about the parts of what was
handed upwards (`HoistsBelow`), once for each kind of head: conditional expressions, which count their
arguments, other symbols, which hand conditions on, and heads that are no symbols, which stop them.

`ConditionalExpression` must be neither flat nor orderless: it would lose its arguments to another one,
or take its condition for its value.
-/

namespace TermRewriting

namespace Term

variable {table : SymbolTable}

/-! ## What dissolving leaves -/

/-- A property that dissolved applications share with all their parts is one of all arguments before
exactly if it is one of all arguments after. -/
theorem forall_mem_spliced_iff {P : Term → Prop} {name : String} {args : List Term}
    (hP : ∀ a ∈ args, a.isCall name = true → (P a ↔ ∀ b ∈ a.args, P b)) :
    (∀ b ∈ spliced name args, P b) ↔ ∀ a ∈ args, P a := by
  rw [forall_mem_spliced]
  refine forall₂_congr fun a ha => ?_
  cases hcall : a.isCall name with
  | false => simp
  | true => simp [hP a ha hcall]

/-- The same for what is counted. -/
theorem sum_map_spliced {f : Term → Nat} {name : String} {args : List Term}
    (hf : ∀ a ∈ args, a.isCall name = true → f a = (a.args.map f).sum) :
    ((spliced name args).map f).sum = (args.map f).sum := by
  induction args with
  | nil => rfl
  | cons a as ih =>
    obtain ⟨ha, has⟩ := List.forall_mem_cons.mp hf
    rw [spliced_cons, List.map_append, List.sum_append_nat, ih has, List.map_cons, List.sum_cons]
    cases hcall : a.callArgs? name with
    | none => simp
    | some items =>
      obtain ⟨marks, rfl⟩ := callArgs?_eq_some.mp hcall
      rw [Option.getD_some, ha (by rw [isCall, hcall]; rfl)]
      rfl

section

variable (hflat : table.isFlat "ConditionalExpression" = false)

include hflat

/-- A property that applications of all symbols but `ConditionalExpression` share with their parts is
one of the arguments of a node exactly if it is one of those that the node is left with. -/
theorem forall_mem_leftArgs_iff {P : Term → Prop} {head : Term} {args : List Term}
    (hargs : ∀ a ∈ args, Levelled table a)
    (hP : ∀ a, Levelled table a → ∀ name, name ≠ "ConditionalExpression" → a.isCall name = true →
      (P a ↔ ∀ b ∈ a.args, P b)) :
    (∀ b ∈ leftArgs table head args, P b) ↔ ∀ a ∈ args, P a := by
  have hspread : (∀ b ∈ spliced "Sequence" args, P b) ↔ ∀ a ∈ args, P a :=
    forall_mem_spliced_iff fun a ha => hP a (hargs a ha) _ (by decide)
  cases hsymbol : head.symbolName? with
  | none => rw [leftArgs_of_not_symbol hsymbol, hspread]
  | some name =>
    obtain rfl := symbolName?_eq_some.mp hsymbol
    simp only [mem_leftArgs]
    unfold flattenedArgs
    split
    · next hname =>
      have hne : name ≠ "ConditionalExpression" := by
        rintro rfl
        rw [hflat] at hname
        cases hname
      have hlevelled := spread_spliced (dissolves_levelled (by decide)) hargs
      rw [forall_mem_spliced_iff fun a ha => hP a (hlevelled a ha).1 name hne, hspread]
    · exact hspread

/-- A condition is carried by the arguments that a node is left with if it is carried by those that it
had. -/
theorem not_carries_leftArgs {head : Term} {args : List Term}
    (hargs : ∀ a ∈ args, Levelled table a) :
    (∀ b ∈ leftArgs table head args, ¬b.Carries) ↔ ∀ a ∈ args, ¬a.Carries := by
  refine forall_mem_leftArgs_iff hflat hargs fun a _ name hname hcall => ?_
  obtain ⟨items, marks, rfl⟩ := isCall_eq_true.mp hcall
  rw [carries_call hname]
  simp [Term.args]

theorem hoistsBelow_leftArgs (head : Term) {args : List Term}
    (hargs : ∀ a ∈ args, Levelled table a) :
    (∀ b ∈ leftArgs table head args, b.HoistsBelow) ↔ ∀ a ∈ args, a.HoistsBelow :=
  forall_mem_leftArgs_iff hflat hargs fun _ ha _ hname hcall => ha.hoistsBelow_of_isCall hname hcall

theorem exists_carries_leftArgs {head : Term} {args : List Term}
    (hargs : ∀ a ∈ args, Levelled table a) :
    (∃ b ∈ leftArgs table head args, b.Carries) ↔ ∃ a ∈ args, a.Carries := by
  simpa using not_congr (@not_carries_leftArgs table hflat head args hargs)

end

/-- The places of the values are counted alike before and after sequences dissolve in a sequence. -/
theorem sum_places_leftArgs {args : List Term} (hargs : ∀ a ∈ args, Levelled table a) :
    ((leftArgs table (.symbol "Sequence") args).map (places ∘ bareValue)).sum
      = (args.map (places ∘ bareValue)).sum := by
  have hspread : ((spliced "Sequence" args).map (places ∘ bareValue)).sum
      = (args.map (places ∘ bareValue)).sum :=
    sum_map_spliced fun a ha => (hargs a ha).places_of_isCall_sequence
  have hflattened : ((flattenedArgs table "Sequence" args).map (places ∘ bareValue)).sum
      = (args.map (places ∘ bareValue)).sum := by
    unfold flattenedArgs
    split
    · have hlevelled := spread_spliced (dissolves_levelled (by decide)) hargs
      rw [sum_map_spliced fun a ha => (hlevelled a ha).1.places_of_isCall_sequence, hspread]
    · exact hspread
  rw [leftArgs, keepOr_changedArgs?]
  split
  · rw [((sortedArgs_perm _).map _).sum_nat, hflattened]
  · exact hflattened

/-! ## One node -/

section

variable (hflat : table.isFlat "ConditionalExpression" = false)
  (hordered : table.isOrderless "ConditionalExpression" = false)

include hflat hordered

theorem leftArgs_conditional (args : List Term) :
    leftArgs table (.symbol "ConditionalExpression") args = spliced "Sequence" args := by
  rw [leftArgs, keepOr_changedArgs?, hordered, flattenedArgs, hflat]
  rfl

/-- The arguments of a conditional expression stay as they are when sequences have dissolved. -/
theorem canonicalNode_conditional (args : List Term) (marks : Marks) :
    ∃ m, (canonicalNode table (.symbol "ConditionalExpression") args marks).1
      = .app (.symbol "ConditionalExpression") (spliced "Sequence" args) m := by
  rcases canonicalNode_eq table (.symbol "ConditionalExpression") args marks with
    ⟨_, hup, _⟩ | ⟨_, m, hnode⟩
  · cases hup
  · rw [leftArgs_conditional hflat hordered] at hnode
    exact ⟨m, hnode⟩

theorem levelled_canonicalNode {head : Term} {args : List Term} (hhead : Levelled table head)
    (hargs : ∀ a ∈ args, Levelled table a) (marks : Marks) :
    Levelled table (canonicalNode table head args marks).1 := by
  by_cases hsymbol : head = .symbol "ConditionalExpression"
  · subst hsymbol
    obtain ⟨m, hnode⟩ := canonicalNode_conditional hflat hordered args marks
    have hspread := spread_spliced (dissolves_levelled (by decide)) hargs
    rw [hnode]
    refine .node ⟨fun b hb => (hspread b hb).2, ?_, ?_, ?_⟩ (.atom _) fun b hb => (hspread b hb).1
    · rintro _ ⟨⟩ h
      exact absurd (hflat.symm.trans h) (by decide)
    · rintro _ ⟨⟩ h
      exact absurd (hordered.symm.trans h) (by decide)
    · rintro _ ⟨⟩ hne
      exact absurd rfl hne
  · obtain ⟨hnew, hcanonical⟩ := @settled_leftArgs table _ _ head (dissolves_levelled (by decide))
      (fun name hname => dissolves_levelled (by rintro rfl; exact hsymbol hname)) hargs
    rcases canonicalNode_eq table head args marks with ⟨t, _, ht, hnode⟩ | ⟨hnone, m, hnode⟩
    · rw [hnode, eq_of_hoisted? ht]
      exact .handed rfl
    · rw [hnode]
      exact .node (hcanonical hnone m) hhead hnew

theorem levelled_canonical (t : Term) : Levelled table (t.canonical table) := by
  induction t using induct with
  | atom a => exact .atom a
  | app head args marks ihhead ihargs =>
    obtain ⟨m, h⟩ := canonical_app table head args marks
    rw [h]
    exact levelled_canonicalNode hflat hordered ihhead (List.forall_mem_map.mpr ihargs) m

theorem levelled_map_canonical (args : List Term) :
    ∀ a ∈ args.map (canonical table), Levelled table a :=
  List.forall_mem_map.mpr fun a _ => levelled_canonical hflat hordered a

omit hordered in
theorem carries_canonicalNode {head : Term} {args : List Term}
    (hargs : ∀ a ∈ args, Levelled table a) (marks new : Marks) :
    (canonicalNode table head args marks).1.Carries ↔ (Term.app head args new).Carries := by
  have hleft := @exists_carries_leftArgs table hflat head args hargs
  rcases canonicalNode_eq table head args marks with ⟨t, hup, ht, hnode⟩ | ⟨_, m, hnode⟩
  · obtain ⟨name, hname, hne⟩ := handsUp_eq_true.mp hup
    obtain rfl := symbolName?_eq_some.mp hname
    rw [hnode, eq_of_hoisted? ht, carries_call hne, ← hleft]
    refine iff_of_true (.conditional _ _) ?_
    -- something is handed upwards, so an argument that is left is conditional
    by_contra hnot
    have hnone : hoisted? (.symbol name) (leftArgs table (.symbol name) args) = none :=
      hoisted?_eq_none_iff.mpr fun b hb =>
        conditional?_of_not_carries fun hcarries => hnot ⟨b, hb, hcarries⟩
    rw [hnone] at ht
    cases ht
  · rw [hnode]
    exact carries_congr rfl hleft new m

omit hflat hordered in
/-- As many arguments are left as the arguments have places. -/
theorem length_spliced {args : List Term} (hargs : ∀ a ∈ args, Levelled table a) :
    (spliced "Sequence" args).length = (args.map places).sum := by
  have hspread := spread_spliced (dissolves_levelled (by decide)) hargs
  rw [← sum_places_of_spread fun b hb => (hspread b hb).2]
  refine sum_map_spliced fun a _ hcall => ?_
  obtain ⟨items, marks, rfl⟩ := isCall_eq_true.mp hcall
  exact places_sequence items marks

omit hflat hordered in
theorem hoistsWithin_spliced (args : List Term) :
    (∀ b ∈ spliced "Sequence" args, b.HoistsWithin) ↔ ∀ a ∈ args, a.HoistsWithin := by
  refine forall_mem_spliced_iff fun a _ hcall => ?_
  obtain ⟨items, marks, rfl⟩ := isCall_eq_true.mp hcall
  exact hoistsWithin_call (by decide)

/-- Under `ConditionalExpression` the parts have to keep their values, and to be two. -/
theorem hoistsBelow_canonicalNode_conditional {args : List Term}
    (hargs : ∀ a ∈ args, Levelled table a) (marks : Marks) :
    (canonicalNode table (.symbol "ConditionalExpression") args marks).1.HoistsBelow
      ↔ ((args.map (places ∘ bareValue)).sum = 2
          ∧ ∀ a ∈ args, a.Carries → a.bareValue.places = 1) ∧ ∀ a ∈ args, a.HoistsBelow := by
  obtain ⟨m, hnode⟩ := canonicalNode_conditional hflat hordered args marks
  have hspread := spread_spliced (dissolves_levelled (by decide)) hargs
  have hplaces : (∀ a ∈ args, a.HoistsWithin) →
      (args.map (places ∘ bareValue)).sum = (args.map places).sum := fun h =>
    congrArg List.sum (List.map_congr_left fun a ha => (hargs a ha).places_bareValue (h a ha))
  rw [hnode, hoistsBelow_conditional fun b hb => (hspread b hb).2, length_spliced hargs,
    hoistsWithin_spliced]
  constructor
  · rintro ⟨hsum, h⟩
    have hparts := fun a ha => (hargs a ha).hoistsWithin_iff.mp (h a ha)
    exact ⟨⟨(hplaces h).trans hsum, fun a ha => (hparts a ha).2⟩, fun a ha => (hparts a ha).1⟩
  · rintro ⟨⟨hsum, hkeeps⟩, hbelow⟩
    have h : ∀ a ∈ args, a.HoistsWithin := fun a ha =>
      (hargs a ha).hoistsWithin_iff.mpr ⟨hbelow a ha, hkeeps a ha⟩
    exact ⟨(hplaces h).symm.trans hsum, h⟩

omit hordered in
/-- Under another symbol nothing is asked of the parts but what holds below them. -/
theorem hoistsBelow_canonicalNode_call {name : String} (hname : name ≠ "ConditionalExpression")
    {args : List Term} (hargs : ∀ a ∈ args, Levelled table a) (marks : Marks) :
    (canonicalNode table (.symbol name) args marks).1.HoistsBelow
      ↔ ∀ a ∈ args, a.HoistsBelow := by
  rw [← hoistsBelow_leftArgs hflat (.symbol name) hargs]
  rcases canonicalNode_eq table (.symbol name) args marks with ⟨t, _, ht, hnode⟩ | ⟨hnone, m, hnode⟩
  · -- values and conditions go different ways
    rw [hnode, eq_of_hoisted? ht, hoistsBelow_pair, hoistsWithin_call hname,
      hoistsWithin_call (by decide), List.forall_mem_map]
    constructor
    · rintro ⟨hvalues, hconditions⟩ b hb
      refine ⟨hvalues b hb, fun value condition h => hconditions condition ?_⟩
      exact List.mem_filterMap.mpr ⟨b, hb, by rw [h]; rfl⟩
    · intro h
      refine ⟨fun b hb => (h b hb).1, fun c hc => ?_⟩
      obtain ⟨b, hb, hc⟩ := List.mem_filterMap.mp hc
      obtain ⟨⟨value, condition⟩, hconditional, rfl⟩ := Option.map_eq_some_iff.mp hc
      exact (h b hb).2 value condition hconditional
  · rw [hnode, hoistsBelow_of_none (conditional?_of_ne hname _ m), hoistsWithin_call hname]
    have hbare := hoisted?_eq_none_iff.mp (hnone (handsUp_eq_true.mpr ⟨name, rfl, hname⟩))
    exact forall₂_congr fun b hb => (hoistsBelow_of_none (hbare b hb)).symm

omit hordered in
/-- Below a head that is no symbol no condition may arrive, and the head has to keep its value. -/
theorem hoistsBelow_canonicalNode_of_not_symbol {head : Term} (hsymbol : head.symbolName? = none)
    (hhead : Levelled table head) {args : List Term} (hargs : ∀ a ∈ args, Levelled table a)
    (marks : Marks) :
    (canonicalNode table head args marks).1.HoistsBelow
      ↔ ((head.Carries → head.bareValue.places = 1) ∧ ∀ a ∈ args, ¬a.Carries)
        ∧ head.HoistsBelow ∧ ∀ a ∈ args, a.HoistsBelow := by
  have hcarries := @not_carries_leftArgs table hflat head args hargs
  have hbelow := hoistsBelow_leftArgs hflat head hargs
  have hbare : ∀ b : Term, ¬b.Carries → (b.HoistsBelow ↔ b.HoistsWithin) :=
    fun _ hb => hoistsBelow_of_none (conditional?_of_not_carries hb)
  rcases canonicalNode_eq table head args marks with ⟨t, hup, _⟩ | ⟨_, m, hnode⟩
  · obtain ⟨name, hname, _⟩ := handsUp_eq_true.mp hup
    cases hsymbol.symm.trans hname
  · rw [hnode, hoistsBelow_of_none (conditional?_of_not_symbol hsymbol _ m),
      hoistsWithin_of_not_symbol hsymbol, hcarries, ← hbelow, hhead.hoistsWithin_iff]
    constructor
    · rintro ⟨⟨_, hparts⟩, ⟨hbelowHead, hkeeps⟩, hwithin⟩
      have hleft := hcarries.mpr hparts
      exact ⟨⟨hkeeps, hparts⟩, hbelowHead, fun b hb => (hbare b (hleft b hb)).mpr (hwithin b hb)⟩
    · rintro ⟨⟨hkeeps, hparts⟩, hbelowHead, hleftBelow⟩
      have hleft := hcarries.mpr hparts
      have hwithin := hhead.hoistsWithin_iff.mpr ⟨hbelowHead, hkeeps⟩
      exact ⟨⟨hhead.keeps hwithin, hparts⟩, ⟨hbelowHead, hkeeps⟩,
        fun b hb => (hbare b (hleft b hb)).mp (hleftBelow b hb)⟩

omit hflat hordered in
/-- The value of a sequence has the places that the values of its arguments have together. -/
theorem places_bareValue_sequence {args : List Term} (hargs : ∀ a ∈ args, Levelled table a)
    (marks : Marks) :
    (canonicalNode table (.symbol "Sequence") args marks).1.bareValue.places
      = (args.map (places ∘ bareValue)).sum := by
  rw [← sum_places_leftArgs hargs]
  rcases canonicalNode_eq table (.symbol "Sequence") args marks with
    ⟨t, _, ht, hnode⟩ | ⟨hnone, m, hnode⟩
  · rw [hnode, eq_of_hoisted? ht, bareValue_pair, places_sequence, List.map_map]
  · have hbare := hoisted?_eq_none_iff.mp (hnone rfl)
    rw [hnode, bareValue_of_none (conditional?_of_ne (by decide) _ m), places_sequence]
    refine congrArg List.sum (List.map_congr_left fun b hb => ?_)
    rw [Function.comp_apply, bareValue_of_none (hbare b hb)]

/-- The value of another node has one place. -/
theorem places_bareValue_of_ne {head : Term} (hhead : head.symbolName? ≠ some "Sequence")
    {args : List Term} (hargs : ∀ a ∈ args, Levelled table a) (marks : Marks) :
    (canonicalNode table head args marks).1.bareValue.places = 1 := by
  refine places_of_not_sequence ?_
  rcases canonicalNode_eq table head args marks with ⟨t, _, ht, hnode⟩ | ⟨_, m, hnode⟩
  · rw [hnode, eq_of_hoisted? ht, bareValue_pair]
    exact isCall_eq_false_of_ne hhead _ _
  · rw [hnode]
    cases hconditional : (Term.app head (leftArgs table head args) m).conditional? with
    | none =>
      rw [bareValue_of_none hconditional]
      exact isCall_eq_false_of_ne hhead _ _
    | some pair =>
      -- the value is one of the arguments that sequences left
      obtain ⟨_, heq⟩ := conditional?_eq_some.mp hconditional
      injection heq with hsymbol hleft _
      rw [hsymbol, leftArgs_conditional hflat hordered] at hleft ⊢
      rw [hleft, bareValue_pair]
      refine (spread_spliced (dissolves_levelled (by decide)) hargs _ ?_).2
      rw [hleft]
      exact List.mem_cons_self

/-! ## Whole terms -/

omit hflat hordered in
theorem symbolName?_canonical (t : Term) : (t.canonical table).symbolName? = t.symbolName? := by
  cases t with
  | atom a => rfl
  | app head args marks =>
    obtain ⟨m, h⟩ := canonical_app table head args marks
    rw [h, symbolName?_canonicalNode]
    rfl

/-- **Canonical form carries the conditions that the term carries.** -/
theorem carries_canonical {t : Term} : (t.canonical table).Carries ↔ t.Carries := by
  induction t using induct with
  | atom a => exact Iff.rfl
  | app head args marks _ ihargs =>
    obtain ⟨m, h⟩ := canonical_app table head args marks
    rw [h, carries_canonicalNode hflat (levelled_map_canonical hflat hordered args) m marks]
    exact carries_congr (symbolName?_canonical head) (exists_carries_map ihargs) _ _

/-- **The value that canonical form leaves takes as many places as the term.** -/
theorem places_bareValue_canonical (t : Term) :
    (t.canonical table).bareValue.places = t.places := by
  induction t using induct with
  | atom a => rfl
  | app head args marks _ ihargs =>
    obtain ⟨m, h⟩ := canonical_app table head args marks
    have hargs := levelled_map_canonical hflat hordered args
    rw [h]
    by_cases hsequence : head.symbolName? = some "Sequence"
    · obtain rfl := symbolName?_eq_some.mp hsequence
      have hsame : (Term.symbol "Sequence").canonical table = .symbol "Sequence" := rfl
      rw [hsame, places_bareValue_sequence hargs, List.map_map, places_sequence]
      exact congrArg List.sum (List.map_congr_left ihargs)
    · have hcanonical : (head.canonical table).symbolName? ≠ some "Sequence" := by
        rwa [symbolName?_canonical]
      rw [places_bareValue_of_ne hflat hordered hcanonical hargs,
        places_of_not_sequence (isCall_eq_false_of_ne hsequence args marks)]

theorem keeps_iff_canonical (t : Term) :
    t.Keeps ↔ ((t.canonical table).Carries → (t.canonical table).bareValue.places = 1) := by
  rw [carries_canonical hflat hordered, places_bareValue_canonical hflat hordered, Keeps]

theorem sum_places_canonical (args : List Term) :
    ((args.map (canonical table)).map (places ∘ bareValue)).sum = (args.map places).sum := by
  rw [List.map_map]
  exact congrArg List.sum
    (List.map_congr_left fun a _ => places_bareValue_canonical hflat hordered a)

/-- **Below what canonical form handed upwards all is as it was within the term.** -/
theorem hoistsBelow_canonical {t : Term} : (t.canonical table).HoistsBelow ↔ t.HoistsWithin := by
  induction t using induct with
  | atom a => exact hoistsBelow_of_none rfl
  | app head args marks ihhead ihargs =>
    obtain ⟨m, h⟩ := canonical_app table head args marks
    have hargs := levelled_map_canonical hflat hordered args
    have hbelow : (∀ a ∈ args.map (canonical table), a.HoistsBelow)
        ↔ ∀ a ∈ args, a.HoistsWithin := List.forall_mem_map.trans (forall₂_congr ihargs)
    rw [h]
    cases hsymbol : head.symbolName? with
    | none =>
      have hcanonical : (head.canonical table).symbolName? = none := by
        rw [symbolName?_canonical, hsymbol]
      have hhead := levelled_canonical hflat hordered head
      rw [hoistsBelow_canonicalNode_of_not_symbol hflat hcanonical hhead hargs m,
        hoistsWithin_of_not_symbol hsymbol, hbelow, ihhead, ← keeps_iff_canonical hflat hordered,
        List.forall_mem_map]
      simp only [carries_canonical hflat hordered]
    | some name =>
      obtain rfl := symbolName?_eq_some.mp hsymbol
      have hsame : (Term.symbol name).canonical table = .symbol name := rfl
      rw [hsame]
      by_cases hne : name = "ConditionalExpression"
      · subst hne
        rw [hoistsBelow_canonicalNode_conditional hflat hordered hargs m, hoistsWithin_conditional,
          hbelow, sum_places_canonical hflat hordered, List.forall_mem_map]
        simp only [← keeps_iff_canonical hflat hordered]
      · rw [hoistsBelow_canonicalNode_call hflat hne hargs m, hoistsWithin_call hne, hbelow]

/-- **Canonical form hoists fully exactly if the term does.** -/
theorem hoistsFully_canonical {t : Term} : (t.canonical table).HoistsFully ↔ t.HoistsFully := by
  have hlevelled := levelled_canonical hflat hordered t
  calc (t.canonical table).HoistsFully
      ↔ (t.canonical table).HoistsWithin := and_iff_right_of_imp hlevelled.keeps
    _ ↔ t.HoistsWithin ∧ t.Keeps := by
      rw [hlevelled.hoistsWithin_iff, hoistsBelow_canonical hflat hordered,
        ← keeps_iff_canonical hflat hordered]
    _ ↔ t.HoistsFully := and_comm

end

end Term

end TermRewriting
