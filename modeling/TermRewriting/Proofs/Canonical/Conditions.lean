import TermRewriting.Proofs.Canonical.Throughout

/-!
# What becomes of conditions

A node whose arguments are conditional becomes a conditional expression itself, so a condition goes
up from argument to node until it stands at the top of a term, below a head that is no symbol, or in
another conditional expression (`Term.Carries`). What it leaves behind goes on as a value, and that
value may be a sequence, which comes to stand for any number of arguments (`Term.places`). Dissolved
next to its condition, in a conditional expression, it is no longer a value with a condition.

`Term.HoistsFully` says of a term, before anything is done to it, that none of this happens. Of a term
all of whose nodes are canonical it says that all conditions have been hoisted
(`hoistsFully_iff_hoisted`). After canonical form is made once, only what was handed upwards may not be
canonical yet (`Levelled`).
-/

namespace TermRewriting

namespace Term

/-! ## Conditions on their way up -/

/-- A condition comes to stand at the top of the term: symbols hand the conditions of their arguments
upwards, and a conditional expression has one of its own. -/
inductive Carries : Term → Prop where
  | conditional (args : List Term) (marks : Marks) :
      Carries (.app (.symbol "ConditionalExpression") args marks)
  | handed {name : String} {args : List Term} {a : Term} (marks : Marks) :
      a ∈ args → Carries a → Carries (.app (.symbol name) args marks)

theorem not_carries_atom (a : Atom) : ¬(Term.atom a).Carries := nofun

theorem not_carries_of_not_symbol {head : Term} (h : head.symbolName? = none) (args : List Term)
    (marks : Marks) : ¬(Term.app head args marks).Carries := by
  intro hcarries
  cases hcarries with
  | conditional => cases h
  | handed _ _ => cases h

theorem carries_of_isCall {t : Term} (h : t.isCall "ConditionalExpression" = true) : t.Carries := by
  obtain ⟨args, marks, rfl⟩ := isCall_eq_true.mp h
  exact .conditional args marks

theorem carries_call {name : String} (h : name ≠ "ConditionalExpression") {args : List Term}
    {marks : Marks} : (Term.app (.symbol name) args marks).Carries ↔ ∃ a ∈ args, a.Carries := by
  constructor
  · intro hcarries
    cases hcarries with
    | conditional => exact absurd rfl h
    | handed _ ha hcarries => exact ⟨_, ha, hcarries⟩
  · rintro ⟨a, ha, hcarries⟩
    exact .handed marks ha hcarries

/-- What a term carries depends on the name of the head and on what the arguments carry. -/
theorem carries_congr {head k : Term} (hname : k.symbolName? = head.symbolName?)
    {args bs : List Term} (hargs : (∃ b ∈ bs, b.Carries) ↔ ∃ a ∈ args, a.Carries)
    (m n : Marks) : (Term.app k bs n).Carries ↔ (Term.app head args m).Carries := by
  cases hsymbol : head.symbolName? with
  | none =>
    exact iff_of_false (not_carries_of_not_symbol (hname.trans hsymbol) _ _)
      (not_carries_of_not_symbol hsymbol _ _)
  | some name =>
    obtain rfl := symbolName?_eq_some.mp hsymbol
    obtain rfl := symbolName?_eq_some.mp (hname.trans hsymbol)
    by_cases hne : name = "ConditionalExpression"
    · subst hne
      exact iff_of_true (.conditional _ _) (.conditional _ _)
    · rw [carries_call hne, carries_call hne, hargs]

theorem exists_carries_map {f : Term → Term} {args : List Term}
    (h : ∀ a ∈ args, ((f a).Carries ↔ a.Carries)) :
    (∃ b ∈ args.map f, b.Carries) ↔ ∃ a ∈ args, a.Carries := by
  constructor
  · rintro ⟨_, hmem, hcarries⟩
    obtain ⟨a, ha, rfl⟩ := List.mem_map.mp hmem
    exact ⟨a, ha, (h a ha).mp hcarries⟩
  · rintro ⟨a, ha, hcarries⟩
    exact ⟨_, List.mem_map_of_mem ha, (h a ha).mpr hcarries⟩

theorem carries_unmarked {t : Term} : t.unmarked.Carries ↔ t.Carries := by
  induction t using induct with
  | atom a => exact Iff.rfl
  | app head args marks _ ihargs =>
    rw [unmarked_app]
    exact carries_congr (symbolName?_unmarked head) (exists_carries_map ihargs) _ _

/-! ## Places -/

mutual

/-- The number of arguments that the term comes to stand for when sequences dissolve. -/
def places : Term → Nat
  | .atom _ => 1
  | .app head args _ => if head.symbolName? = some "Sequence" then placesAll args else 1

def placesAll : List Term → Nat
  | [] => 0
  | a :: as => a.places + placesAll as

end

theorem placesAll_eq_sum (args : List Term) : placesAll args = (args.map places).sum := by
  induction args with
  | nil => rfl
  | cons a as ih => rw [placesAll, ih, List.map_cons, List.sum_cons]

theorem places_sequence (args : List Term) (marks : Marks) :
    (Term.app (.symbol "Sequence") args marks).places = (args.map places).sum := by
  rw [places, placesAll_eq_sum]
  rfl

theorem places_of_not_sequence {t : Term} (h : t.isCall "Sequence" = false) : t.places = 1 := by
  cases t with
  | atom a => rfl
  | app head args marks =>
    rw [isCall, callArgs?_app] at h
    rw [places]
    split
    · next hname =>
      rw [if_pos hname] at h
      cases h
    · rfl

theorem places_of_isCall {t : Term} (h : t.isCall "ConditionalExpression" = true) :
    t.places = 1 := by
  obtain ⟨args, marks, rfl⟩ := isCall_eq_true.mp h
  rfl

theorem sum_places_of_spread {args : List Term} (h : ∀ a ∈ args, a.isCall "Sequence" = false) :
    (args.map places).sum = args.length := by
  have hone : args.map places = args.map fun _ => 1 :=
    List.map_congr_left fun a ha => places_of_not_sequence (h a ha)
  rw [hone]
  simp

@[simp] theorem places_unmarked (t : Term) : t.unmarked.places = t.places := by
  induction t using induct with
  | atom a => rfl
  | app head args marks ihhead ihargs =>
    have hargs : args.map (places ∘ unmarked) = args.map places := List.map_congr_left ihargs
    rw [unmarked_app, places, places, symbolName?_unmarked, placesAll_eq_sum, placesAll_eq_sum,
      List.map_map, hargs]

/-! ## Values that stay beside their conditions -/

/-- If a condition comes to stand at the top of the term, its value stays one argument. -/
def Keeps (t : Term) : Prop := t.Carries → t.places = 1

/-- What becomes of the node hands all conditions upwards and loses none: a conditional expression is
left with two arguments, conditions in its parts and in its head keep their values, and none comes to
stand below a head that is no symbol. -/
structure HoistsAt (t : Term) : Prop where
  pair : t.isCall "ConditionalExpression" = true →
    (t.args.map places).sum = 2 ∧ ∀ a ∈ t.args, a.Keeps
  head : t.head.Keeps
  parts : t.head.symbolName? = none → ∀ a ∈ t.args, ¬a.Carries

/-- All conditions within the term are handed upwards, and none is lost on the way. -/
def HoistsWithin (t : Term) : Prop := t.Every HoistsAt

/-- All conditions are handed upwards, and none is lost, the one at the top included. -/
def HoistsFully (t : Term) : Prop := t.Keeps ∧ t.HoistsWithin

theorem keeps_atom (a : Atom) : (Term.atom a).Keeps := fun h => absurd h (not_carries_atom a)

theorem keeps_of_not_sequence {t : Term} (h : t.isCall "Sequence" = false) : t.Keeps :=
  fun _ => places_of_not_sequence h

theorem hoistsWithin_conditional {args : List Term} {marks : Marks} :
    (Term.app (.symbol "ConditionalExpression") args marks).HoistsWithin
      ↔ ((args.map places).sum = 2 ∧ ∀ a ∈ args, a.Keeps) ∧ ∀ a ∈ args, a.HoistsWithin := by
  constructor
  · intro h
    obtain ⟨hnode, _, hargs⟩ := every_app.mp h
    exact ⟨hnode.pair rfl, hargs⟩
  · rintro ⟨hpair, hargs⟩
    exact .app ⟨fun _ => hpair, keeps_atom _, nofun⟩ (.atom _) hargs

theorem hoistsWithin_call {name : String} (h : name ≠ "ConditionalExpression") {args : List Term}
    {marks : Marks} :
    (Term.app (.symbol name) args marks).HoistsWithin ↔ ∀ a ∈ args, a.HoistsWithin := by
  constructor
  · exact fun h => (every_app.mp h).2.2
  · refine fun hargs => .app ⟨fun hcall => ?_, keeps_atom _, nofun⟩ (.atom _) hargs
    obtain ⟨_, _, heq⟩ := isCall_eq_true.mp hcall
    cases heq
    exact absurd rfl h

theorem hoistsWithin_of_not_symbol {head : Term} (h : head.symbolName? = none) {args : List Term}
    {marks : Marks} :
    (Term.app head args marks).HoistsWithin
      ↔ (head.Keeps ∧ ∀ a ∈ args, ¬a.Carries) ∧ head.HoistsWithin ∧ ∀ a ∈ args, a.HoistsWithin := by
  constructor
  · intro hterm
    obtain ⟨hnode, hhead, hargs⟩ := every_app.mp hterm
    exact ⟨⟨hnode.head, hnode.parts h⟩, hhead, hargs⟩
  · rintro ⟨⟨hkeeps, hparts⟩, hhead, hargs⟩
    refine .app ⟨fun hcall => ?_, hkeeps, fun _ => hparts⟩ hhead hargs
    obtain ⟨_, _, heq⟩ := isCall_eq_true.mp hcall
    cases heq
    cases h

/-! ## Marks -/

theorem keeps_unmarked {t : Term} : t.unmarked.Keeps ↔ t.Keeps := by
  rw [Keeps, carries_unmarked, places_unmarked, Keeps]

theorem hoistsAt_unmarked {t : Term} : t.unmarked.HoistsAt ↔ t.HoistsAt := by
  have hplaces : (t.args.map unmarked).map places = t.args.map places := by
    rw [List.map_map]
    exact List.map_congr_left fun a _ => places_unmarked a
  constructor
  · rintro ⟨pair, head, parts⟩
    simp only [isCall_unmarked, args_unmarked, head_unmarked, symbolName?_unmarked, hplaces,
      List.forall_mem_map, keeps_unmarked, carries_unmarked] at pair head parts
    exact ⟨pair, head, parts⟩
  · rintro ⟨pair, head, parts⟩
    constructor
    all_goals
      simp only [isCall_unmarked, args_unmarked, head_unmarked, symbolName?_unmarked, hplaces,
        List.forall_mem_map, keeps_unmarked, carries_unmarked]
      assumption

theorem hoistsWithin_unmarked {t : Term} : t.unmarked.HoistsWithin ↔ t.HoistsWithin := by
  unfold HoistsWithin
  induction t using induct with
  | atom a => exact Iff.rfl
  | app head args marks ihhead ihargs =>
    have hnode := @hoistsAt_unmarked (.app head args marks)
    rw [unmarked_app] at hnode ⊢
    rw [every_app, every_app, hnode, ihhead, List.forall_mem_map]
    exact and_congr_right fun _ => and_congr_right fun _ => forall₂_congr ihargs

theorem hoistsFully_unmarked {t : Term} : t.unmarked.HoistsFully ↔ t.HoistsFully :=
  and_congr keeps_unmarked hoistsWithin_unmarked

/-! ## After a pass -/

/-- The value and the condition of a conditional expression hoist within, another term does itself.
So much is known of a term in canonical form whose condition was just handed upwards. -/
def HoistsBelow (t : Term) : Prop :=
  t.bareValue.HoistsWithin ∧ ∀ value condition, t.conditional? = some (value, condition) →
    condition.HoistsWithin

theorem bareValue_of_none {t : Term} (h : t.conditional? = none) : t.bareValue = t := by
  rw [bareValue, h]

@[simp] theorem bareValue_pair (value condition : Term) (marks : Marks) :
    (Term.app (.symbol "ConditionalExpression") [value, condition] marks).bareValue = value := by
  rw [bareValue, conditional?_pair]

theorem hoistsBelow_of_none {t : Term} (h : t.conditional? = none) :
    t.HoistsBelow ↔ t.HoistsWithin := by
  rw [HoistsBelow, bareValue_of_none h, h]
  exact and_iff_left nofun

theorem hoistsBelow_pair {value condition : Term} {marks : Marks} :
    (Term.app (.symbol "ConditionalExpression") [value, condition] marks).HoistsBelow
      ↔ value.HoistsWithin ∧ condition.HoistsWithin := by
  rw [HoistsBelow, bareValue_pair, conditional?_pair]
  constructor
  · rintro ⟨hvalue, hcondition⟩
    exact ⟨hvalue, hcondition _ _ rfl⟩
  · rintro ⟨hvalue, hcondition⟩
    refine ⟨hvalue, fun _ _ h => ?_⟩
    cases h
    exact hcondition

theorem conditional?_of_not_symbol {head : Term} (h : head.symbolName? = none) (args : List Term)
    (marks : Marks) : (Term.app head args marks).conditional? = none := by
  rw [conditional?, callArgs?_app, h]
  rfl

theorem conditional?_of_ne {name : String} (h : name ≠ "ConditionalExpression") (args : List Term)
    (marks : Marks) : (Term.app (.symbol name) args marks).conditional? = none := by
  rw [conditional?, callArgs?_app, if_neg]
  intro hname
  exact h (Option.some.inj hname)

theorem isCall_eq_false_of_ne {head : Term} {name : String} (h : head.symbolName? ≠ some name)
    (args : List Term) (marks : Marks) : (Term.app head args marks).isCall name = false := by
  rw [isCall, callArgs?_app, if_neg h]
  rfl

theorem isCall_of_conditional? {t value condition : Term}
    (h : t.conditional? = some (value, condition)) : t.isCall "ConditionalExpression" = true := by
  obtain ⟨marks, rfl⟩ := conditional?_eq_some.mp h
  rfl

theorem conditional?_of_not_carries {t : Term} (h : ¬t.Carries) : t.conditional? = none := by
  cases hconditional : t.conditional? with
  | none => rfl
  | some pair => exact absurd (carries_of_isCall (isCall_of_conditional? hconditional)) h

/-- A conditional expression of two arguments is recognized as one. -/
theorem conditional?_isSome_of_length {args : List Term} (marks : Marks) (h : args.length = 2) :
    (Term.app (.symbol "ConditionalExpression") args marks).conditional? ≠ none := by
  obtain ⟨value, condition, rfl⟩ := List.length_eq_two.mp h
  rw [conditional?_pair]
  nofun

/-- A conditional expression without sequences has a value and a condition, or is none. -/
theorem hoistsBelow_conditional {args : List Term} {marks : Marks}
    (hspread : ∀ a ∈ args, a.isCall "Sequence" = false) :
    (Term.app (.symbol "ConditionalExpression") args marks).HoistsBelow
      ↔ args.length = 2 ∧ ∀ a ∈ args, a.HoistsWithin := by
  cases hconditional : (Term.app (.symbol "ConditionalExpression") args marks).conditional? with
  | none =>
    rw [hoistsBelow_of_none hconditional, hoistsWithin_conditional, sum_places_of_spread hspread]
    constructor
    · exact fun h => ⟨h.1.1, h.2⟩
    · exact fun h => ⟨⟨h.1, fun a ha => keeps_of_not_sequence (hspread a ha)⟩, h.2⟩
  | some pair =>
    obtain ⟨_, heq⟩ := conditional?_eq_some.mp hconditional
    cases heq
    rw [hoistsBelow_pair, forall_mem_pair]
    exact (and_iff_right rfl).symm

/-- The form that terms have after they were put into canonical form once: all nodes are canonical but
the value and the condition that were handed upwards, and the condition is one argument. -/
inductive Levelled (table : SymbolTable) : Term → Prop where
  | atom (a : Atom) : Levelled table (.atom a)
  | handed {value condition : Term} {marks : Marks} : condition.isCall "Sequence" = false →
      Levelled table (.app (.symbol "ConditionalExpression") [value, condition] marks)
  | node {head : Term} {args : List Term} {marks : Marks} :
      IsCanonical table (.app head args marks) → Levelled table head →
      (∀ a ∈ args, Levelled table a) → Levelled table (.app head args marks)

variable {table : SymbolTable}

theorem levelled_of_every {t : Term} (h : t.Every (IsCanonical table)) : Levelled table t := by
  induction h with
  | atom a => exact .atom a
  | app hnode _ _ ihhead ihargs => exact .node hnode ihhead ihargs

theorem dissolves_levelled {name : String} (h : name ≠ "ConditionalExpression") :
    Dissolves table (Levelled table) name := by
  intro a ha hcall
  obtain ⟨items, marks, rfl⟩ := isCall_eq_true.mp hcall
  cases ha with
  | handed _ => exact absurd rfl h
  | node hcanonical _ hitems => exact ⟨hcanonical, hitems⟩

theorem Levelled.places_condition {t value condition : Term} (ht : Levelled table t)
    (h : t.conditional? = some (value, condition)) : condition.places = 1 := by
  obtain ⟨marks, rfl⟩ := conditional?_eq_some.mp h
  cases ht with
  | handed hcondition => exact places_of_not_sequence hcondition
  | node hcanonical _ _ =>
    exact places_of_not_sequence (hcanonical.spread condition (by simp [Term.args]))

/-- **A condition at the top has arrived there,** if nothing gets lost within the term. -/
theorem Levelled.isCall_of_carries {t : Term} (ht : Levelled table t) (hwithin : t.HoistsWithin)
    (h : t.Carries) : t.isCall "ConditionalExpression" = true := by
  induction h with
  | conditional args marks => rfl
  | @handed name args a marks ha _ ih =>
    by_cases hname : name = "ConditionalExpression"
    · rw [hname]
      rfl
    · cases ht with
      | handed _ => exact absurd rfl hname
      | node hcanonical _ hargs =>
        -- the argument would be a conditional expression that was not handed upwards
        have hbelow := (hoistsWithin_call hname).mp hwithin a ha
        have hnone := hcanonical.unconditional name rfl hname a ha
        obtain ⟨items, marks', rfl⟩ := isCall_eq_true.mp (ih (hargs a ha) hbelow)
        refine absurd hnone ?_
        cases hargs _ ha with
        | handed _ =>
          rw [conditional?_pair]
          nofun
        | node hitems _ _ =>
          have hsum := (hoistsWithin_conditional.mp hbelow).1.1
          have hspread : ∀ b ∈ items, b.isCall "Sequence" = false := hitems.spread
          rw [sum_places_of_spread hspread] at hsum
          exact conditional?_isSome_of_length marks' hsum

theorem Levelled.keeps {t : Term} (ht : Levelled table t) (hwithin : t.HoistsWithin) : t.Keeps :=
  fun h => places_of_isCall (ht.isCall_of_carries hwithin h)

/-- What is missing below to hoist within is that the value keeps its place beside the condition. -/
theorem Levelled.hoistsWithin_iff {t : Term} (ht : Levelled table t) :
    t.HoistsWithin ↔ t.HoistsBelow ∧ (t.Carries → t.bareValue.places = 1) := by
  cases hconditional : t.conditional? with
  | none =>
    rw [hoistsBelow_of_none hconditional, bareValue_of_none hconditional]
    exact ⟨fun h => ⟨h, ht.keeps h⟩, And.left⟩
  | some pair =>
    obtain ⟨value, condition⟩ := pair
    have hcondition := ht.places_condition hconditional
    have hcarries := carries_of_isCall (isCall_of_conditional? hconditional)
    obtain ⟨marks, rfl⟩ := conditional?_eq_some.mp hconditional
    rw [hoistsWithin_conditional, hoistsBelow_pair, bareValue_pair, forall_mem_pair,
      forall_mem_pair, List.map_cons, List.map_cons, List.map_nil, List.sum_cons, List.sum_cons,
      List.sum_nil, hcondition]
    constructor
    · rintro ⟨⟨hsum, _⟩, hparts⟩
      exact ⟨hparts, fun _ => by omega⟩
    · rintro ⟨hparts, hvalue⟩
      have hone := hvalue hcarries
      exact ⟨⟨by omega, fun _ => hone, fun _ => hcondition⟩, hparts⟩

/-- Where all conditions are handed upwards the value takes as many places as the term. -/
theorem Levelled.places_bareValue {t : Term} (ht : Levelled table t) (hwithin : t.HoistsWithin) :
    t.bareValue.places = t.places := by
  cases hconditional : t.conditional? with
  | none => rw [bareValue_of_none hconditional]
  | some pair =>
    have hcall := isCall_of_conditional? hconditional
    rw [(ht.hoistsWithin_iff.mp hwithin).2 (carries_of_isCall hcall), places_of_isCall hcall]

/-- Parts of dissolved applications are not conditional. -/
theorem Levelled.hoistsBelow_of_isCall {a : Term} (ha : Levelled table a) {name : String}
    (hname : name ≠ "ConditionalExpression") (hcall : a.isCall name = true) :
    a.HoistsBelow ↔ ∀ b ∈ a.args, b.HoistsBelow := by
  obtain ⟨hcanonical, _⟩ := dissolves_levelled hname a ha hcall
  obtain ⟨items, marks, rfl⟩ := isCall_eq_true.mp hcall
  rw [hoistsBelow_of_none (conditional?_of_ne hname items marks), hoistsWithin_call hname]
  exact forall₂_congr fun b hb =>
    (hoistsBelow_of_none (hcanonical.unconditional name rfl hname b hb)).symm

/-- The values of the parts of a sequence are the parts themselves. -/
theorem Levelled.places_of_isCall_sequence {a : Term} (ha : Levelled table a)
    (hcall : a.isCall "Sequence" = true) :
    (places ∘ bareValue) a = (a.args.map (places ∘ bareValue)).sum := by
  obtain ⟨hcanonical, _⟩ := dissolves_levelled (by decide) a ha hcall
  obtain ⟨items, marks, rfl⟩ := isCall_eq_true.mp hcall
  rw [Function.comp_apply, bareValue_of_none (conditional?_of_ne (by decide) items marks),
    places_sequence]
  refine congrArg List.sum (List.map_congr_left fun b hb => ?_)
  rw [Function.comp_apply,
    bareValue_of_none (hcanonical.unconditional "Sequence" rfl (by decide) b hb)]

/-! ## Canonical terms -/

/-- The node has two arguments if it is a conditional expression, and otherwise none of its arguments
is one. -/
def HoistedAt (t : Term) : Prop :=
  (t.isCall "ConditionalExpression" = true → t.args.length = 2)
    ∧ (t.isCall "ConditionalExpression" = false →
        ∀ a ∈ t.args, a.isCall "ConditionalExpression" = false)

/-- All conditions stand in conditional expressions of two arguments, each at the top of the term, of
a head, or of an argument of another conditional expression. -/
def Hoisted (t : Term) : Prop := t.Every HoistedAt

theorem hoistedAt_of_hoistsAt {head : Term} {args : List Term} {marks : Marks}
    (hcanonical : (Term.app head args marks).Every (IsCanonical table))
    (hwithin : (Term.app head args marks).HoistsWithin) :
    (Term.app head args marks).HoistedAt := by
  obtain ⟨hnode, _, hargs⟩ := every_app.mp hcanonical
  obtain ⟨hhoists, _, hparts⟩ := every_app.mp hwithin
  constructor
  · intro hcall
    exact (sum_places_of_spread hnode.spread).symm.trans (hhoists.pair hcall).1
  · intro hcall a ha
    refine Bool.eq_false_iff.mpr fun hconditional => ?_
    cases hsymbol : head.symbolName? with
    | none => exact hhoists.parts hsymbol a ha (carries_of_isCall hconditional)
    | some name =>
      -- the symbol would have to hand the condition upwards
      have hne : name ≠ "ConditionalExpression" := by
        rintro rfl
        rw [isCall, callArgs?_app, if_pos hsymbol] at hcall
        cases hcall
      have hnone := hnode.unconditional name hsymbol hne a ha
      obtain ⟨items, marks', rfl⟩ := isCall_eq_true.mp hconditional
      have hspread : ∀ b ∈ items, b.isCall "Sequence" = false := (every_app.mp (hargs _ ha)).1.spread
      have hsum := (hoistsWithin_conditional.mp (hparts _ ha)).1.1
      rw [sum_places_of_spread hspread] at hsum
      exact conditional?_isSome_of_length marks' hsum hnone

theorem hoistsAt_of_hoistedAt {head : Term} {args : List Term} {marks : Marks}
    (hcanonical : (Term.app head args marks).Every (IsCanonical table))
    (hhoisted : (Term.app head args marks).HoistedAt) (hhead : head.HoistsWithin)
    (hparts : ∀ a ∈ args, a.HoistsWithin) : (Term.app head args marks).HoistsAt := by
  obtain ⟨hnode, hheadCanonical, hargs⟩ := every_app.mp hcanonical
  constructor
  case pair =>
    intro hcall
    exact ⟨(sum_places_of_spread hnode.spread).trans (hhoisted.1 hcall),
      fun a ha => keeps_of_not_sequence (hnode.spread a ha)⟩
  case head => exact (levelled_of_every hheadCanonical).keeps hhead
  case parts =>
    intro hsymbol a ha hcarries
    have hcall := (levelled_of_every (hargs a ha)).isCall_of_carries (hparts a ha) hcarries
    have hnot : (Term.app head args marks).isCall "ConditionalExpression" = false :=
      isCall_eq_false_of_ne (by rw [show head.symbolName? = none from hsymbol]; nofun) args marks
    rw [hhoisted.2 hnot a ha] at hcall
    cases hcall

/-- **Where all nodes are canonical, all is hoisted that was to be hoisted.** -/
theorem hoistsFully_iff_hoisted {t : Term} (h : t.Every (IsCanonical table)) :
    t.HoistsFully ↔ t.Hoisted := by
  have hwithin : t.HoistsWithin ↔ t.Hoisted := by
    unfold HoistsWithin Hoisted
    induction t using induct with
    | atom a => exact iff_of_true (.atom a) (.atom a)
    | app head args marks ihhead ihargs =>
      obtain ⟨_, hhead, hargs⟩ := every_app.mp h
      constructor
      · intro hterm
        obtain ⟨_, hheadHoists, hparts⟩ := every_app.mp hterm
        exact .app (hoistedAt_of_hoistsAt h hterm) ((ihhead hhead).mp hheadHoists)
          fun a ha => (ihargs a ha (hargs a ha)).mp (hparts a ha)
      · intro hterm
        obtain ⟨hnode, hheadHoisted, hparts⟩ := every_app.mp hterm
        have hheadHoists := (ihhead hhead).mpr hheadHoisted
        have hpartsHoist := fun a ha => (ihargs a ha (hargs a ha)).mpr (hparts a ha)
        exact .app (hoistsAt_of_hoistedAt h hnode hheadHoists hpartsHoist) hheadHoists hpartsHoist
  rw [← hwithin]
  exact and_iff_right_of_imp (levelled_of_every h).keeps

end Term

end TermRewriting
