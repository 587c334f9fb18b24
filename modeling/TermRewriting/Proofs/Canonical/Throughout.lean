import TermRewriting.Proofs.Canonical
import TermRewriting.Proofs.Replacement
import TermRewriting.Proofs.Term.Operations
import TermRewriting.Proofs.Term.TotalOrder

/-!
# Canonical form throughout a term

`canonical` goes through a term once, from the bottom up. Dissolving and sorting leave a canonical
node if the parts are canonical. Handing conditions upwards does not: it puts two new nodes below
the one that is looked at, the node with the bare values and the conjunction of the conditions, and
neither is looked at again. A value that comes out of its conditional expression may have the head
of the node that it is put into.

So all nodes of the result are canonical that are not part of a conditional expression
(`tidy_canonical`), and all nodes whatever if what is handed upwards on the way is canonical as it
is built (`every_canonical`). The latter is also necessary, since nothing that is built on the way
gets lost, unless `ConditionalExpression` is orderless: then the parts of a conditional expression
may be out of order until the node around it takes them apart.
-/

namespace TermRewriting

namespace Term

variable {table : SymbolTable}

/-! ## The arguments that a node is left with -/

theorem keepOr_dissolving? (name : String) (args : List Term) :
    keepOr args (dissolving? name args) = spliced name args := by
  unfold dissolving?
  split
  · rfl
  · next h => exact (spliced_eq_self (Bool.eq_false_iff.mpr h)).symm

theorem keepOr_sorting? (args : List Term) : keepOr args (sorting? args) = sortedArgs args := by
  unfold sorting?
  split
  · next h => exact (sortedArgs_eq_self h).symm
  · rfl

theorem keepOr_changedFurther (args : List Term) (change : List Term → Option (List Term))
    (earlier : Option (List Term)) :
    keepOr args (changedFurther args change earlier)
      = keepOr (keepOr args earlier) (change (keepOr args earlier)) := by
  unfold changedFurther
  cases change (keepOr args earlier) <;> rfl

/-- The arguments of a symbol after sequences and nested applications were dissolved. -/
def flattenedArgs (table : SymbolTable) (name : String) (args : List Term) : List Term :=
  if table.isFlat name then spliced name (spliced "Sequence" args) else spliced "Sequence" args

/-- An orderless symbol sorts its arguments last, whether or not they were in order. -/
theorem keepOr_changedArgs? (table : SymbolTable) (name : String) (args : List Term) :
    keepOr args (changedArgs? table (.symbol name) args)
      = if table.isOrderless name then sortedArgs (flattenedArgs table name args)
        else flattenedArgs table name args := by
  have hflattened : keepOr args (if (table.attributes name).isFlat then
        changedFurther args (dissolving? name) (dissolving? "Sequence" args)
        else dissolving? "Sequence" args) = flattenedArgs table name args := by
    unfold flattenedArgs SymbolTable.isFlat
    split
    · rw [keepOr_changedFurther, keepOr_dissolving?, keepOr_dissolving?]
    · rw [keepOr_dissolving?]
  unfold changedArgs? SymbolTable.isOrderless
  dsimp only [symbolName?]
  split
  · rw [keepOr_changedFurther, keepOr_sorting?, hflattened]
  · exact hflattened

/-- The arguments that a node is left with, before conditions are handed upwards. -/
def leftArgs (table : SymbolTable) (head : Term) (args : List Term) : List Term :=
  keepOr args (changedArgs? table head args)

theorem leftArgs_of_not_symbol {head : Term} (h : head.symbolName? = none) (args : List Term) :
    leftArgs table head args = spliced "Sequence" args := by
  unfold leftArgs changedArgs?
  rw [h]
  exact keepOr_dissolving? "Sequence" args

theorem mem_leftArgs {name : String} {args : List Term} {b : Term} :
    b ∈ leftArgs table (.symbol name) args ↔ b ∈ flattenedArgs table name args := by
  rw [leftArgs, keepOr_changedArgs?]
  split
  · exact (sortedArgs_perm _).mem_iff
  · exact Iff.rfl

theorem inOrder_leftArgs {name : String} (h : table.isOrderless name = true) (args : List Term) :
    inOrder (leftArgs table (.symbol name) args) = true := by
  rw [leftArgs, keepOr_changedArgs?, if_pos h]
  exact inOrder_sortedArgs _

/-! ## Dissolved parts -/

theorem forall_mem_pair {P : Term → Prop} {a b : Term} : (∀ c ∈ [a, b], P c) ↔ P a ∧ P b := by
  simp

/-- Applications of the symbol are canonical and hand a property on to their parts. -/
def Dissolves (table : SymbolTable) (P : Term → Prop) (name : String) : Prop :=
  ∀ a, P a → a.isCall name = true → a.IsCanonical table ∧ ∀ b ∈ a.args, P b

variable {P : Term → Prop} {args : List Term}

theorem spread_spliced (hP : Dissolves table P "Sequence") (hargs : ∀ a ∈ args, P a) :
    ∀ b ∈ spliced "Sequence" args, P b ∧ b.isCall "Sequence" = false := by
  refine forall_mem_spliced.mpr fun a ha => ⟨fun hcall => ⟨hargs a ha, hcall⟩, ?_⟩
  intro hcall b hb
  obtain ⟨hcanonical, hparts⟩ := hP a (hargs a ha) hcall
  exact ⟨hparts b hb, hcanonical.spread b hb⟩

theorem flat_spliced {name : String} (hflat : table.isFlat name = true)
    (hP : Dissolves table P name) (hargs : ∀ a ∈ args, P a ∧ a.isCall "Sequence" = false) :
    ∀ b ∈ spliced name args, (P b ∧ b.isCall "Sequence" = false) ∧ b.isCall name = false := by
  refine forall_mem_spliced.mpr fun a ha => ⟨fun hcall => ⟨hargs a ha, hcall⟩, ?_⟩
  intro hcall b hb
  obtain ⟨hcanonical, hparts⟩ := hP a (hargs a ha).1 hcall
  obtain ⟨items, marks, rfl⟩ := isCall_eq_true.mp hcall
  exact ⟨⟨hparts b hb, hcanonical.spread b hb⟩, hcanonical.flat name rfl hflat b hb⟩

theorem flat_flattenedArgs {name : String} (hsequence : Dissolves table P "Sequence")
    (hname : Dissolves table P name) (hargs : ∀ a ∈ args, P a) :
    ∀ b ∈ flattenedArgs table name args, (P b ∧ b.isCall "Sequence" = false)
      ∧ (table.isFlat name = true → b.isCall name = false) := by
  have hspread := spread_spliced hsequence hargs
  unfold flattenedArgs
  split
  · next hflat =>
    intro b hb
    obtain ⟨hb, hcall⟩ := flat_spliced hflat hname hspread b hb
    exact ⟨hb, fun _ => hcall⟩
  · next hflat => exact fun b hb => ⟨hspread b hb, fun h => absurd h hflat⟩

/-- **Dissolving and sorting leave a canonical node** of canonical parts, unless it has conditions
to hand upwards. -/
theorem settled_leftArgs {head : Term} (hsequence : Dissolves table P "Sequence")
    (hname : ∀ name, head = .symbol name → Dissolves table P name) (hargs : ∀ a ∈ args, P a) :
    (∀ b ∈ leftArgs table head args, P b)
      ∧ ((handsUp head = true → hoisted? head (leftArgs table head args) = none) →
          ∀ marks, IsCanonical table (.app head (leftArgs table head args) marks)) := by
  cases hsymbol : head.symbolName? with
  | none =>
    rw [leftArgs_of_not_symbol hsymbol]
    have hspread := spread_spliced hsequence hargs
    refine ⟨fun b hb => (hspread b hb).1, fun _ marks => ⟨fun b hb => (hspread b hb).2, ?_, ?_, ?_⟩⟩
    all_goals
      intro name hname
      cases hsymbol.symm.trans hname
  | some name =>
    obtain rfl := symbolName?_eq_some.mp hsymbol
    have hflat := flat_flattenedArgs hsequence (hname name rfl) hargs
    refine ⟨fun b hb => (hflat b (mem_leftArgs.mp hb)).1.1, fun hhoisted marks => ?_⟩
    constructor
    case spread => exact fun b hb => (hflat b (mem_leftArgs.mp hb)).1.2
    case flat =>
      rintro _ ⟨⟩ hisFlat b hb
      exact (hflat b (mem_leftArgs.mp hb)).2 hisFlat
    case ordered =>
      rintro _ ⟨⟩ horderless
      exact inOrder_leftArgs horderless args
    case unconditional =>
      rintro _ ⟨⟩ hne b hb
      exact hoisted?_eq_none_iff.mp (hhoisted (handsUp_eq_true.mpr ⟨name, rfl, hne⟩)) b hb

/-! ## One node after its parts -/

/-- A node either hands its conditions upwards, or keeps its head and is left with its arguments. -/
theorem canonicalNode_eq (table : SymbolTable) (head : Term) (args : List Term) (marks : Marks) :
    (∃ t, handsUp head = true ∧ hoisted? head (leftArgs table head args) = some t
        ∧ (canonicalNode table head args marks).1 = t)
      ∨ (handsUp head = true → hoisted? head (leftArgs table head args) = none)
        ∧ ∃ m, (canonicalNode table head args marks).1
            = .app head (leftArgs table head args) m := by
  unfold canonicalNode leftArgs
  dsimp only
  cases hhoisted : (if handsUp head then
    hoisted? head (keepOr args (changedArgs? table head args)) else none) with
  | some t =>
    obtain ⟨hup, ht⟩ := Option.ite_none_right_eq_some.mp hhoisted
    exact .inl ⟨t, hup, ht, rfl⟩
  | none =>
    refine .inr ⟨fun hup => ?_, ?_⟩
    · rwa [if_pos hup] at hhoisted
    · cases hnew : changedArgs? table head args with
      | none => exact ⟨marks, rfl⟩
      | some new => exact ⟨.fresh, rfl⟩

theorem canonical?_app (head : Term) (args : List Term) (marks : Marks) :
    (Term.app head args marks).canonical? table
      = let parts := rebuilt? head args (head.canonical? table) (canonicalAll? table args)
        let node := (keepOr (.app head args marks) parts).canonicalTop table
        if parts.isSome || node.2 then some node.1 else none := by
  rw [canonical?]
  cases rebuilt? head args (head.canonical? table) (canonicalAll? table args) with
  | some t => rfl
  | none =>
    dsimp only
    show _ = if (canonicalNode table head args marks).2 then
      some (canonicalNode table head args marks).1 else none
    cases hnode : canonicalNode table head args marks with
    | mk t changed => cases changed <;> rfl

theorem keepOr_canonicalAll? (args : List Term) :
    keepOr args (canonicalAll? table args) = args.map (canonical table) := by
  induction args with
  | nil => rfl
  | cons a as ih => rw [canonicalAll?, keepOr_relisted?, ih, List.map_cons, canonical]

/-- A term is put into canonical form by doing so with its parts and then with its node. -/
theorem canonical_app (table : SymbolTable) (head : Term) (args : List Term) (marks : Marks) :
    ∃ m, (Term.app head args marks).canonical table
      = (canonicalNode table (head.canonical table) (args.map (canonical table)) m).1 := by
  rw [← keepOr_canonicalAll?, canonical, canonical?_app, canonical]
  generalize canonicalAll? table args = newArgs
  generalize head.canonical? table = newHead
  dsimp only
  cases hparts : rebuilt? head args newHead newArgs with
  | none =>
    obtain ⟨rfl, rfl⟩ := rebuilt?_eq_none.mp hparts
    refine ⟨marks, ?_⟩
    show keepOr _ (if (canonicalNode table head args marks).2 then
        some (canonicalNode table head args marks).1 else none)
      = (canonicalNode table head args marks).1
    split
    · rfl
    · next hsame =>
      rw [canonicalNode_eq_self (Bool.eq_false_iff.mpr hsame)]
      rfl
  | some t =>
    have ht : t = apply (keepOr head newHead) (keepOr args newArgs) := by
      cases newHead <;> cases newArgs <;> cases hparts <;> rfl
    rw [ht]
    exact ⟨.fresh, rfl⟩

/-! ## Outside conditional expressions -/

/-- Every node is canonical that is not part of a conditional expression. Of those it is only said
that they do not stand in one another where their symbol is flat. -/
inductive Tidy (table : SymbolTable) : Term → Prop where
  | atom (a : Atom) : Tidy table (.atom a)
  | conditional {args : List Term} {marks : Marks} :
      (table.isFlat "ConditionalExpression" = true →
        ∀ a ∈ args, a.isCall "ConditionalExpression" = false) →
      Tidy table (.app (.symbol "ConditionalExpression") args marks)
  | node {head : Term} {args : List Term} {marks : Marks} :
      IsCanonical table (.app head args marks) → Tidy table head → (∀ a ∈ args, Tidy table a) →
      Tidy table (.app head args marks)

theorem isCanonical_atom (a : Atom) : IsCanonical table (.atom a) :=
  canonicalTop_eq_false_iff.mp rfl

theorem dissolves_tidy {name : String} (h : name ≠ "ConditionalExpression") :
    Dissolves table (Tidy table) name := by
  intro a ha hcall
  obtain ⟨items, marks, rfl⟩ := isCall_eq_true.mp hcall
  cases ha with
  | conditional _ => exact absurd rfl h
  | node hcanonical _ hitems => exact ⟨hcanonical, hitems⟩

theorem dissolves_tidy_sequence : Dissolves table (Tidy table) "Sequence" :=
  dissolves_tidy (by decide)

theorem Tidy.flat {a : Term} (ha : Tidy table a) (hcall : a.isCall "ConditionalExpression" = true)
    (hflat : table.isFlat "ConditionalExpression" = true) :
    ∀ b ∈ a.args, b.isCall "ConditionalExpression" = false := by
  obtain ⟨items, marks, rfl⟩ := isCall_eq_true.mp hcall
  cases ha with
  | conditional h => exact h hflat
  | node hcanonical _ _ => exact hcanonical.flat _ rfl hflat

theorem tidy_leftArgs {head : Term} (hhead : head ≠ .symbol "ConditionalExpression")
    (hargs : ∀ a ∈ args, Tidy table a) :
    (∀ b ∈ leftArgs table head args, Tidy table b)
      ∧ ((handsUp head = true → hoisted? head (leftArgs table head args) = none) →
          ∀ marks, IsCanonical table (.app head (leftArgs table head args) marks)) := by
  refine settled_leftArgs dissolves_tidy_sequence (fun name hname => dissolves_tidy ?_) hargs
  rintro rfl
  exact hhead hname

theorem tidy_canonicalNode {head : Term} (hhead : Tidy table head)
    (hargs : ∀ a ∈ args, Tidy table a) (marks : Marks) :
    Tidy table (canonicalNode table head args marks).1 := by
  by_cases hsymbol : head = .symbol "ConditionalExpression"
  · subst hsymbol
    rcases canonicalNode_eq table (.symbol "ConditionalExpression") args marks with
      ⟨_, hup, _⟩ | ⟨_, m, hnode⟩
    · cases hup
    · rw [hnode]
      refine .conditional fun hflat b hb => ?_
      have hspread := spread_spliced dissolves_tidy_sequence hargs
      rw [mem_leftArgs, flattenedArgs, if_pos hflat] at hb
      refine forall_mem_spliced.mpr (fun a ha => ⟨fun h => h, ?_⟩) b hb
      exact fun hcall => (hspread a ha).1.flat hcall hflat
  · obtain ⟨hnew, hcanonical⟩ := tidy_leftArgs hsymbol hargs
    rcases canonicalNode_eq table head args marks with
      ⟨t, _, ht, hnode⟩ | ⟨hnone, m, hnode⟩
    · rw [hnode, eq_of_hoisted? ht]
      refine .conditional fun _ b hb => ?_
      rcases List.mem_pair.mp hb with rfl | rfl
      · refine Bool.eq_false_iff.mpr fun hcall => hsymbol ?_
        obtain ⟨_, _, heq⟩ := isCall_eq_true.mp hcall
        exact (Term.app.inj heq).1
      · rfl
    · rw [hnode]
      exact .node (hcanonical hnone m) hhead hnew

theorem tidy_canonical (t : Term) : Tidy table (t.canonical table) := by
  induction t using induct with
  | atom a => exact .atom a
  | app head args marks ihhead ihargs =>
    obtain ⟨m, h⟩ := canonical_app table head args marks
    rw [h]
    exact tidy_canonicalNode ihhead (List.forall_mem_map.mpr ihargs) m

/-- A node of a tidy term is canonical if no node above it, itself included, is a conditional
expression. -/
theorem Tidy.isCanonical {t u : Term} {path : Path} (h : Tidy table t) (hu : t.at? path = some u)
    (habove : ∀ above v, above <+: path → t.at? above = some v →
      v.isCall "ConditionalExpression" = false) : u.IsCanonical table := by
  induction path generalizing t with
  | nil =>
    cases hu
    cases h with
    | atom a => exact isCanonical_atom a
    | conditional _ => cases habove [] _ List.prefix_rfl rfl
    | node hcanonical _ _ => exact hcanonical
  | cons d path ih =>
    cases h with
    | atom a => cases hu
    | conditional _ => cases habove [] _ List.nil_prefix rfl
    | node _ hhead hargs =>
      have hbelow : ∀ above v, above <+: path → at? (d :: above) (.app _ _ _) = some v →
          v.isCall "ConditionalExpression" = false := fun above v hprefix hv =>
        habove (d :: above) v (List.cons_prefix_cons.mpr ⟨rfl, hprefix⟩) hv
      cases d with
      | toHead => exact ih hhead hu hbelow
      | toArg i =>
        obtain ⟨a, ha, hu⟩ := Option.bind_eq_some_iff.mp hu
        refine ih (hargs a (List.mem_of_getElem? ha)) hu fun above v hprefix hv => ?_
        refine hbelow above v hprefix ?_
        rw [at?_app_toArg, ha]
        exact hv

/-! ## Throughout -/

/-- On the way to canonical form a node of the first term becomes the second, a conditional
expression with the conditions that it hands upwards. -/
inductive HandedUp (table : SymbolTable) : Term → Term → Prop where
  | node {head : Term} {args : List Term} {marks : Marks} {new : List Term} {u : Term} :
      new = leftArgs table (head.canonical table) (args.map (canonical table)) →
      handsUp (head.canonical table) = true → hoisted? (head.canonical table) new = some u →
      HandedUp table (.app head args marks) u
  | head {head : Term} {args : List Term} {marks : Marks} {u : Term} :
      HandedUp table head u → HandedUp table (.app head args marks) u
  | arg {head : Term} {args : List Term} {marks : Marks} {a u : Term} :
      a ∈ args → HandedUp table a u → HandedUp table (.app head args marks) u

/-- What is handed upwards on the way to canonical form is canonical as it is built: the conditional
expression as a node, and its value and condition as nodes. -/
def HandedUpInOrder (table : SymbolTable) (t : Term) : Prop :=
  ∀ u, HandedUp table t u → u.IsCanonical table ∧ ∀ a ∈ u.args, a.IsCanonical table

theorem every_isCanonical_iff {t : Term} :
    t.Every (IsCanonical table) ↔ ∀ path u, t.at? path = some u → u.IsCanonical table := by
  constructor
  · intro h path u hu
    cases h.at? hu with
    | atom a => exact isCanonical_atom a
    | app hnode _ _ => exact hnode
  · intro h
    exact every_of_at? fun path head args marks hu => h path _ hu

theorem dissolves_every (name : String) :
    Dissolves table (fun a => a.Every (IsCanonical table)) name := by
  intro a ha hcall
  obtain ⟨items, marks, rfl⟩ := isCall_eq_true.mp hcall
  obtain ⟨hnode, _, hitems⟩ := every_app.mp ha
  exact ⟨hnode, hitems⟩

/-- **All nodes become canonical** if what is handed upwards is. -/
theorem every_canonical {t : Term} (h : HandedUpInOrder table t) :
    (t.canonical table).Every (IsCanonical table) := by
  induction t using induct with
  | atom a => exact .atom a
  | app head args marks ihhead ihargs =>
    have hhead := ihhead fun u hu => h u (.head hu)
    have hargs : ∀ a ∈ args.map (canonical table), a.Every (IsCanonical table) :=
      List.forall_mem_map.mpr fun a ha => ihargs a ha fun u hu => h u (.arg ha hu)
    obtain ⟨hnew, hcanonical⟩ := @settled_leftArgs table _ _ (head.canonical table)
      (dissolves_every _) (fun name _ => dissolves_every name) hargs
    obtain ⟨m, hm⟩ := canonical_app table head args marks
    rw [hm]
    rcases canonicalNode_eq table (head.canonical table) (args.map (canonical table)) m
      with ⟨t, hup, ht, hnode⟩ | ⟨hnone, m', hnode⟩
    · obtain ⟨htop, hparts⟩ := h t (.node rfl hup ht)
      rw [hnode]
      obtain rfl := eq_of_hoisted? ht
      obtain ⟨hvalue, hcondition⟩ := forall_mem_pair.mp hparts
      refine .app htop (.atom _) (forall_mem_pair.mpr ⟨.app hvalue hhead ?_, ?_⟩)
      · exact List.forall_mem_map.mpr fun a ha => (hnew a ha).bareValue
      · exact .app hcondition (.atom _) fun c hc => every_of_mem_conditions hnew hc
    · rw [hnode]
      exact .app (hcanonical hnone m') hhead hnew

section

variable (hordered : table.isOrderless "ConditionalExpression" = false)

include hordered

/-- What is dissolved is canonical if its parts are, none of them a sequence. -/
theorem every_of_call {a : Term} {name : String} (ha : Tidy table a) (hcall : a.isCall name = true)
    (hparts : ∀ b ∈ a.args, b.Every (IsCanonical table) ∧ b.isCall "Sequence" = false) :
    a.Every (IsCanonical table) := by
  obtain ⟨items, marks, rfl⟩ := isCall_eq_true.mp hcall
  refine .app ?_ (.atom _) fun b hb => (hparts b hb).1
  cases ha with
  | node hcanonical _ _ => exact hcanonical
  | conditional hflat =>
    refine ⟨fun b hb => (hparts b hb).2, ?_, ?_, ?_⟩
    · rintro _ ⟨⟩
      exact hflat
    · rintro _ ⟨⟩ h
      rw [hordered] at h
      cases h
    · rintro _ ⟨⟩ hne
      exact absurd rfl hne

theorem every_of_spliced {name : String} (hargs : ∀ a ∈ args, Tidy table a)
    (h : ∀ b ∈ spliced name args, b.Every (IsCanonical table) ∧ b.isCall "Sequence" = false) :
    ∀ a ∈ args, a.Every (IsCanonical table) := by
  intro a ha
  obtain ⟨hkept, hparts⟩ := forall_mem_spliced.mp h a ha
  cases hcall : a.isCall name with
  | false => exact (hkept hcall).1
  | true => exact every_of_call hordered (hargs a ha) hcall (hparts hcall)

/-- Nothing that is not canonical gets lost among the arguments. -/
theorem every_of_leftArgs {head : Term} (hargs : ∀ a ∈ args, Tidy table a)
    (h : ∀ b ∈ leftArgs table head args,
      b.Every (IsCanonical table) ∧ b.isCall "Sequence" = false) :
    ∀ a ∈ args, a.Every (IsCanonical table) := by
  cases hsymbol : head.symbolName? with
  | none =>
    rw [leftArgs_of_not_symbol hsymbol] at h
    exact every_of_spliced hordered hargs h
  | some name =>
    obtain rfl := symbolName?_eq_some.mp hsymbol
    have hflattened : ∀ b ∈ flattenedArgs table name args,
        b.Every (IsCanonical table) ∧ b.isCall "Sequence" = false :=
      fun b hb => h b (mem_leftArgs.mpr hb)
    unfold flattenedArgs at hflattened
    split at hflattened
    · have hspread := spread_spliced dissolves_tidy_sequence hargs
      have hevery := every_of_spliced hordered (fun a ha => (hspread a ha).1) hflattened
      exact every_of_spliced hordered hargs fun b hb => ⟨hevery b hb, (hspread b hb).2⟩
    · exact every_of_spliced hordered hargs hflattened

/-- **Nothing that is not canonical gets lost:** if all nodes of a node in canonical form are
canonical, so were those of its parts. -/
theorem every_of_canonicalNode {head : Term} {marks : Marks} (hargs : ∀ a ∈ args, Tidy table a)
    (h : (canonicalNode table head args marks).1.Every (IsCanonical table)) :
    head.Every (IsCanonical table) ∧ ∀ a ∈ args, a.Every (IsCanonical table) := by
  rcases canonicalNode_eq table head args marks with
    ⟨t, hup, ht, hnode⟩ | ⟨_, m, hnode⟩
  · rw [hnode, eq_of_hoisted? ht] at h
    obtain ⟨_, _, hparts⟩ := every_app.mp h
    obtain ⟨hvalue, hcondition⟩ := forall_mem_pair.mp hparts
    obtain ⟨hinner, hhead, hvalues⟩ := every_app.mp hvalue
    obtain ⟨hconjunction, _, hconditions⟩ := every_app.mp hcondition
    have hsymbol : head ≠ .symbol "ConditionalExpression" := by
      rintro rfl
      cases hup
    have htidy := (tidy_leftArgs hsymbol hargs).1
    refine ⟨hhead, @every_of_leftArgs _ _ hordered head hargs fun b hb => ?_⟩
    have hbare := List.mem_map_of_mem (f := bareValue) hb
    cases hconditional : b.conditional? with
    | none =>
      have hsame : b.bareValue = b := by simp [bareValue, hconditional]
      rw [hsame] at hbare
      exact ⟨hvalues b hbare, hinner.spread b hbare⟩
    | some pair =>
      -- the value and the condition both stay, in different places
      obtain ⟨v, c⟩ := pair
      have hvalue : b.bareValue = v := by simp [bareValue, hconditional]
      have hc : c ∈ conditions _ := List.mem_filterMap.mpr ⟨b, hb, by rw [hconditional]; rfl⟩
      rw [hvalue] at hbare
      obtain ⟨marks, rfl⟩ := conditional?_eq_some.mp hconditional
      have hcall : (Term.app (.symbol "ConditionalExpression") [v, c] marks).isCall
          "ConditionalExpression" = true := rfl
      refine ⟨every_of_call hordered (htidy _ hb) hcall (forall_mem_pair.mpr ⟨?_, ?_⟩), rfl⟩
      · exact ⟨hvalues v hbare, hinner.spread v hbare⟩
      · exact ⟨hconditions c hc, hconjunction.spread c hc⟩
  · rw [hnode] at h
    obtain ⟨hcanonical, hhead, hnew⟩ := every_app.mp h
    exact ⟨hhead, every_of_leftArgs hordered hargs fun b hb =>
      ⟨hnew b hb, hcanonical.spread b hb⟩⟩

theorem handedUpInOrder_of_every {t : Term}
    (h : (t.canonical table).Every (IsCanonical table)) : HandedUpInOrder table t := by
  induction t using induct with
  | atom a =>
    intro u hu
    cases hu
  | app head args marks ihhead ihargs =>
    obtain ⟨m, hm⟩ := canonical_app table head args marks
    rw [hm] at h
    obtain ⟨hhead, hargs⟩ := every_of_canonicalNode hordered
      (List.forall_mem_map.mpr fun a _ => tidy_canonical a) h
    intro u hu
    cases hu with
    | head hu => exact ihhead hhead u hu
    | arg ha hu => exact ihargs _ ha (hargs _ (List.mem_map_of_mem ha)) u hu
    | node hnew hup hhoisted =>
      subst hnew
      rcases canonicalNode_eq table (head.canonical table) (args.map (canonical table)) m
        with ⟨t, _, ht, hnode⟩ | ⟨hnone, _⟩
      · obtain rfl := Option.some.inj (hhoisted.symm.trans ht)
        rw [hnode] at h
        obtain rfl := eq_of_hoisted? ht
        obtain ⟨htop, _, hparts⟩ := every_app.mp h
        refine ⟨htop, fun a ha => ?_⟩
        exact every_isCanonical_iff.mp (hparts a ha) [] a rfl
      · cases hhoisted.symm.trans (hnone hup)

end

/-! ## Alike terms -/

variable {Q : Term → Prop} (hQ : Robust Q)

include hQ

theorem Alike.canonical? (table : SymbolTable) {s t : Term} (h : Alike Q s t) :
    Option.Rel (Alike Q) (s.canonical? table) (t.canonical? table) := by
  induction s using induct generalizing t with
  | atom a =>
    rcases h.cases with ⟨_, hs, rfl⟩ | ⟨j, as, m, k, bs, n, hs, _⟩
    · cases hs
      exact .none
    · cases hs
  | app j as m ihhead ihargs =>
    rcases h.cases with ⟨a, hs, _⟩ | ⟨j', as', m', k, bs, n, hs, rfl, hm, hn, hhead, hargs⟩
    · cases hs
    cases hs
    have hall : Option.Rel (AlikeAll Q) (canonicalAll? table as) (canonicalAll? table bs) := by
      clear h hm hn
      induction hargs with
      | nil => exact .none
      | cons hab hrest ih =>
        obtain ⟨ha, has⟩ := List.forall_mem_cons.mp ihargs
        exact alike_relisted? (fun h => .cons h .nil) hab hrest (ha hab) (ih has)
    have hparts := alike_rebuilt? hQ hhead hargs (ihhead hhead) hall
    obtain ⟨hnode, hchanged⟩ := Alike.canonicalTop hQ table (optionRel_getD hparts h)
    have hsome : (rebuilt? j as (j.canonical? table) (canonicalAll? table as)).isSome
        = (rebuilt? k bs (k.canonical? table) (canonicalAll? table bs)).isSome := by
      rcases optionRel_cases hparts with ⟨hx, hy⟩ | ⟨u, u', hx, hy, _⟩
      · rw [hx, hy]
      · rw [hx, hy]
        rfl
    rw [canonical?_app, canonical?_app]
    dsimp only
    unfold keepOr
    rw [hsome, hchanged]
    split
    · exact .some hnode
    · exact .none

/-- **Alike terms have alike canonical forms.** -/
theorem Alike.canonical (table : SymbolTable) {s t : Term} (h : Alike Q s t) :
    Alike Q (s.canonical table) (t.canonical table) :=
  optionRel_getD (h.canonical? hQ table) h

end Term

end TermRewriting
