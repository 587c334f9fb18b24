import TermRewriting.Proofs.Pattern.Congruence
import TermRewriting.Proofs.Pattern.FirstOrder
import TermRewriting.Proofs.Selection

/-!
# Arguments in any order

Under an orderless symbol the single arguments of a pattern try all selections of the items. If
there are as many items as arguments, these are the arrangements of the items, so a match does not
depend on how the items are arranged (`Term.isSome_searchMatch_of_perm_items`), whatever the
arguments ask, and whatever hooks answer. If the symbol is flat and there are more items, one of the
arguments takes a group of those that are left.

Nor does a match depend on how the pattern lists its arguments, as far as these are first-order
patterns (`Term.isSome_searchMatch_of_perm_args`): the items, or the items picked and the group, are
arranged in the same way, and the uses of names that arise are the same in another order. For other
arguments this fails, because a condition sees only the names that are bound before it.

Both need that the pattern is read as an application of the symbol. A pattern head like
`HoldPattern` has another meaning, even if it has attributes.
-/

namespace TermRewriting

/-! ## Searches that succeed -/

namespace Search

variable {α β : Type}

theorem isSome_andThen_iff {s : Search β} {next : β → Search α} :
    (s.andThen next).result.isSome = true
      ↔ ∃ b, s.result = some b ∧ (next b).result.isSome = true := by
  simp only [Option.isSome_iff_exists, andThen_eq_some]
  exact exists_comm.trans (exists_congr fun _ => exists_and_left)

theorem isSome_firstOf_iff {choices : List β} {attempt : β → Search α} :
    (firstOf choices attempt).result.isSome = true
      ↔ ∃ b ∈ choices, (attempt b).result.isSome = true := by
  rw [result_firstOf, List.findSome?_isSome_iff]

theorem isSome_firstSelection_iff {r : Nat} {items : List β}
    {attempt : List β → List β → Search α} :
    (firstSelection r items attempt).result.isSome = true
      ↔ ∃ picked rest, (picked, rest) ∈ selections r items
        ∧ (attempt picked rest).result.isSome = true := by
  rw [result_firstSelection, List.findSome?_isSome_iff, Prod.exists]

end Search

namespace Term

/-! ## Arguments of an orderless head -/

section

variable {c : MatchContext} {head : Term} {flat : Bool} {args items : List Term} {b : Bindings}

theorem matchOrderless_of_single (hsingle : args.any isVariadic = false) :
    matchOrderless head flat (args.map (slot c)) items b
      = if items.length < args.length then .fail
        else if args.length < items.length then
          if flat then matchAbsorbing head (args.map (searchMatch c)) items b else .fail
        else .firstSelection args.length items fun picked rest =>
          (matchEach (args.map (searchMatch c)) picked b).andThen (matchInOrder [] rest) := by
  have hnone : args.filter isVariadic = [] := by
    rw [List.filter_eq_nil_iff]
    simpa using hsingle
  rw [matchOrderless]
  simp only [singles_slots, filter_isVariadic_slot, filter_single_eq_self hsingle, hnone,
    List.map_nil, List.isEmpty_nil, Bool.true_and, decide_eq_true_eq, List.length_map]

/-- **As many items as arguments are matched if they are in some order.** -/
theorem isSome_matchOrderless_iff (hsingle : args.any isVariadic = false)
    (hlength : items.length = args.length) :
    (matchOrderless head flat (args.map (slot c)) items b).result.isSome = true
      ↔ ∃ picked, picked.Perm items
        ∧ (matchEach (args.map (searchMatch c)) picked b).result.isSome = true := by
  rw [matchOrderless_of_single hsingle, if_neg (by omega), if_neg (by omega), ← hlength,
    Search.isSome_firstSelection_iff]
  constructor
  · rintro ⟨picked, rest, hmem, hmatch⟩
    obtain ⟨hperm, rfl⟩ := mem_selections_length.mp hmem
    obtain ⟨b₁, heach, _⟩ := Search.isSome_andThen_iff.mp hmatch
    exact ⟨picked, hperm, Option.isSome_iff_exists.mpr ⟨b₁, heach⟩⟩
  · rintro ⟨picked, hperm, hmatch⟩
    obtain ⟨b₁, heach⟩ := Option.isSome_iff_exists.mp hmatch
    exact ⟨picked, [], mem_selections_length.mpr ⟨hperm, rfl⟩,
      Search.isSome_andThen_iff.mpr ⟨b₁, heach, rfl⟩⟩

/-- The applications of an orderless symbol that a compound pattern under the symbol matches are
those whose arguments are matched in any order. -/
theorem result_compound_of_orderless {name : String} {marks marks' : Marks}
    (hcompound : IsCompound (.symbol name) args) (horderless : c.table.isOrderless name = true)
    (hcount : args.any isVariadic = false → c.table.isFlat name = false →
      items.length = args.length) :
    ((Term.app (.symbol name) args marks).searchMatch c
        (.app (.symbol name) items marks') b).result
      = (matchOrderless (.symbol name) (c.table.isFlat name) (args.map (slot c)) items
          b).result := by
  rw [result_compound hcompound hcount, matchArgs]
  exact congrArg Search.result (if_pos horderless)

end

/-! ## Rearranged items -/

/-- **A compound pattern under an orderless symbol accepts the items in any order**, whatever
patterns of one term its arguments are. -/
theorem isSome_compound_of_perm {c : MatchContext} {name : String} {args items items' : List Term}
    (hcompound : IsCompound (.symbol name) args) (horderless : c.table.isOrderless name = true)
    (hsingle : args.any isVariadic = false) (hlength : items.length = args.length)
    (hperm : items.Perm items') (marks n n' : Marks) (b : Bindings) :
    ((Term.app (.symbol name) args marks).searchMatch c
        (.app (.symbol name) items n) b).result.isSome
      = ((Term.app (.symbol name) args marks).searchMatch c
        (.app (.symbol name) items' n') b).result.isSome := by
  have hlength' : items'.length = args.length := hperm.length_eq.symm.trans hlength
  rw [result_compound_of_orderless hcompound horderless fun _ _ => hlength,
    result_compound_of_orderless hcompound horderless fun _ _ => hlength', Bool.eq_iff_iff,
    isSome_matchOrderless_iff hsingle hlength, isSome_matchOrderless_iff hsingle hlength']
  exact exists_congr fun picked =>
    and_congr_left' ⟨fun h => h.trans hperm, fun h => h.trans hperm.symm⟩

end Term

/-- Whether a pattern head with these arguments hands the whole term on to one of them. -/
def PatternHead.handsOn : PatternHead → List Term → Bool
  | .named, [.symbol _, _] => true
  | .condition, [_, _] => true
  | .test, [_, _] => true
  | .alternatives, _ :: _ => true
  | .optional, _ :: _ => true
  | .hold, _ :: _ => true
  | _, _ => false

theorem isSome_matchRun_single (spec : RunSpec) (t : Term) :
    (spec.matchRun [t] []).result.isSome
      = (decide (spec.least ≤ 1) && t.hasOptionalType spec.type) := by
  rw [RunSpec.matchRun, List.all_cons, List.all_nil, Bool.and_true]
  split
  · next hfits =>
    rw [List.length_singleton] at hfits
    rw [hfits]
    split <;> rfl
  · next hfits =>
    rw [List.length_singleton, Bool.not_eq_true] at hfits
    rw [hfits]
    rfl

/-- A pattern head that hands nothing on looks at the type of the term alone. -/
theorem Pattern.ReadFrom.isSome_eq {c : MatchContext} {special : PatternHead} {args : List Term}
    {p : Pattern} (h : ReadFrom special args p) (hown : special.handsOn args = false) {t t' : Term}
    (htype : ∀ type, t.hasOptionalType type = t'.hasOptionalType type) :
    (p.matcher c t []).result.isSome = (p.matcher c t' []).result.isSome := by
  cases h with
  | never => rfl
  | blank => simp only [Pattern.matcher, htype]
  | namedBlank name rest =>
    simp only [Pattern.matcher, htype]
    split <;> rfl
  | run least => rw [Pattern.matcher, isSome_matchRun_single, isSome_matchRun_single, htype]
  | namedRun least name rest =>
    rw [Pattern.matcher, isSome_matchRun_single, isSome_matchRun_single, htype]
  | named name inner => cases hown
  | condition inner proviso => cases hown
  | test inner predicate => cases hown
  | alternatives =>
    cases args with
    | nil => rfl
    | cons a as => cases hown
  | optional inner rest => cases hown
  | hold inner rest => cases hown

namespace Term

theorem searchMatch_of_patternHead {c : MatchContext} {name : String} {args : List Term}
    {marks : Marks} {p : Pattern}
    (h : (PatternHead.ofName? name).bind
      (Pattern.ofPatternHead? args (Pattern.ofTerms args)) = some p) :
    (Term.app (.symbol name) args marks).searchMatch c = p.matcher c := by
  funext t b
  rw [searchMatch, Pattern.ofTerm, Pattern.ofParts, symbolName?, Option.bind_some, h,
    Option.getD_some]

/-- **Any arrangement of the items is accepted** by a pattern under an orderless symbol, unless it
hands the items on together. -/
theorem isSome_searchMatch_of_perm_items {c : MatchContext} {name : String}
    {args items items' : List Term} (horderless : c.table.isOrderless name = true)
    (hown : (PatternHead.ofName? name).any (·.handsOn args) = false)
    (hsingle : args.any isVariadic = false) (hlength : items.length = args.length)
    (hperm : items.Perm items') (marks n n' : Marks) :
    ((Term.app (.symbol name) args marks).searchMatch c
        (.app (.symbol name) items n) []).result.isSome
      = ((Term.app (.symbol name) args marks).searchMatch c
        (.app (.symbol name) items' n') []).result.isSome := by
  cases hread : (PatternHead.ofName? name).bind
      (Pattern.ofPatternHead? args (Pattern.ofTerms args)) with
  | none => exact isSome_compound_of_perm hread horderless hsingle hlength hperm marks n n' []
  | some p =>
    obtain ⟨special, hspecial, hp⟩ := Option.bind_eq_some_iff.mp hread
    rw [hspecial, Option.any_some] at hown
    rw [searchMatch_of_patternHead hread]
    refine (Pattern.readFrom_of_ofPatternHead? hp).isSome_eq hown fun type => ?_
    cases type with
    | none => rfl
    | some type => rfl

/-- Conditions, tests and alternatives share a name, and a hook answers. -/
theorem isSome_searchMatch_of_perm_items_shared :
    let x := call "NamedBlank" [symbol "x"]
    let below := call "Condition" [x, call "Less" [symbol "x", integer 2]]
    let tested := call "PatternTest" [call "Blank" [], symbol "IntegerQ"]
    let either := call "Alternatives" [symbol "a", call "g" [x]]
    let args := [tested, either, below]
    let c : MatchContext := ⟨.ofAttributes [("f", .orderless)],
      ⟨some fun predicate t => predicate.identical (symbol "IntegerQ") && t.identical (integer 7),
        none⟩⟩
    let items := [integer 7, call "g" [integer 1], integer 1]
    let items' := [integer 1, integer 7, call "g" [integer 1]]
    c.table.isOrderless "f" = true ∧ (PatternHead.ofName? "f").any (·.handsOn args) = false
      ∧ args.any isVariadic = false ∧ items.length = args.length ∧ items.Perm items'
      ∧ ((call "f" args).searchMatch c (call "f" items) []).result.isSome = true
      ∧ ((call "f" args).searchMatch c (call "f" items) []).result.isSome
        = ((call "f" args).searchMatch c (call "f" items') []).result.isSome := by
  have hperm : ([integer 7, call "g" [integer 1]] ++ [integer 1]).Perm
      ([integer 1] ++ [integer 7, call "g" [integer 1]]) := List.perm_append_comm
  exact ⟨rfl, rfl, rfl, rfl, hperm, rfl,
    isSome_searchMatch_of_perm_items rfl rfl rfl (by rfl) hperm .fresh .fresh .fresh⟩

/-- A pattern head that hands the whole term on does not reorder it. -/
theorem isSome_searchMatch_of_held :
    let table : SymbolTable := .ofAttributes [("HoldPattern", .orderless)]
    let args := [apply (call "Blank" []) [integer 1, integer 2], integer 0]
    let items := [integer 1, integer 2]
    let items' := [integer 2, integer 1]
    table.isOrderless "HoldPattern" = true ∧ args.any isVariadic = false
      ∧ items.length = args.length ∧ items.Perm items'
      ∧ ((call "HoldPattern" args).matches? table (call "HoldPattern" items)).isSome = true
      ∧ ((call "HoldPattern" args).matches? table (call "HoldPattern" items')).isSome = false :=
  ⟨rfl, rfl, rfl, .swap _ _ _, rfl, rfl⟩

/-! ## Rearranged arguments -/

section

variable {c : MatchContext} {head : Term} {flat : Bool} {args args' items : List Term}
  {b : Bindings}

theorem isSome_matchEach_iff (hargs : ∀ a ∈ args, a.BindsUses c)
    (hlength : items.length = args.length) :
    (matchEach (args.map (searchMatch c)) items b).result.isSome = true
      ↔ ∃ uses, FitsAll args items uses ∧ b.Accepts uses := by
  simp only [Option.isSome_iff_exists, matchEach_eq_some_iff hargs hlength,
    Bindings.accepts_iff_exists]
  exact exists_comm.trans (exists_congr fun _ => exists_and_left)

theorem coherent_grouped (hhead : head.Coherent) (hitems : ∀ t ∈ items, t.Coherent) :
    (grouped head items).Coherent := by
  rcases items with _ | ⟨_, _ | _⟩
  · exact coherent_apply hhead hitems
  · exact hitems _ List.mem_cons_self
  · exact coherent_apply hhead hitems

/-- One argument takes the group of the items that the others leave. -/
theorem isSome_matchAbsorbing_iff (hargs : ∀ a ∈ args, a.BindsUses c) :
    (matchAbsorbing head (args.map (searchMatch c)) items b).result.isSome = true
      ↔ ∃ a others picked rest uses first, (a, others) ∈ pickOne args
        ∧ (picked, rest) ∈ selections others.length items ∧ FitsAll others picked uses
        ∧ Fits a (grouped head rest) first ∧ b.Accepts (uses ++ first) := by
  have hbinds {a : Term} {others : List Term} (hpick : (a, others) ∈ pickOne args) :
      ∀ x ∈ a :: others, x.BindsUses c :=
    fun x hx => hargs x ((pickOne_perm hpick).mem_iff.mp hx)
  rw [matchAbsorbing, Search.isSome_firstOf_iff, pickOne_map]
  constructor
  · rintro ⟨p, hp, hpicked⟩
    obtain ⟨⟨a, others⟩, hpick, rfl⟩ := List.mem_map.mp hp
    obtain ⟨picked, rest, hselection, hselected⟩ := Search.isSome_firstSelection_iff.mp hpicked
    obtain ⟨b₁, heach, hwide⟩ := Search.isSome_andThen_iff.mp hselected
    obtain ⟨d, hwide⟩ := Option.isSome_iff_exists.mp hwide
    obtain ⟨ha, hothers⟩ := List.forall_mem_cons.mp (hbinds hpick)
    rw [List.length_map] at hselection
    have hlength : picked.length = others.length := length_of_mem_selections hselection
    obtain ⟨uses, hall, hbind₁⟩ := (matchEach_eq_some_iff hothers hlength).mp heach
    obtain ⟨first, hone, hbind⟩ := ha.mp hwide
    have haccepts := Bindings.accepts_iff_exists.mpr ⟨d, hbind⟩
    exact ⟨a, others, picked, rest, uses, first, hpick, hselection, hall, hone,
      Bindings.accepts_append.mpr ⟨b₁, hbind₁, haccepts⟩⟩
  · rintro ⟨a, others, picked, rest, uses, first, hpick, hselection, hall, hone, haccepts⟩
    obtain ⟨ha, hothers⟩ := List.forall_mem_cons.mp (hbinds hpick)
    obtain ⟨b₁, hbind₁, haccepts⟩ := Bindings.accepts_append.mp haccepts
    obtain ⟨d, hbind⟩ := Bindings.accepts_iff_exists.mp haccepts
    have heach := (matchEach_eq_some_iff hothers hall.length_eq).mpr ⟨uses, hall, hbind₁⟩
    have hwide := Option.isSome_iff_exists.mpr ⟨d, ha.mpr ⟨first, hone, hbind⟩⟩
    refine ⟨_, List.mem_map_of_mem hpick, Search.isSome_firstSelection_iff.mpr
      ⟨picked, rest, ?_, Search.isSome_andThen_iff.mpr ⟨b₁, heach, hwide⟩⟩⟩
    rwa [List.length_map]

theorem isSome_matchAbsorbing_of_perm (hargs : ∀ a ∈ args, a.FirstOrder c.table)
    (hperm : args.Perm args') (hhead : head.Coherent) (hitems : ∀ t ∈ items, t.Coherent)
    (h : (matchAbsorbing head (args.map (searchMatch c)) items b).result.isSome = true) :
    (matchAbsorbing head (args'.map (searchMatch c)) items b).result.isSome = true := by
  obtain ⟨a, others, picked, rest, uses, first, hpick, hselection, hall, hone, haccepts⟩ :=
    (isSome_matchAbsorbing_iff fun a ha => (hargs a ha).bindsUses).mp h
  -- the same argument takes the group, and the others keep their items
  have hsplit : (a :: others).Perm args' := (pickOne_perm hpick).trans hperm
  obtain ⟨others', hpick'⟩ := exists_mem_pickOne (hsplit.mem_iff.mp List.mem_cons_self)
  have hothers : others.Perm others' := (hsplit.trans (pickOne_perm hpick').symm).cons_inv
  obtain ⟨picked', uses', hall', hpicked, huses⟩ := hall.perm hothers
  have hselection' := mem_selections_of_perm hselection hpicked
  rw [hothers.length_eq] at hselection'
  have hcoherent : ∀ t ∈ picked ++ rest, t.Coherent :=
    fun t ht => hitems t ((selections_perm hselection).mem_iff.mp ht)
  obtain ⟨hcoherentPicked, hcoherentRest⟩ := List.forall_mem_append.mp hcoherent
  have hcoherentUses : ∀ use ∈ uses ++ first, use.2.Coherent :=
    List.forall_mem_append.mpr
      ⟨hall.coherent hcoherentPicked, hone.coherent (coherent_grouped hhead hcoherentRest)⟩
  refine (isSome_matchAbsorbing_iff
    fun a ha => (hargs a (hperm.mem_iff.mpr ha)).bindsUses).mpr ?_
  exact ⟨a, others', picked', rest, uses', first, hpick', hselection', hall', hone,
    haccepts.perm hcoherentUses (huses.append_right first)⟩

/-- **Reordered first-order arguments match the same items.** -/
theorem isSome_matchOrderless_of_perm (hargs : ∀ a ∈ args, a.FirstOrder c.table)
    (hperm : args.Perm args') (hhead : head.Coherent) (hitems : ∀ t ∈ items, t.Coherent)
    (h : (matchOrderless head flat (args.map (slot c)) items b).result.isSome = true) :
    (matchOrderless head flat (args'.map (slot c)) items b).result.isSome = true := by
  have hargs' : ∀ a ∈ args', a.FirstOrder c.table := fun a ha => hargs a (hperm.mem_iff.mpr ha)
  have hsingle {args : List Term} (hargs : ∀ a ∈ args, a.FirstOrder c.table) :
      args.any isVariadic = false := by
    simpa using fun a ha => (hargs a ha).isVariadic
  have hsame := hperm.length_eq
  obtain hlt | heq | hgt := Nat.lt_trichotomy items.length args.length
  · rw [matchOrderless_of_single (hsingle hargs), if_pos hlt] at h
    cases h
  · rw [isSome_matchOrderless_iff (hsingle hargs) heq] at h
    rw [isSome_matchOrderless_iff (hsingle hargs') (heq.trans hsame)]
    obtain ⟨picked, hpicked, hmatch⟩ := h
    have hlength : picked.length = args.length := hpicked.length_eq.trans heq
    obtain ⟨uses, hall, haccepts⟩ :=
      (isSome_matchEach_iff (fun a ha => (hargs a ha).bindsUses) hlength).mp hmatch
    have hcoherent := hall.coherent fun t ht => hitems t (hpicked.mem_iff.mp ht)
    obtain ⟨picked', uses', hall', hpicked', huses⟩ := hall.perm hperm
    exact ⟨picked', hpicked'.symm.trans hpicked,
      (isSome_matchEach_iff (fun a ha => (hargs' a ha).bindsUses) hall'.length_eq).mpr
        ⟨uses', hall', haccepts.perm hcoherent huses⟩⟩
  · rw [matchOrderless_of_single (hsingle hargs), if_neg (by omega), if_pos hgt] at h
    rw [matchOrderless_of_single (hsingle hargs'), if_neg (by omega), if_pos (hsame ▸ hgt)]
    split at h
    · next hflat =>
      rw [if_pos hflat]
      exact isSome_matchAbsorbing_of_perm hargs hperm hhead hitems h
    · cases h

end

theorem IsCompound.perm {head : Term} {args args' : List Term} (h : IsCompound head args)
    (hperm : args.Perm args') : IsCompound head args' :=
  h.of_length rfl hperm.length_eq.symm

theorem isSome_alternatives_iff {c : MatchContext} {name : String} {args : List Term}
    {marks : Marks} {t : Term} {b : Bindings}
    (hname : PatternHead.ofName? name = some .alternatives) :
    ((Term.app (.symbol name) args marks).searchMatch c t b).result.isSome = true
      ↔ ∃ a ∈ args, (a.searchMatch c t b).result.isSome = true := by
  have hread : (PatternHead.ofName? name).bind
      (Pattern.ofPatternHead? args (Pattern.ofTerms args))
        = some (.alternatives (Pattern.ofTerms args)) := by
    rw [hname]
    rfl
  rw [searchMatch_of_patternHead hread, Pattern.matcher, matchers_ofTerms, matchFirst,
    Search.isSome_firstOf_iff]
  simp

section

variable {c : MatchContext} {name : String} {args args' : List Term} {t : Term} {b : Bindings}

theorem isSome_compound_of_perm_args (hcompound : IsCompound (.symbol name) args)
    (horderless : c.table.isOrderless name = true) (hargs : ∀ a ∈ args, a.FirstOrder c.table)
    (hperm : args.Perm args') (ht : t.Coherent) {marks marks' : Marks}
    (h : ((Term.app (.symbol name) args marks).searchMatch c t b).result.isSome = true) :
    ((Term.app (.symbol name) args' marks').searchMatch c t b).result.isSome = true := by
  obtain ⟨d, hd⟩ := Option.isSome_iff_exists.mp h
  obtain ⟨items, n, rfl, hcount, _⟩ := (searchMatch_compound_eq_some_iff hcompound).mp hd
  obtain ⟨_, hhead, hitems⟩ := every_app.mp ht
  have hcount' : args'.any isVariadic = false → c.table.isFlat name = false →
      items.length = args'.length := by
    rw [← hperm.length_eq, ← hperm.any_eq]
    exact hcount
  rw [result_compound_of_orderless hcompound horderless hcount] at h
  rw [result_compound_of_orderless (hcompound.perm hperm) horderless hcount']
  exact isSome_matchOrderless_of_perm hargs hperm hhead hitems h

/-- **The arguments of a pattern under an orderless symbol can be listed in any order**, if they are
first-order patterns. So can alternatives; the other pattern heads tell their arguments apart. -/
theorem isSome_searchMatch_of_perm_args (horderless : c.table.isOrderless name = true)
    (hargs : ∀ a ∈ args, a.FirstOrder c.table)
    (hread : IsCompound (.symbol name) args ∨ PatternHead.ofName? name = some .alternatives)
    (hperm : args.Perm args') (ht : t.Coherent) (marks marks' : Marks) (b : Bindings) :
    ((Term.app (.symbol name) args marks).searchMatch c t b).result.isSome
      = ((Term.app (.symbol name) args' marks').searchMatch c t b).result.isSome := by
  rw [Bool.eq_iff_iff]
  obtain hcompound | halternatives := hread
  · constructor
    · exact isSome_compound_of_perm_args hcompound horderless hargs hperm ht
    · exact isSome_compound_of_perm_args (hcompound.perm hperm) horderless
        (fun a ha => hargs a (hperm.mem_iff.mpr ha)) hperm.symm ht
  · rw [isSome_alternatives_iff halternatives, isSome_alternatives_iff halternatives]
    simp only [hperm.mem_iff]

end

/-- The argument that takes a group shares its name with another argument. -/
theorem isSome_searchMatch_of_perm_args_grouped :
    let x := call "NamedBlank" [symbol "x"]
    let args := [x, call "g" [x], integer 5]
    let args' := [call "g" [x], integer 5, x]
    let c : MatchContext := ⟨.ofAttributes [("f", Attributes.flat.union .orderless)], {}⟩
    let t := call "f" [integer 1, call "g" [call "f" [integer 1, integer 2]], integer 2, integer 5]
    c.table.isOrderless "f" = true ∧ (∀ a ∈ args, a.FirstOrder c.table)
      ∧ (IsCompound (.symbol "f") args ∨ PatternHead.ofName? "f" = some .alternatives)
      ∧ args.Perm args' ∧ t.Coherent
      ∧ ((call "f" args).searchMatch c t []).result.isSome = true
      ∧ ((call "f" args).searchMatch c t []).result.isSome
        = ((call "f" args').searchMatch c t []).result.isSome := by
  intro x args args' c t
  have horderless : c.table.isOrderless "f" = true := by
    simp only [c]
    rfl
  have hx : x.FirstOrder c.table := .namedBlank "x" _ _
  have hg : (call "g" [x]).FirstOrder c.table := by
    refine .compound _ rfl ?_ ?_ (List.forall_mem_singleton.mpr hx) <;>
      simp only [c] <;> rfl
  have hargs : ∀ a ∈ args, a.FirstOrder c.table := by
    simp only [args, List.forall_mem_cons]
    exact ⟨hx, hg, .atom _, nofun⟩
  have hread : IsCompound (.symbol "f") args ∨ PatternHead.ofName? "f" = some .alternatives :=
    .inl rfl
  have hperm : args.Perm args' :=
    (List.perm_append_comm : ([x] ++ [call "g" [x], integer 5]).Perm _)
  have ht : t.Coherent := coherent_of_unmarked_eq rfl
  have hmatch : ((call "f" args).searchMatch c t []).result.isSome = true := by
    simp only [c, args, t, x]
    rfl
  exact ⟨horderless, hargs, hread, hperm, ht, hmatch,
    isSome_searchMatch_of_perm_args horderless hargs hread hperm ht .fresh .fresh []⟩

/-- A pattern head that hands the whole term on looks at its first argument alone. -/
theorem isSome_searchMatch_of_held_args :
    let table : SymbolTable :=
      .ofAttributes [("HoldPattern", Attributes.flat.union .orderless)]
    let args := [integer 2, integer 1]
    let args' := [integer 1, integer 2]
    table.isFlat "HoldPattern" = true ∧ table.isOrderless "HoldPattern" = true
      ∧ (∀ a ∈ args, a.FirstOrder table) ∧ args.Perm args'
      ∧ ((call "HoldPattern" args).matches? table (integer 1)).isSome = false
      ∧ ((call "HoldPattern" args').matches? table (integer 1)).isSome = true := by
  refine ⟨rfl, rfl, ?_, .swap _ _ _, rfl, rfl⟩
  simp only [List.forall_mem_cons]
  exact ⟨.atom _, .atom _, nofun⟩

end Term

end TermRewriting
