import TermRewriting.Pattern.Matching
import TermRewriting.Proofs.Term.Structure
import TermRewriting.RuleIndex

/-!
# What a match says about the shape of a term

The search of a pattern is followed along the term that describes it. What an application of a
pattern head describes is listed by `Pattern.ReadFrom`. A compound pattern is met only by
applications, and with a symbol for its head only by applications of that symbol
(`eq_app_of_searchMatch`); without places that vary and without a flat head it also fixes the number
of arguments. A literal pattern is met by its own structure alone
(`unmarked_eq_of_literal`). Holding a pattern or putting a condition on it only narrows it
(`searchMatch_core`).
-/

namespace TermRewriting

/-! ## Pattern heads -/

namespace Pattern

/-- The patterns that a pattern head with these arguments describes. -/
inductive ReadFrom : PatternHead → List Term → Pattern → Prop where
  | never (special : PatternHead) (args : List Term) : ReadFrom special args .never
  | blank (args : List Term) : ReadFrom .blank args (.blank args.head?)
  | namedBlank (name : String) (rest : List Term) :
      ReadFrom .namedBlank (.symbol name :: rest) (.namedBlank name rest[0]?)
  | run (least : Nat) (args : List Term) :
      ReadFrom (.run least) args (.run ⟨least, none, args.head?⟩)
  | namedRun (least : Nat) (name : String) (rest : List Term) :
      ReadFrom (.namedRun least) (.symbol name :: rest) (.run ⟨least, some name, rest[0]?⟩)
  | named (name : String) (inner : Term) :
      ReadFrom .named [.symbol name, inner] (.named name (ofTerm inner))
  | condition (inner proviso : Term) :
      ReadFrom .condition [inner, proviso] (.condition (ofTerm inner) proviso)
  | test (inner predicate : Term) :
      ReadFrom .test [inner, predicate] (.test (ofTerm inner) predicate)
  | alternatives (args : List Term) :
      ReadFrom .alternatives args (.alternatives (ofTerms args))
  | optional (inner : Term) (rest : List Term) : ReadFrom .optional (inner :: rest) (ofTerm inner)
  | hold (inner : Term) (rest : List Term) : ReadFrom .hold (inner :: rest) (ofTerm inner)

theorem exists_of_first {args : List Term} {name : String}
    (h : args.head?.bind Term.symbolName? = some name) : ∃ rest, args = .symbol name :: rest := by
  cases args with
  | nil => cases h
  | cons a rest =>
    obtain rfl := Term.symbolName?_eq_some.mp h
    exact ⟨rest, rfl⟩

theorem exists_of_ofNamedArgs? {least : Nat} {args : List Term} {spec : RunSpec}
    (h : RunSpec.ofNamedArgs? least args = some spec) :
    ∃ name rest, args = .symbol name :: rest ∧ spec = ⟨least, some name, rest[0]?⟩ := by
  obtain ⟨name, hname, rfl⟩ := Option.map_eq_some_iff.mp h
  obtain ⟨rest, rfl⟩ := exists_of_first hname
  exact ⟨name, rest, rfl, rfl⟩

theorem readFrom_of_ofPatternHead? {args : List Term} {special : PatternHead} {p : Pattern}
    (h : ofPatternHead? args (ofTerms args) special = some p) : ReadFrom special args p := by
  cases special with
  | blank =>
    cases h
    exact .blank args
  | namedBlank =>
    simp only [ofPatternHead?] at h
    split at h
    · next name hname =>
      cases h
      obtain ⟨rest, rfl⟩ := exists_of_first hname
      exact .namedBlank name rest
    · cases h
      exact .never _ args
  | named =>
    simp only [ofPatternHead?] at h
    split at h
    · next name inner _ _ heq =>
      cases h
      cases heq
      exact .named name inner
    · cases h
      exact .never _ _
    · cases h
  | run least =>
    cases h
    exact .run least args
  | namedRun least =>
    simp only [ofPatternHead?] at h
    split at h
    · next spec hspec =>
      cases h
      obtain ⟨name, rest, rfl, rfl⟩ := exists_of_ofNamedArgs? hspec
      exact .namedRun least name rest
    · cases h
      exact .never _ args
  | condition =>
    simp only [ofPatternHead?] at h
    split at h
    · next inner proviso _ _ heq =>
      cases h
      cases heq
      exact .condition inner proviso
    · cases h
  | test =>
    simp only [ofPatternHead?] at h
    split at h
    · next inner predicate _ _ heq =>
      cases h
      cases heq
      exact .test inner predicate
    · cases h
  | alternatives =>
    cases h
    exact .alternatives args
  | optional =>
    cases args with
    | nil => cases h
    | cons inner rest =>
      cases h
      exact .optional inner rest
  | hold =>
    cases args with
    | nil => cases h
    | cons inner rest =>
      cases h
      exact .hold inner rest

end Pattern

/-! ## Compound patterns -/

/-- The matcher at the place of an argument of a compound pattern. -/
def Term.slot (c : MatchContext) (a : Term) : Slot Matcher :=
  Slot.matcher c (Slot.ofTerm a (Pattern.ofTerm a))

theorem Slot.isVariadic_matcher (c : MatchContext) (s : Slot Pattern) :
    (Slot.matcher c s).isVariadic = s.isVariadic := by
  cases s <;> rfl

theorem Slot.isVariadic_ofTerm (a : Term) (p : Pattern) :
    (Slot.ofTerm a p).isVariadic = a.isVariadic := by
  unfold Slot.ofTerm Term.isVariadic
  cases RunSpec.ofTerm? a with
  | some spec => rfl
  | none => cases a.isOptional <;> rfl

namespace Term

variable {c : MatchContext}

@[simp] theorem isVariadic_slot (a : Term) : (a.slot c).isVariadic = a.isVariadic := by
  rw [slot, Slot.isVariadic_matcher, Slot.isVariadic_ofTerm]

theorem any_isVariadic_slot (args : List Term) :
    (args.map (slot c)).any Slot.isVariadic = args.any isVariadic := by
  rw [List.any_map]
  congr 1
  funext a
  exact isVariadic_slot a

theorem filter_isVariadic_slot (args : List Term) :
    (args.map (slot c)).filter Slot.isVariadic = (args.filter isVariadic).map (slot c) := by
  rw [List.filter_map]
  congr 2
  funext a
  exact isVariadic_slot a

/-- Where nothing varies every argument stands for one term. -/
theorem filter_single_eq_self {args : List Term} (h : args.any isVariadic = false) :
    (args.filter fun a => !a.isVariadic) = args := by
  rw [List.filter_eq_self]
  simpa using h

theorem slotMatchers_map (args : List Term) :
    Slot.matchers c (args.map fun a => Slot.ofTerm a (Pattern.ofTerm a)) = args.map (slot c) := by
  induction args with
  | nil => rfl
  | cons a as ih => rw [List.map_cons, Slot.matchers, ih, List.map_cons, slot]

theorem isVariadic_eq_false {a : Term} :
    a.isVariadic = false ↔ RunSpec.ofTerm? a = none ∧ a.isOptional = false := by
  rw [isVariadic, Bool.or_eq_false_iff, Option.isSome_eq_false_iff, Option.isNone_iff_eq_none]

/-- The place of a run. -/
theorem slot_of_run {a : Term} {spec : RunSpec} (h : RunSpec.ofTerm? a = some spec) :
    a.slot c = .run spec := by
  unfold slot Slot.ofTerm
  rw [h]
  rfl

/-- The place of an argument that stands for one term. -/
theorem slotOfTerm_of_single {a : Term} (h : a.isVariadic = false) (p : Pattern) :
    Slot.ofTerm a p = .single p := by
  obtain ⟨hrun, hoptional⟩ := isVariadic_eq_false.mp h
  unfold Slot.ofTerm
  rw [hrun, hoptional]
  rfl

theorem slot_of_single {a : Term} (h : a.isVariadic = false) :
    a.slot c = .single (a.searchMatch c) := by
  rw [slot, slotOfTerm_of_single h]
  rfl

theorem singles_slots (args : List Term) :
    Slot.singles (args.map (slot c))
      = (args.filter fun a => !a.isVariadic).map (searchMatch c) := by
  induction args with
  | nil => rfl
  | cons a as ih =>
    cases hvariadic : a.isVariadic with
    | true =>
      have hslot : (a.slot c).isVariadic = true := by rw [isVariadic_slot, hvariadic]
      rw [List.map_cons, List.filter_cons_of_neg (by simp [hvariadic]), ← ih]
      cases hs : a.slot c with
      | run spec => rfl
      | optional one => rfl
      | single one => simp [hs, Slot.isVariadic] at hslot
    | false =>
      rw [List.map_cons, slot_of_single hvariadic, Slot.singles, ih,
        List.filter_cons_of_pos (by simp [hvariadic]), List.map_cons]

theorem searchMatch_atom (a : Atom) :
    (Term.atom a).searchMatch c = fun t b => .require ((Term.atom a).identical t) b := rfl

theorem searchMatch_blank (type : List Term) (marks : Marks) :
    (Term.app (.symbol "Blank") type marks).searchMatch c
      = fun t b => .require (t.hasOptionalType type.head?) b := rfl

theorem result_namedBlank (name : String) (type : List Term) (marks : Marks) (t : Term)
    (b : Bindings) :
    ((Term.app (.symbol "NamedBlank") (.symbol name :: type) marks).searchMatch c t b).result
      = if t.hasOptionalType type.head? then b.bind? name t else none := by
  have htype : type.head? = (Term.symbol name :: type)[1]? := by cases type <;> rfl
  rw [htype]
  change (if t.hasOptionalType (Term.symbol name :: type)[1]? then
    Search.ofOption (b.bind? name t) else .fail).result = _
  split <;> rfl

/-- An application that reads as no special pattern is a compound pattern. -/
theorem ofTerm_compound {head : Term} {args : List Term} {marks : Marks}
    (h : (head.symbolName?.bind PatternHead.ofName?).bind
      (Pattern.ofPatternHead? args (Pattern.ofTerms args)) = none) :
    Pattern.ofTerm (.app head args marks)
      = .compound head.symbolName? (Pattern.ofTerm head)
          (args.map fun a => Slot.ofTerm a (Pattern.ofTerm a)) := by
  rw [Pattern.ofTerm, Pattern.ofParts, h, Option.getD_none, Pattern.ofTerms_eq_map,
    List.zipWith_map_right, List.zipWith_self]

theorem searchMatch_compound {head : Term} {args : List Term} {marks : Marks}
    (h : (head.symbolName?.bind PatternHead.ofName?).bind
      (Pattern.ofPatternHead? args (Pattern.ofTerms args)) = none) :
    (Term.app head args marks).searchMatch c
      = matchCompound c.table head.symbolName? (head.searchMatch c) (args.map (slot c)) := by
  funext t b
  rw [searchMatch, ofTerm_compound h, Pattern.matcher, slotMatchers_map]
  rfl

/-- A head that is no pattern head reads as no special pattern. -/
theorem ofPatternHead?_of_not_patternHead {head : Term}
    (h : head.symbolName?.any isPatternHead = false) (args : List Term) :
    (head.symbolName?.bind PatternHead.ofName?).bind
      (Pattern.ofPatternHead? args (Pattern.ofTerms args)) = none := by
  cases hname : head.symbolName? with
  | none => rfl
  | some name =>
    rw [hname, Option.any_some, isPatternHead, Option.isSome_eq_false_iff,
      Option.isNone_iff_eq_none] at h
    rw [Option.bind_some, h, Option.bind_none]

theorem searchMatch_app_of_not_patternHead {head : Term} {args : List Term} {marks : Marks}
    (h : head.symbolName?.any isPatternHead = false) :
    (Term.app head args marks).searchMatch c
      = matchCompound c.table head.symbolName? (head.searchMatch c) (args.map (slot c)) :=
  searchMatch_compound (ofPatternHead?_of_not_patternHead h args)

/-- What a successful match of a compound pattern went through. -/
theorem of_matchCompound {table : SymbolTable} {symbol : Option String} {head : Matcher}
    {slots : List (Slot Matcher)} {t : Term} {b b' : Bindings}
    (h : (matchCompound table symbol head slots t b).result = some b') :
    ∃ k items marks b₁, t = .app k items marks ∧ (head k b).result = some b₁
      ∧ (matchArgs ((symbol.map table.attributes).getD .empty) k slots items b₁).result = some b'
      ∧ (slots.any Slot.isVariadic = false →
          ((symbol.map table.attributes).getD .empty).isFlat = false →
          items.length = slots.length) := by
  cases t with
  | atom a => cases h
  | app k items marks =>
    rw [matchCompound] at h
    split at h
    · cases h
    · next hcount =>
      rw [Search.result_andThen, Option.bind_eq_some_iff] at h
      obtain ⟨b₁, hhead, hargs⟩ := h
      refine ⟨k, items, marks, b₁, rfl, hhead, hargs, fun hvariadic hflat => ?_⟩
      have hlength : slots.length = items.length := by simpa [hvariadic, hflat] using hcount
      exact hlength.symm

/-- A symbol is matched by itself alone. -/
theorem eq_of_searchMatch_atom {a : Atom} {t : Term} {b b' : Bindings}
    (h : ((Term.atom a).searchMatch c t b).result = some b') : t = .atom a ∧ b' = b := by
  rw [searchMatch_atom, Search.result_require] at h
  split at h
  · next hid =>
    cases h
    cases t with
    | atom d =>
      rw [identical, beq_iff_eq] at hid
      exact ⟨by rw [hid], rfl⟩
    | app k bs n => cases hid
  · cases h

/-- **An application of a symbol that is no pattern head is matched by applications of the symbol
alone, and by those to as many arguments where nothing varies.** -/
theorem eq_app_of_searchMatch {name : String} {args : List Term} {marks : Marks}
    (hname : isPatternHead name = false) {t : Term} {b b' : Bindings}
    (h : ((Term.app (.symbol name) args marks).searchMatch c t b).result = some b') :
    ∃ items n, t = .app (.symbol name) items n
      ∧ (args.any isVariadic = false → c.table.isFlat name = false →
          items.length = args.length) := by
  rw [searchMatch_app_of_not_patternHead (by simpa [symbolName?] using hname)] at h
  obtain ⟨k, items, n, b₁, rfl, hhead, _, hcount⟩ := of_matchCompound h
  obtain ⟨rfl, _⟩ := eq_of_searchMatch_atom hhead
  refine ⟨items, n, rfl, fun hvariadic hflat => ?_⟩
  rw [any_isVariadic_slot, List.length_map] at hcount
  exact hcount hvariadic hflat

/-! ## Literal patterns -/

/-- A pattern-free argument takes one argument. -/
theorem isVariadic_of_isPatternFree {a : Term} (h : a.isPatternFree = true) :
    a.isVariadic = false := by
  -- runs and optional places are read off pattern heads, and the head is none
  have hrun : RunSpec.ofTerm? a = none := by
    unfold RunSpec.ofTerm?
    split
    · next name args marks =>
      rw [isPatternFree, Bool.and_eq_true] at h
      have hname : PatternHead.ofName? name = none := by
        simpa [symbolName?, isPatternHead] using h.1
      rw [hname]
    · rfl
  have hoptional : a.isOptional = false := by
    cases a with
    | atom a => rfl
    | app head args marks =>
      unfold isOptional
      rw [callArgs?_app]
      split
      · next heq =>
        split at heq
        · next hhead =>
          rw [isPatternFree, hhead] at h
          cases h
        · cases heq
      · rfl
  exact isVariadic_eq_false.mpr ⟨hrun, hoptional⟩

theorem matchInOrder_of_literals {args : List Term} (hfree : allPatternFree args = true)
    (ih : ∀ a ∈ args, ∀ t b b', (a.searchMatch c t b).result = some b' →
      t.unmarked = a.unmarked ∧ b' = b) {items : List Term} {b b' : Bindings}
    (h : (matchInOrder (args.map (slot c)) items b).result = some b') :
    items.map unmarked = args.map unmarked ∧ b' = b := by
  induction args generalizing items b with
  | nil =>
    rw [List.map_nil, matchInOrder, Search.result_require] at h
    split at h
    · next hempty =>
      rw [List.isEmpty_iff.mp hempty]
      exact ⟨rfl, (Option.some.inj h).symm⟩
    · cases h
  | cons a as ihas =>
    rw [allPatternFree, Bool.and_eq_true] at hfree
    rw [List.map_cons, slot_of_single (isVariadic_of_isPatternFree hfree.1)] at h
    cases items with
    | nil => cases h
    | cons item others =>
      rw [matchInOrder, Search.result_andThen, Option.bind_eq_some_iff] at h
      obtain ⟨b₁, hone, hrest⟩ := h
      obtain ⟨hitem, rfl⟩ := ih a List.mem_cons_self item b b₁ hone
      obtain ⟨hothers, rfl⟩ := ihas hfree.2
        (fun x hx => ih x (List.mem_cons_of_mem _ hx)) hrest
      exact ⟨by rw [List.map_cons, List.map_cons, hitem, hothers], rfl⟩

theorem isRigid_of_mem {table : SymbolTable} {args : List Term} (h : allRigid table args = true)
    {a : Term} (ha : a ∈ args) : a.isRigid table = true := by
  induction args with
  | nil => cases ha
  | cons x xs ih =>
    rw [allRigid, Bool.and_eq_true] at h
    rcases List.mem_cons.mp ha with rfl | ha
    · exact h.1
    · exact ih h.2 ha

theorem isPatternFree_of_mem {args : List Term} (h : allPatternFree args = true)
    {a : Term} (ha : a ∈ args) : a.isPatternFree = true := by
  induction args with
  | nil => cases ha
  | cons x xs ih =>
    rw [allPatternFree, Bool.and_eq_true] at h
    rcases List.mem_cons.mp ha with rfl | ha
    · exact h.1
    · exact ih h.2 ha

/-- The head of a rigid application is neither flat nor orderless. -/
theorem plain_of_isRigid {table : SymbolTable} {head : Term} {args : List Term} {marks : Marks}
    (h : (Term.app head args marks).isRigid table = true) :
    ((head.symbolName?.map table.attributes).getD .empty).isFlat = false
      ∧ ((head.symbolName?.map table.attributes).getD .empty).isOrderless = false := by
  rw [isRigid, Bool.and_eq_true, Bool.not_eq_true'] at h
  cases hsymbol : head.symbolName? with
  | none => exact ⟨Attributes.isFlat_empty, Attributes.isOrderless_empty⟩
  | some name =>
    rw [hsymbol, Option.any_some, Bool.or_eq_false_iff] at h
    exact h.1

/-- Under a head that is neither flat nor orderless, arguments are matched in order. -/
theorem matchArgs_of_plain {attributes : Attributes} {head : Term} {slots : List (Slot Matcher)}
    (horderless : attributes.isOrderless = false) (hflat : attributes.isFlat = false) :
    matchArgs attributes head slots = matchInOrder slots := by
  funext items b
  rw [matchArgs, horderless, hflat]
  rfl

/-- **A literal pattern is matched by terms of its own structure alone, and binds nothing.** -/
theorem unmarked_eq_of_literal {p : Term} (hfree : p.isPatternFree = true)
    (hrigid : p.isRigid c.table = true) {t : Term} {b b' : Bindings}
    (h : (p.searchMatch c t b).result = some b') : t.unmarked = p.unmarked ∧ b' = b := by
  induction p using induct generalizing t b b' with
  | atom a =>
    obtain ⟨rfl, rfl⟩ := eq_of_searchMatch_atom h
    exact ⟨rfl, rfl⟩
  | app head args marks ihhead ihargs =>
    obtain ⟨hflat, horderless⟩ := plain_of_isRigid hrigid
    rw [isPatternFree, Bool.and_eq_true, Bool.and_eq_true, Bool.not_eq_true'] at hfree
    rw [isRigid, Bool.and_eq_true, Bool.and_eq_true, Bool.not_eq_true'] at hrigid
    obtain ⟨hname, hheadFree, hargsFree⟩ := hfree
    obtain ⟨_, hheadRigid, hargsRigid⟩ := hrigid
    rw [searchMatch_app_of_not_patternHead hname] at h
    obtain ⟨k, items, n, b₁, rfl, hhead, hargs, _⟩ := of_matchCompound h
    rw [matchArgs_of_plain horderless hflat] at hargs
    obtain ⟨hk, rfl⟩ := ihhead hheadFree hheadRigid hhead
    obtain ⟨hitems, rfl⟩ := matchInOrder_of_literals hargsFree
      (fun a ha _ _ _ => ihargs a ha (isPatternFree_of_mem hargsFree ha)
        (isRigid_of_mem hargsRigid ha)) hargs
    exact ⟨by rw [unmarked_app, unmarked_app, hk, hitems], rfl⟩

/-! ## Cores -/

theorem searchMatch_condition (p proviso : Term) (marks : Marks) :
    (Term.app (.symbol "Condition") [p, proviso] marks).searchMatch c
      = fun t b => (p.searchMatch c t b).andThen (c.checkCondition proviso) := rfl

/-- **What a pattern matches, its core matches.** -/
theorem searchMatch_core (p : Term) {t : Term} {b b' : Bindings}
    (h : (p.searchMatch c t b).result = some b') :
    ∃ b₁, (p.core.searchMatch c t b).result = some b₁ := by
  fun_induction core p generalizing b' with
  | case1 p marks ih => exact ih h
  | case2 p proviso marks ih =>
    rw [searchMatch_condition, Search.result_andThen, Option.bind_eq_some_iff] at h
    obtain ⟨b₁, hp, _⟩ := h
    exact ih hp
  | case3 p _ _ => exact ⟨b', h⟩

end Term

end TermRewriting
