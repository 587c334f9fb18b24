import Mathlib.Algebra.Ring.Nat
import TermRewriting.Proofs.Pattern.Soundness

/-!
# Which matches are found

A pattern of literals, blanks and runs says which terms it describes without any search: those that
it becomes when every name is given a meaning, a term or a run of arguments (`Becomes`). What is
matched is always described (`Term.Positional.becomes`).

Conversely the search finds a match of a described term as long as no choice has to be revised
that was made inside of an earlier argument. The search tries every length of a run as long as the
rest of the same argument list fails, but of an argument that is a compound pattern it takes the
first match only. That is enough if this match is the only one, given the names that are known by
then (`Term.isDetermined`), or if what comes later uses no name of it that is not known
(`Term.isRevisionFree`). Under this condition matching succeeds exactly on the described terms
(`Term.matches?_isSome_iff`); without it a described term can be missed (`Term.matches?_misses`).
-/

namespace TermRewriting

/-! ## Described terms -/

/-- What a name stands for. -/
inductive Meaning where
  | one (t : Term)
  | run (items : List Term)

/-- The term that a name of this meaning is bound to. -/
def Meaning.value : Meaning → Term
  | .one t => t
  | .run items => .call "Sequence" items

/-- The meaning of every name. -/
abbrev Assignment := String → Meaning

/-- The arguments that stand for a run. -/
inductive Term.IsRun : Term → RunSpec → Prop where
  | blankSequence (type : List Term) (marks : Marks) :
      IsRun (.app (.symbol "BlankSequence") type marks) ⟨1, none, type.head?⟩
  | blankNullSequence (type : List Term) (marks : Marks) :
      IsRun (.app (.symbol "BlankNullSequence") type marks) ⟨0, none, type.head?⟩
  | namedBlankSequence (name : String) (type : List Term) (marks : Marks) :
      IsRun (.app (.symbol "NamedBlankSequence") (.symbol name :: type) marks)
        ⟨1, some name, type.head?⟩
  | namedBlankNullSequence (name : String) (type : List Term) (marks : Marks) :
      IsRun (.app (.symbol "NamedBlankNullSequence") (.symbol name :: type) marks)
        ⟨0, some name, type.head?⟩

mutual

/-- The pattern becomes the term, up to marks, when its names have the meanings of the assignment
and its blanks and runs stand for terms and arguments of their types. -/
inductive Becomes (σ : Assignment) : Term → Term → Prop where
  | atom (a : Atom) : Becomes σ (.atom a) (.atom a)
  | blank {t : Term} (type : List Term) (marks : Marks) : t.hasOptionalType type.head? = true →
      Becomes σ (.app (.symbol "Blank") type marks) t
  | namedBlank {name : String} {s t : Term} (type : List Term) (marks : Marks) :
      σ name = .one s → s.unmarked = t.unmarked → t.hasOptionalType type.head? = true →
      Becomes σ (.app (.symbol "NamedBlank") (.symbol name :: type) marks) t
  | compound {name : String} {args items : List Term} (marks marks' : Marks) :
      isPatternHead name = false → BecomesAll σ args items →
      Becomes σ (.app (.symbol name) args marks) (.app (.symbol name) items marks')

/-- The arguments become the items, each of them one item or a run of them. -/
inductive BecomesAll (σ : Assignment) : List Term → List Term → Prop where
  | nil : BecomesAll σ [] []
  | one {a t : Term} {as ts : List Term} : Becomes σ a t → BecomesAll σ as ts →
      BecomesAll σ (a :: as) (t :: ts)
  | run {a : Term} {spec : RunSpec} {items as ts : List Term} : a.IsRun spec →
      spec.least ≤ items.length → items.all (Term.hasOptionalType spec.type) = true →
      (∀ name, spec.name = some name →
        ∃ run, σ name = .run run ∧ run.map Term.unmarked = items.map Term.unmarked) →
      BecomesAll σ as ts → BecomesAll σ (a :: as) (items ++ ts)

end

namespace Term

/-- Literals, blanks, and compound patterns of them under symbols, with runs as arguments. -/
inductive Positional : Term → Prop where
  | atom (a : Atom) : Positional (.atom a)
  | blank (type : List Term) (marks : Marks) : Positional (.app (.symbol "Blank") type marks)
  | namedBlank (name : String) (type : List Term) (marks : Marks) :
      Positional (.app (.symbol "NamedBlank") (.symbol name :: type) marks)
  | compound {name : String} {args : List Term} (marks : Marks) : isPatternHead name = false →
      (∀ a ∈ args, (∀ spec, ¬a.IsRun spec) → Positional a) →
      Positional (.app (.symbol name) args marks)

/-! ## Choices that need no revision -/

/-- Whether an argument is a run of a known name. -/
def isKnownRun (known : List String) (a : Term) : Bool := a.namedRun?.any known.contains

mutual

/-- Whether there is one way at most to match the pattern once the names are known: in an argument
list only known runs follow a run that is not known. What has been matched is known from there
on. -/
def isDetermined (known : List String) : Term → Bool
  | .atom _ => true
  | .app head args _ => head.symbolName?.any isPatternHead || allDetermined known args

def allDetermined (known : List String) : List Term → Bool
  | [] => true
  | a :: as =>
    (if a.isVariadic then
      a.isKnownRun known || as.all fun other => !other.isVariadic || other.isKnownRun known
    else a.isDetermined known) && allDetermined (a.argNames ++ known) as

end

mutual

/-- Whether a choice made inside of an argument never has to be revised for a later argument: the
argument is determined, or they share only names that are known. -/
def isRevisionFree (known : List String) : Term → Bool
  | .atom _ => true
  | .app head args _ => head.symbolName?.any isPatternHead || allRevisionFree known args

def allRevisionFree (known : List String) : List Term → Bool
  | [] => true
  | a :: as =>
    if a.isVariadic then allRevisionFree (a.argNames ++ known) as
    else
      a.isRevisionFree known &&
        if a.isDetermined known then allRevisionFree (a.argNames ++ known) as
        else
          (a.argNames.all fun name => known.contains name || !(as.flatMap argNames).contains name)
            && allRevisionFree known as

end

/-! ## Reading the patterns -/

theorem IsRun.ofTerm? {a : Term} {spec : RunSpec} (h : a.IsRun spec) :
    RunSpec.ofTerm? a = some spec := by
  cases h with
  | blankSequence type marks => rfl
  | blankNullSequence type marks => rfl
  | namedBlankSequence name type marks => cases type <;> rfl
  | namedBlankNullSequence name type marks => cases type <;> rfl

theorem IsRun.isVariadic {a : Term} {spec : RunSpec} (h : a.IsRun spec) : a.isVariadic = true := by
  rw [Term.isVariadic, h.ofTerm?]
  rfl

theorem IsRun.namedRun? {a : Term} {spec : RunSpec} (h : a.IsRun spec) :
    a.namedRun? = spec.name := by
  rw [Term.namedRun?, h.ofTerm?]
  rfl

theorem IsRun.argNames {a : Term} {spec : RunSpec} (h : a.IsRun spec) :
    a.argNames = spec.names := by
  rw [Term.argNames, Slot.ofTerm, h.ofTerm?]
  rfl

theorem argNames_of_single {a : Term} (h : a.isVariadic = false) :
    a.argNames = a.patternNames := by
  obtain ⟨hrun, hoptional⟩ := isVariadic_eq_false.mp h
  rw [argNames, Slot.ofTerm, hrun, hoptional]
  rfl

theorem namedRun?_of_single {a : Term} (h : a.isVariadic = false) : a.namedRun? = none := by
  rw [namedRun?, (isVariadic_eq_false.mp h).1]
  rfl

theorem isCompound_of_not_patternHead {name : String} (h : isPatternHead name = false)
    (args : List Term) : IsCompound (.symbol name) args := by
  rw [isPatternHead, Option.isSome_eq_false_iff, Option.isNone_iff_eq_none] at h
  rw [IsCompound, symbolName?, Option.bind_some, h]
  rfl

theorem Positional.isVariadic {a : Term} (h : a.Positional) : a.isVariadic = false := by
  cases h with
  | atom a => rfl
  | blank type marks => rfl
  | namedBlank name type marks => rfl
  | compound marks hname _ =>
    exact isVariadic_of_isCompound (isCompound_of_not_patternHead hname _)

/-- The arguments of a compound pattern are runs or positional. -/
theorem isRun_or_positional {a : Term} (h : (∀ spec, ¬a.IsRun spec) → a.Positional) :
    (a.isVariadic = true → ∃ spec, a.IsRun spec)
      ∧ (a.isVariadic = false → ∀ spec, ¬a.IsRun spec) := by
  constructor
  · intro hvariadic
    by_contra hnone
    rw [(h (not_exists.mp hnone)).isVariadic] at hvariadic
    cases hvariadic
  · intro hsingle spec hspec
    rw [hspec.isVariadic] at hsingle
    cases hsingle

/-- The names of a compound pattern are those of its arguments. -/
theorem patternNames_of_compound {name : String} {args : List Term} {marks : Marks}
    (h : isPatternHead name = false) :
    (Term.app (.symbol name) args marks).patternNames = args.flatMap argNames := by
  have hcompound := isCompound_of_not_patternHead h args
  rw [IsCompound] at hcompound
  rw [patternNames, Pattern.ofTerm, Pattern.ofParts, hcompound, Option.getD_none, Pattern.names,
    namesAll_slots]
  rfl

/-- The arguments decide whether a compound pattern matches an application of the same symbol. -/
theorem result_compound {c : MatchContext} {name : String} {args items : List Term}
    {marks marks' : Marks} {b : Bindings} (hcompound : IsCompound (.symbol name) args)
    (hcount : args.any isVariadic = false → c.table.isFlat name = false →
      items.length = args.length) :
    ((Term.app (.symbol name) args marks).searchMatch c (.app (.symbol name) items marks') b).result
      = (matchArgs (c.table.attributes name) (.symbol name) (args.map (slot c)) items
          b).result := by
  have hhead : ((Term.symbol name).searchMatch c (.symbol name) b).result = some b := by
    rw [searchMatch_atom, Search.result_require, identical_rfl]
    rfl
  rw [searchMatch_compound hcompound, symbolName?, matchCompound, Option.map_some,
    Option.getD_some, any_isVariadic_slot, List.length_map, if_neg, Search.result_andThen, hhead,
    Option.bind_some]
  simp only [Bool.and_eq_true, Bool.not_eq_true', bne_iff_ne, ne_eq, not_and, and_imp, not_not]
  exact fun hvariadic hflat => (hcount hvariadic hflat).symm

theorem searchMatch_of_compound {c : MatchContext} (hplain : c.table.Plain) {name : String}
    (hname : isPatternHead name = false) {args items : List Term} {marks marks' : Marks}
    {b : Bindings} (hcount : args.any Term.isVariadic = false → items.length = args.length) :
    ((Term.app (.symbol name) args marks).searchMatch c (.app (.symbol name) items marks') b).result
      = (matchInOrder (args.map (slot c)) items b).result := by
  have hattributes := hplain name
  have hcompound := isCompound_of_not_patternHead hname args
  rw [result_compound hcompound fun hvariadic _ => hcount hvariadic,
    matchArgs_of_plain hattributes.2 hattributes.1]

end Term

/-! ## Bindings as assigned -/

section

variable {σ : Assignment} {known names : List String} {b c : Bindings}

/-- The term has the structure that the assignment gives to the name. -/
def Assignment.Allows (σ : Assignment) (name : String) (t : Term) : Prop :=
  t.Coherent ∧ t.unmarked = (σ name).value.unmarked

/-- Every one of the names is bound as assigned. -/
def Bindings.Knows (b : Bindings) (σ : Assignment) (names : List String) : Prop :=
  ∀ name ∈ names, ∃ t, b.get? name = some t ∧ σ.Allows name t

/-- None of the names is bound otherwise than assigned. -/
def Bindings.Respects (b : Bindings) (σ : Assignment) (names : List String) : Prop :=
  ∀ name ∈ names, ∀ t, b.get? name = some t → σ.Allows name t

theorem Bindings.Knows.extends (h : b.Knows σ names) (hext : c.Extends b) : c.Knows σ names := by
  intro name hname
  obtain ⟨t, ht, hallows⟩ := h name hname
  exact ⟨t, hext ht, hallows⟩

theorem Bindings.Knows.append {names' : List String} (h : b.Knows σ names)
    (h' : b.Knows σ names') : b.Knows σ (names ++ names') := by
  intro name hname
  exact (List.mem_append.mp hname).elim (h name) (h' name)

/-- Bindings stay as assigned on the later names if those bound meanwhile are known. -/
theorem Bindings.Respects.grows {others : List String} (h : b.Respects σ others)
    (hgrows : b.Grows names c) (hknows : c.Knows σ known)
    (hshared : ∀ name ∈ others, name ∈ names → name ∈ known) : c.Respects σ others := by
  intro name hname t ht
  by_cases hmem : name ∈ names
  · obtain ⟨s, hs, hallows⟩ := hknows name (hshared name hname hmem)
    obtain rfl := Option.some.inj (hs.symm.trans ht)
    exact hallows
  · exact h name hname t ((hgrows.within hmem).symm.trans ht)

/-- Binding to the assigned term succeeds. -/
theorem exists_bind? {name : String} {t : Term} (h : b.Respects σ [name]) (ht : σ.Allows name t) :
    ∃ c, b.bind? name t = some c := by
  unfold Bindings.bind?
  split
  · next bound hbound =>
    have hallows := h name List.mem_cons_self bound hbound
    rw [if_pos ((Term.identical_iff hallows.1 ht.1).mpr (hallows.2.trans ht.2.symm))]
    exact ⟨b, rfl⟩
  · exact ⟨_, rfl⟩

theorem knows_bind? {name : String} {t : Term} (h : b.Respects σ [name]) (ht : σ.Allows name t)
    (hbind : b.bind? name t = some c) : c.Knows σ [name] := by
  intro other hother
  obtain rfl := List.mem_singleton.mp hother
  obtain ⟨bound, hbound, _, hbefore | rfl⟩ := Bindings.get?_bind? hbind
  · exact ⟨bound, hbound, h other List.mem_cons_self bound hbefore⟩
  · exact ⟨bound, hbound, ht⟩

/-! ## Arguments of a described list -/

theorem Becomes.of_blank {type : List Term} {marks : Marks} {t : Term}
    (h : Becomes σ (.app (.symbol "Blank") type marks) t) :
    t.hasOptionalType type.head? = true := by
  generalize hp : Term.app (.symbol "Blank") type marks = p at h
  cases h with
  | atom a => cases hp
  | blank type' marks' htype =>
    cases hp
    exact htype
  | namedBlank => simp at hp
  | compound _ _ hname _ =>
    cases hp
    cases hname

theorem Becomes.of_namedBlank {name : String} {type : List Term} {marks : Marks} {t : Term}
    (h : Becomes σ (.app (.symbol "NamedBlank") (.symbol name :: type) marks) t) :
    ∃ s, σ name = .one s ∧ s.unmarked = t.unmarked ∧ t.hasOptionalType type.head? = true := by
  generalize hp : Term.app (.symbol "NamedBlank") (.symbol name :: type) marks = p at h
  cases h with
  | atom a => cases hp
  | blank => simp at hp
  | namedBlank type' marks' hσ hs htype =>
    cases hp
    exact ⟨_, hσ, hs, htype⟩
  | compound _ _ hname _ =>
    cases hp
    cases hname

theorem Becomes.of_compound {name : String} (hname : isPatternHead name = false) {args : List Term}
    {marks : Marks} {t : Term} (h : Becomes σ (.app (.symbol name) args marks) t) :
    ∃ items marks', t = .app (.symbol name) items marks' ∧ BecomesAll σ args items := by
  cases h with
  | blank => cases hname
  | namedBlank => cases hname
  | compound _ marks' _ hall => exact ⟨_, marks', rfl, hall⟩

theorem Becomes.isVariadic {a t : Term} (h : Becomes σ a t) : a.isVariadic = false := by
  cases h with
  | atom a => rfl
  | blank type marks _ => rfl
  | namedBlank type marks _ _ _ => rfl
  | compound marks marks' hname _ =>
    exact Term.isVariadic_of_isCompound (Term.isCompound_of_not_patternHead hname _)

theorem BecomesAll.length_eq {args items : List Term} (h : BecomesAll σ args items)
    (hsingle : args.any Term.isVariadic = false) : items.length = args.length := by
  induction args generalizing items with
  | nil =>
    cases h
    rfl
  | cons a as ih =>
    rw [List.any_cons, Bool.or_eq_false_iff] at hsingle
    cases h with
    | one _ hrest => rw [List.length_cons, List.length_cons, ih hrest hsingle.2]
    | run hrun _ _ _ _ => simp [hrun.isVariadic] at hsingle

theorem BecomesAll.leastArgs_le {args items : List Term} (h : BecomesAll σ args items)
    (context : MatchContext) : leastArgs (args.map (Term.slot context)) ≤ items.length := by
  induction args generalizing items with
  | nil => exact Nat.zero_le _
  | cons a as ih =>
    cases h with
    | one hone hrest =>
      rw [List.map_cons, Term.slot_of_single hone.isVariadic, leastArgs, List.length_cons]
      have := ih hrest
      omega
    | run hrun hleast _ _ hrest =>
      rw [List.map_cons, Term.slot_of_run hrun.ofTerm?, leastArgs, List.length_append]
      have := ih hrest
      omega

/-- How many items an argument takes if it is a run of a known name or one term. -/
def Assignment.count (σ : Assignment) (a : Term) : Nat :=
  match a.namedRun? with
  | some name => (σ name).value.args.length
  | none => 1

theorem Assignment.count_of_single {a : Term} (h : a.isVariadic = false) : σ.count a = 1 := by
  rw [count, Term.namedRun?_of_single h]

theorem Assignment.count_of_run {a : Term} {spec : RunSpec} (ha : a.IsRun spec) {name : String}
    (hname : spec.name = some name) : σ.count a = (σ name).value.args.length := by
  rw [count, ha.namedRun?, hname]

theorem length_args_eq {s t : Term} (h : s.unmarked = t.unmarked) :
    s.args.length = t.args.length := by
  have hargs := congrArg (fun u => u.args.length) h
  simpa using hargs

theorem Term.exists_of_isKnownRun {a : Term} (h : a.isKnownRun known = true) :
    ∃ name ∈ known, a.namedRun? = some name := by
  obtain ⟨name, hname, hmem⟩ := Option.any_eq_true _ _ |>.mp h
  exact ⟨name, by simpa using hmem, hname⟩

/-- In a described list as many items stand as the runs and terms take. -/
theorem BecomesAll.length_eq_count {args items : List Term} (h : BecomesAll σ args items)
    (hknown : ∀ a ∈ args, a.isVariadic = true → a.isKnownRun known = true) :
    items.length = (args.map σ.count).sum := by
  induction args generalizing items with
  | nil =>
    cases h
    rfl
  | cons a as ih =>
    obtain ⟨ha, has⟩ := List.forall_mem_cons.mp hknown
    cases h with
    | one hone hrest =>
      rw [List.length_cons, ih hrest has, List.map_cons, List.sum_cons,
        σ.count_of_single hone.isVariadic, Nat.add_comm]
    | run hrun _ _ hmeaning hrest =>
      obtain ⟨name, _, hname⟩ := Term.exists_of_isKnownRun (ha hrun.isVariadic)
      rw [hrun.namedRun?] at hname
      obtain ⟨run, hσ, hitems⟩ := hmeaning name hname
      have hlength := congrArg List.length hitems
      rw [List.length_map, List.length_map] at hlength
      rw [List.length_append, ih hrest has, List.map_cons, List.sum_cons,
        σ.count_of_run hrun hname, hσ, ← hlength]
      rfl

/-- A known run takes as many items as assigned. -/
theorem length_of_matchRun {spec : RunSpec} {name : String} (hname : spec.name = some name)
    (hknows : b.Knows σ known) (hmem : name ∈ known) {items : List Term}
    (h : (spec.matchRun items b).result = some c) :
    items.length = (σ name).value.args.length := by
  obtain ⟨_, _, hbind⟩ := matchRun_eq_some h
  rw [hname] at hbind
  obtain ⟨t, ht, hallows⟩ := hknows name hmem
  obtain ⟨bound, hbound, hid, _⟩ := Bindings.get?_bind? hbind
  obtain rfl := Option.some.inj (hbound.symm.trans (Bindings.get?_of_bind? hbind ht))
  exact length_args_eq ((Term.unmarked_eq_of_identical hid).symm.trans hallows.2)

/-- In a matched list as many items stand as the runs and terms take. -/
theorem length_eq_count_of_matchInOrder {context : MatchContext} {args items : List Term}
    (hargs : ∀ a ∈ args, a.isVariadic = true → ∃ spec, a.IsRun spec)
    (hknown : ∀ a ∈ args, a.isVariadic = true → a.isKnownRun known = true)
    (hknows : b.Knows σ known)
    (h : (matchInOrder (args.map (Term.slot context)) items b).result = some c) :
    items.length = (args.map σ.count).sum := by
  induction args generalizing items b with
  | nil => rw [List.isEmpty_iff.mp (Search.require_eq_some h).1]; rfl
  | cons a as ih =>
    obtain ⟨ha, has⟩ := List.forall_mem_cons.mp hknown
    obtain ⟨hrun, hruns⟩ := List.forall_mem_cons.mp hargs
    rw [List.map_cons, List.sum_cons]
    cases hvariadic : a.isVariadic with
    | true =>
      obtain ⟨spec, hspec⟩ := hrun hvariadic
      obtain ⟨name, hmem, hname⟩ := Term.exists_of_isKnownRun (ha hvariadic)
      rw [hspec.namedRun?] at hname
      rw [List.map_cons, Term.slot_of_run hspec.ofTerm?] at h
      obtain ⟨k, _, hk⟩ := Search.exists_of_firstOf h
      obtain ⟨b₁, hone, hrest⟩ := Search.andThen_eq_some.mp hk
      have hknows₁ := hknows.extends (grows_matchRun (List.Subset.refl _) hone).keeps
      have htake := length_of_matchRun hname hknows hmem hone
      have hdrop := ih hruns has hknows₁ hrest
      rw [σ.count_of_run hspec hname, ← htake, ← hdrop, ← List.length_append,
        List.take_append_drop]
    | false =>
      rw [List.map_cons, Term.slot_of_single hvariadic] at h
      cases items with
      | nil => cases h
      | cons item others =>
        obtain ⟨b₁, hone, hrest⟩ := Search.andThen_eq_some.mp h
        have hknows₁ := hknows.extends (Term.grows_searchMatch context a hone).keeps
        rw [List.length_cons, ih hruns has hknows₁ hrest, σ.count_of_single hvariadic,
          Nat.add_comm]

/-! ## Runs -/

theorem allows_run {name : String} {run items : List Term} (hname : σ name = .run run)
    (hrun : run.map Term.unmarked = items.map Term.unmarked) (hitems : ∀ t ∈ items, t.Coherent) :
    σ.Allows name (.call "Sequence" items) := by
  refine ⟨Term.coherent_apply (.atom _) hitems, ?_⟩
  rw [hname, Meaning.value, Term.unmarked_app, Term.unmarked_app, hrun]

section

variable {spec : RunSpec} {items : List Term} (hitems : ∀ t ∈ items, t.Coherent)
  (hmeaning : ∀ name, spec.name = some name →
    ∃ run, σ name = .run run ∧ run.map Term.unmarked = items.map Term.unmarked)
  (hrespects : b.Respects σ spec.names)

include hitems hmeaning hrespects

theorem exists_matchRun (hleast : spec.least ≤ items.length)
    (htype : items.all (Term.hasOptionalType spec.type) = true) :
    ∃ c, (spec.matchRun items b).result = some c := by
  unfold RunSpec.matchRun
  rw [htype, decide_eq_true hleast]
  cases hname : spec.name with
  | none => exact ⟨b, rfl⟩
  | some name =>
    obtain ⟨run, hσ, hrun⟩ := hmeaning name hname
    rw [RunSpec.names, hname] at hrespects
    exact exists_bind? hrespects (allows_run hσ hrun hitems)

theorem knows_matchRun (h : (spec.matchRun items b).result = some c) : c.Knows σ spec.names := by
  obtain ⟨_, _, hbind⟩ := matchRun_eq_some h
  cases hname : spec.name with
  | none =>
    rw [RunSpec.names, hname]
    exact fun _ hmem => absurd hmem List.not_mem_nil
  | some name =>
    obtain ⟨run, hσ, hrun⟩ := hmeaning name hname
    rw [hname] at hbind
    rw [RunSpec.names, hname] at hrespects ⊢
    exact knows_bind? hrespects (allows_run hσ hrun hitems) hbind

end

/-! ## Determined patterns -/

/-- However the pattern becomes a term, a match of the two binds its names as assigned if the known
names are so bound. -/
def Term.Settles (context : MatchContext) (known : List String) (p : Term) : Prop :=
  ∀ ⦃σ t b c⦄, Becomes σ p t → t.Coherent → b.Knows σ known → b.Respects σ p.patternNames →
    (p.searchMatch context t b).result = some c → c.Knows σ p.patternNames

theorem Bindings.Respects.mono {names' : List String} (h : b.Respects σ names)
    (hsub : names' ⊆ names) : b.Respects σ names' := fun name hname => h name (hsub hname)

/-- The run that a match has taken is the one of the assignment: its length is known, or what
follows it leaves no other. -/
theorem length_take_eq {context : MatchContext} {a : Term} {spec : RunSpec} (ha : a.IsRun spec)
    {as run ts : List Term} {k : Nat} {b₁ : Bindings}
    (hdet : a.isKnownRun known = true
      ∨ ∀ other ∈ as, other.isVariadic = true → other.isKnownRun known = true)
    (hruns : ∀ other ∈ as, other.isVariadic = true → ∃ spec, other.IsRun spec)
    (hmeaning : ∀ name, spec.name = some name →
      ∃ items, σ name = .run items ∧ items.map Term.unmarked = run.map Term.unmarked)
    (hrest : BecomesAll σ as ts) (hknows : b.Knows σ known)
    (hone : (spec.matchRun ((run ++ ts).take k) b).result = some b₁)
    (hothers :
      (matchInOrder (as.map (Term.slot context)) ((run ++ ts).drop k) b₁).result = some c) :
    ((run ++ ts).take k).length = run.length := by
  rcases hdet with hself | hlast
  · obtain ⟨name, hmem, hname⟩ := Term.exists_of_isKnownRun hself
    rw [ha.namedRun?] at hname
    obtain ⟨items, hσ, hrun⟩ := hmeaning name hname
    have hlength := congrArg List.length hrun
    rw [List.length_map, List.length_map] at hlength
    rw [length_of_matchRun hname hknows hmem hone, hσ, ← hlength]
    rfl
  · have hknows₁ := hknows.extends (grows_matchRun (List.Subset.refl _) hone).keeps
    have hdrop := length_eq_count_of_matchInOrder hruns hlast hknows₁ hothers
    rw [← hrest.length_eq_count hlast] at hdrop
    have htotal := congrArg List.length (List.take_append_drop k (run ++ ts))
    rw [List.length_append, List.length_append, hdrop] at htotal
    omega

/-- **In a determined argument list every name is bound as assigned.** -/
theorem knows_of_matchInOrder {context : MatchContext} {args items : List Term}
    (hargs : ∀ a ∈ args, a.isVariadic = false → ∀ known, a.isDetermined known = true →
      a.Settles context known)
    (hruns : ∀ a ∈ args, a.isVariadic = true → ∃ spec, a.IsRun spec)
    (hdet : Term.allDetermined known args = true) (hbecomes : BecomesAll σ args items)
    (hitems : ∀ t ∈ items, t.Coherent) (hknows : b.Knows σ known)
    (hrespects : b.Respects σ (args.flatMap Term.argNames))
    (h : (matchInOrder (args.map (Term.slot context)) items b).result = some c) :
    c.Knows σ (args.flatMap Term.argNames) := by
  induction args generalizing known items b with
  | nil => exact fun _ hmem => nomatch hmem
  | cons a as ih =>
    obtain ⟨ha, has⟩ := List.forall_mem_cons.mp hargs
    obtain ⟨_, hruns⟩ := List.forall_mem_cons.mp hruns
    rw [Term.allDetermined, Bool.and_eq_true] at hdet
    rw [List.flatMap_cons] at hrespects ⊢
    have hfirst := hrespects.mono (List.subset_append_left _ _)
    have hlater := hrespects.mono (List.subset_append_right _ _)
    -- once the names of the first argument are bound as assigned, so are those of the others
    have hfinish {b₁ : Bindings} {ts : List Term} (hts : ∀ t ∈ ts, t.Coherent)
        (hrest : BecomesAll σ as ts) (hgrows : b.Grows a.argNames b₁)
        (hknows₁ : b₁.Knows σ a.argNames)
        (hothers : (matchInOrder (as.map (Term.slot context)) ts b₁).result = some c) :
        c.Knows σ (a.argNames ++ as.flatMap Term.argNames) := by
      have hrespects₁ := hlater.grows hgrows hknows₁ fun _ _ hname => hname
      have hkeeps := (grows_matchInOrder (Term.grows_slots context as) hothers).keeps
      exact (hknows₁.extends hkeeps).append (ih has hruns hdet.2 hrest hts
        (hknows₁.append (hknows.extends hgrows.keeps)) hrespects₁ hothers)
    cases hbecomes with
    | @one a t as ts hone hrest =>
      have hsingle := hone.isVariadic
      rw [List.map_cons, Term.slot_of_single hsingle] at h
      obtain ⟨b₁, hmatch, hothers⟩ := Search.andThen_eq_some.mp h
      obtain ⟨ht, hts⟩ := List.forall_mem_cons.mp hitems
      rw [hsingle, if_neg Bool.false_ne_true] at hdet
      rw [Term.argNames_of_single hsingle] at hfirst hfinish
      rw [Term.argNames_of_single hsingle]
      exact hfinish hts hrest (Term.grows_searchMatch context a hmatch)
        (ha hsingle known hdet.1 hone ht hknows hfirst hmatch) hothers
    | @run a spec run as ts hrun hleast htype hmeaning hrest =>
      rw [List.map_cons, Term.slot_of_run hrun.ofTerm?] at h
      obtain ⟨k, _, hk⟩ := Search.exists_of_firstOf h
      obtain ⟨b₁, hmatch, hothers⟩ := Search.andThen_eq_some.mp hk
      rw [hrun.isVariadic, if_pos rfl, Bool.or_eq_true] at hdet
      have hlast : a.isKnownRun known = true
          ∨ ∀ other ∈ as, other.isVariadic = true → other.isKnownRun known = true := by
        refine hdet.1.imp id fun hall other hother hvariadic => ?_
        simpa [hvariadic] using List.all_eq_true.mp hall other hother
      have hlength := length_take_eq hrun hlast hruns hmeaning hrest hknows hmatch hothers
      obtain ⟨htake, hdrop⟩ := List.append_inj (List.take_append_drop k (run ++ ts)) hlength
      rw [htake] at hmatch
      rw [hdrop] at hothers
      rw [hrun.argNames] at hfirst hfinish
      rw [hrun.argNames]
      have hrunItems : ∀ t ∈ run, t.Coherent := fun t ht => hitems t (List.mem_append_left _ ht)
      exact hfinish (fun t ht => hitems t (List.mem_append_right _ ht)) hrest
        (grows_matchRun (List.Subset.refl _) hmatch)
        (knows_matchRun hrunItems hmeaning hfirst hmatch) hothers

/-! ## Patterns that need no revision -/

/-- A term that the pattern becomes is matched by it, if the known names are bound as assigned and
no name of the pattern is bound otherwise. -/
def Term.Finds (context : MatchContext) (known : List String) (p : Term) : Prop :=
  ∀ ⦃σ t b⦄, Becomes σ p t → t.Coherent → b.Knows σ known → b.Respects σ p.patternNames →
    ∃ c, (p.searchMatch context t b).result = some c

/-- After an argument that needs no revision, the names that it shares with later ones are known. -/
theorem exists_known_of_revisionFree {a : Term} {as : List Term}
    (hfree : (if a.isDetermined known then Term.allRevisionFree (a.argNames ++ known) as
      else (a.argNames.all fun name =>
          known.contains name || !(as.flatMap Term.argNames).contains name)
        && Term.allRevisionFree known as) = true)
    (hknows : c.Knows σ known) (hsettled : a.isDetermined known = true → c.Knows σ a.argNames) :
    ∃ known', c.Knows σ known'
      ∧ (∀ name ∈ as.flatMap Term.argNames, name ∈ a.argNames → name ∈ known')
      ∧ Term.allRevisionFree known' as = true := by
  cases hdet : a.isDetermined known with
  | true =>
    rw [hdet, if_pos rfl] at hfree
    exact ⟨a.argNames ++ known, (hsettled hdet).append hknows,
      fun _ _ hname => List.mem_append_left _ hname, hfree⟩
  | false =>
    rw [hdet, if_neg Bool.false_ne_true, Bool.and_eq_true] at hfree
    refine ⟨known, hknows, fun name hmem hname => ?_, hfree.2⟩
    have hshared := List.all_eq_true.mp hfree.1 name hname
    rw [List.contains_iff_mem.mpr hmem, Bool.not_true, Bool.or_false] at hshared
    exact List.contains_iff_mem.mp hshared

/-- **In an argument list that needs no revision a described list is found.** -/
theorem exists_matchInOrder {context : MatchContext} {args items : List Term}
    (hargs : ∀ a ∈ args, a.isVariadic = false → ∀ known,
      (a.isDetermined known = true → a.Settles context known)
        ∧ (a.isRevisionFree known = true → a.Finds context known))
    (hfree : Term.allRevisionFree known args = true) (hbecomes : BecomesAll σ args items)
    (hitems : ∀ t ∈ items, t.Coherent) (hknows : b.Knows σ known)
    (hrespects : b.Respects σ (args.flatMap Term.argNames)) :
    ∃ c, (matchInOrder (args.map (Term.slot context)) items b).result = some c := by
  induction args generalizing known items b with
  | nil =>
    cases hbecomes
    exact ⟨b, rfl⟩
  | cons a as ih =>
    obtain ⟨ha, has⟩ := List.forall_mem_cons.mp hargs
    rw [Term.allRevisionFree] at hfree
    rw [List.flatMap_cons] at hrespects
    have hfirst := hrespects.mono (List.subset_append_left _ _)
    have hlater := hrespects.mono (List.subset_append_right _ _)
    cases hbecomes with
    | @one a t as ts hone hrest =>
      have hsingle := hone.isVariadic
      have hnames := Term.argNames_of_single hsingle
      obtain ⟨ht, hts⟩ := List.forall_mem_cons.mp hitems
      rw [hsingle, if_neg Bool.false_ne_true, Bool.and_eq_true] at hfree
      rw [hnames] at hfirst
      obtain ⟨b₁, hmatch⟩ := (ha hsingle known).2 hfree.1 hone ht hknows hfirst
      have hgrows := hnames ▸ Term.grows_searchMatch context a hmatch
      obtain ⟨known', hknows₁, hshared, hothersFree⟩ :=
        exists_known_of_revisionFree hfree.2 (hknows.extends hgrows.keeps) fun hdet =>
          hnames ▸ (ha hsingle known).1 hdet hone ht hknows hfirst hmatch
      obtain ⟨c, hothers⟩ :=
        ih has hothersFree hrest hts hknows₁ (hlater.grows hgrows hknows₁ hshared)
      rw [List.map_cons, Term.slot_of_single hsingle]
      exact ⟨c, Search.andThen_eq_some.mpr ⟨b₁, hmatch, hothers⟩⟩
    | @run a spec run as ts hrun hleast htype hmeaning hrest =>
      have hnames := hrun.argNames
      have hrunItems : ∀ t ∈ run, t.Coherent := fun t ht => hitems t (List.mem_append_left _ ht)
      have hts : ∀ t ∈ ts, t.Coherent := fun t ht => hitems t (List.mem_append_right _ ht)
      rw [hrun.isVariadic, if_pos rfl] at hfree
      rw [hnames] at hfirst
      obtain ⟨b₁, hmatch⟩ := exists_matchRun hrunItems hmeaning hfirst hleast htype
      have hgrows := hnames ▸ grows_matchRun (List.Subset.refl _) hmatch
      have hbound := hnames ▸ knows_matchRun hrunItems hmeaning hfirst hmatch
      have hknows₁ := hbound.append (hknows.extends hgrows.keeps)
      obtain ⟨c, hothers⟩ := ih has hfree hrest hts hknows₁
        (hlater.grows hgrows hknows₁ fun _ _ hname => List.mem_append_left _ hname)
      -- the length of the assigned run is among those that are tried
      have hleft := hrest.leastArgs_le context
      have hlength : run.length ∈ lengthsBetween spec.least
          ((run ++ ts).length - leastArgs (as.map (Term.slot context))) := by
        rw [lengthsBetween, List.mem_range'_1, List.length_append]
        omega
      rw [List.map_cons, Term.slot_of_run hrun.ofTerm?]
      rw [← @List.take_left _ run ts] at hmatch
      rw [← @List.drop_left _ run ts] at hothers
      exact Search.exists_firstOf hlength (Search.andThen_eq_some.mpr ⟨b₁, hmatch, hothers⟩)

end

namespace Term

/-- **A determined pattern settles its names, and one that needs no revision is found.** -/
theorem Positional.settles_and_finds {context : MatchContext} (hplain : context.table.Plain)
    {p : Term} (hp : p.Positional) (known : List String) :
    (p.isDetermined known = true → p.Settles context known)
      ∧ (p.isRevisionFree known = true → p.Finds context known) := by
  induction hp generalizing known with
  | atom a =>
    refine ⟨fun _ σ t b c _ _ _ _ _ _ hmem => (nomatch hmem), fun _ σ t b h _ _ _ => ?_⟩
    cases h with
    | atom a =>
      rw [searchMatch_atom, Search.result_require, identical_rfl]
      exact ⟨b, rfl⟩
  | blank type marks =>
    refine ⟨fun _ σ t b c _ _ _ _ _ _ hmem => (nomatch hmem), fun _ σ t b h _ _ _ => ?_⟩
    rw [searchMatch_blank, Search.result_require, h.of_blank]
    exact ⟨b, rfl⟩
  | namedBlank name type marks =>
    have hallows {σ : Assignment} {s t : Term} (hσ : σ name = .one s)
        (hs : s.unmarked = t.unmarked) (ht : t.Coherent) : σ.Allows name t :=
      ⟨ht, by rw [hσ, Meaning.value, hs]⟩
    constructor
    · intro _ σ t b c h ht _ hrespects hmatch
      obtain ⟨s, hσ, hs, htype⟩ := h.of_namedBlank
      rw [result_namedBlank, if_pos htype] at hmatch
      exact knows_bind? hrespects (hallows hσ hs ht) hmatch
    · intro _ σ t b h ht _ hrespects
      obtain ⟨s, hσ, hs, htype⟩ := h.of_namedBlank
      rw [result_namedBlank, if_pos htype]
      exact exists_bind? hrespects (hallows hσ hs ht)
  | @compound name args marks hname hrun ih =>
    have hruns : ∀ a ∈ args, a.isVariadic = true → ∃ spec, a.IsRun spec :=
      fun a ha => (isRun_or_positional (hrun a ha)).1
    have hargs : ∀ a ∈ args, a.isVariadic = false → ∀ known,
        (a.isDetermined known = true → a.Settles context known)
          ∧ (a.isRevisionFree known = true → a.Finds context known) := by
      exact fun a ha hsingle => ih a ha ((isRun_or_positional (hrun a ha)).2 hsingle)
    have hnotHead : (Term.symbol name).symbolName?.any isPatternHead = false := hname
    constructor
    · intro hdet σ t b c h ht hknows hrespects hmatch
      rw [isDetermined, hnotHead, Bool.false_or] at hdet
      rw [patternNames_of_compound hname] at hrespects ⊢
      obtain ⟨items, marks', rfl, hall⟩ := h.of_compound hname
      obtain ⟨_, _, hitems⟩ := every_app.mp ht
      rw [searchMatch_of_compound hplain hname hall.length_eq] at hmatch
      exact knows_of_matchInOrder (fun a ha hsingle known => (hargs a ha hsingle known).1) hruns
        hdet hall hitems hknows hrespects hmatch
    · intro hfree σ t b h ht hknows hrespects
      rw [isRevisionFree, hnotHead, Bool.false_or] at hfree
      rw [patternNames_of_compound hname] at hrespects
      obtain ⟨items, marks', rfl, hall⟩ := h.of_compound hname
      obtain ⟨_, _, hitems⟩ := every_app.mp ht
      rw [searchMatch_of_compound hplain hname hall.length_eq]
      exact exists_matchInOrder hargs hfree hall hitems hknows hrespects

end Term

/-! ## Matched terms are described -/

/-- What the bindings say that a name stands for. -/
def Bindings.meaning (d : Bindings) : Assignment := fun name =>
  match d.get? name with
  | some t =>
    match t.callArgs? "Sequence" with
    | some items => .run items
    | none => .one t
  | none => .one (.symbol name)

section

variable {context : MatchContext} {b c d : Bindings}

theorem meaning_of_bind?_run {name : String} {items : List Term}
    (hbind : b.bind? name (.call "Sequence" items) = some c) (hd : d.Extends c) :
    ∃ run, d.meaning name = .run run ∧ run.map Term.unmarked = items.map Term.unmarked := by
  obtain ⟨bound, hbound, hid, _⟩ := Bindings.get?_bind? hbind
  obtain ⟨run, hcall, hrun⟩ := Term.callArgs?_of_identical hid
  exact ⟨run, by rw [Bindings.meaning, hd hbound]; simp only [hcall],
    Term.map_unmarked_eq_of_identical hrun⟩

theorem meaning_of_bind?_one {name : String} {t : Term} (ht : t.SequenceFree)
    (hbind : b.bind? name t = some c) (hd : d.Extends c) :
    ∃ s, d.meaning name = .one s ∧ s.unmarked = t.unmarked := by
  obtain ⟨bound, hbound, hid, _⟩ := Bindings.get?_bind? hbind
  have hsame := Term.unmarked_eq_of_identical hid
  have hcall : bound.callArgs? "Sequence" = none := by
    rw [← Option.isNone_iff_eq_none, ← Option.isSome_eq_false_iff]
    change bound.isCall "Sequence" = false
    rw [← Term.isCall_unmarked, hsame, Term.isCall_unmarked, ht.isCall_eq_false]
  exact ⟨bound, by rw [Bindings.meaning, hd hbound]; simp only [hcall], hsame⟩

theorem becomesAll_of_matchInOrder {args items : List Term}
    (hargs : ∀ a ∈ args, a.isVariadic = false → ∀ {t b c}, t.SequenceFree →
      (a.searchMatch context t b).result = some c → d.Extends c → Becomes d.meaning a t)
    (hruns : ∀ a ∈ args, a.isVariadic = true → ∃ spec, a.IsRun spec)
    (hitems : ∀ t ∈ items, t.SequenceFree)
    (h : (matchInOrder (args.map (Term.slot context)) items b).result = some c)
    (hd : d.Extends c) : BecomesAll d.meaning args items := by
  induction args generalizing items b with
  | nil =>
    rw [List.isEmpty_iff.mp (Search.require_eq_some h).1]
    exact .nil
  | cons a as ih =>
    obtain ⟨ha, has⟩ := List.forall_mem_cons.mp hargs
    obtain ⟨hrun, hruns⟩ := List.forall_mem_cons.mp hruns
    cases hvariadic : a.isVariadic with
    | true =>
      obtain ⟨spec, hspec⟩ := hrun hvariadic
      rw [List.map_cons, Term.slot_of_run hspec.ofTerm?] at h
      obtain ⟨k, _, hk⟩ := Search.exists_of_firstOf h
      obtain ⟨b₁, hone, hrest⟩ := Search.andThen_eq_some.mp hk
      obtain ⟨hleast, htype, hbind⟩ := matchRun_eq_some hone
      have hd₁ := hd.trans (grows_matchInOrder (Term.grows_slots context as) hrest).keeps
      rw [← List.take_append_drop k items]
      refine .run hspec hleast htype (fun name hname => ?_)
        (ih has hruns (fun t ht => hitems t (List.mem_of_mem_drop ht)) hrest)
      rw [hname] at hbind
      exact meaning_of_bind?_run hbind hd₁
    | false =>
      rw [List.map_cons, Term.slot_of_single hvariadic] at h
      cases items with
      | nil => cases h
      | cons item others =>
        obtain ⟨hitem, hothers⟩ := List.forall_mem_cons.mp hitems
        obtain ⟨b₁, hone, hrest⟩ := Search.andThen_eq_some.mp h
        have hd₁ := hd.trans (grows_matchInOrder (Term.grows_slots context as) hrest).keeps
        exact .one (ha hvariadic hitem hone hd₁) (ih has hruns hothers hrest)

end

namespace Term

/-- **A matched term is one that the pattern becomes** when names stand for what they are bound
to. -/
theorem Positional.becomes {context : MatchContext} (hplain : context.table.Plain) {p t : Term}
    (hp : p.Positional) (ht : t.SequenceFree) {b c d : Bindings}
    (h : (p.searchMatch context t b).result = some c) (hd : d.Extends c) :
    Becomes d.meaning p t := by
  induction hp generalizing t b c with
  | atom a =>
    obtain ⟨rfl, _⟩ := eq_of_searchMatch_atom h
    exact .atom a
  | blank type marks =>
    exact .blank type marks (Search.require_eq_some h).1
  | namedBlank name type marks =>
    rw [result_namedBlank] at h
    split at h
    · next htype =>
      obtain ⟨s, hs, hsame⟩ := meaning_of_bind?_one ht h hd
      exact .namedBlank type marks hs hsame htype
    · cases h
  | @compound name args marks hname hrun ih =>
    rw [searchMatch_compound (isCompound_of_not_patternHead hname args)] at h
    obtain ⟨k, items, n, b₁, rfl, hk, hmatched, _⟩ := of_matchCompound h
    obtain ⟨rfl, _⟩ := eq_of_searchMatch_atom hk
    obtain ⟨_, _, hitems⟩ := every_app.mp ht
    have hattributes := hplain name
    rw [symbolName?, Option.map_some, Option.getD_some,
      matchArgs_of_plain hattributes.2 hattributes.1] at hmatched
    refine .compound marks n hname (becomesAll_of_matchInOrder ?_ ?_ hitems hmatched hd)
    · intro a ha hsingle t b c ht h hd
      exact ih a ha ((isRun_or_positional (hrun a ha)).2 hsingle) ht h hd
    · exact fun a ha => (isRun_or_positional (hrun a ha)).1

/-- **Completeness of ordered matching.** Without attributes, a pattern of literals, blanks, runs
and compounds of them that needs no revision matches exactly the terms that it becomes. -/
theorem matches?_isSome_iff {table : SymbolTable} (hplain : table.Plain) {p t : Term}
    (hp : p.Positional) (hfree : p.isRevisionFree [] = true) (ht : t.Coherent)
    (hsequence : t.SequenceFree) :
    (p.matches? table t).isSome = true ↔ ∃ σ, Becomes σ p t := by
  have hplain : (MatchContext.mk table {}).table.Plain := hplain
  constructor
  · intro h
    obtain ⟨b, hb⟩ := Option.isSome_iff_exists.mp h
    exact ⟨b.meaning, hp.becomes hplain hsequence hb (.refl b)⟩
  · rintro ⟨σ, hσ⟩
    have hknows : Bindings.Knows [] σ [] := fun _ hmem => nomatch hmem
    have hrespects : Bindings.Respects [] σ p.patternNames := fun _ _ _ h => nomatch h
    obtain ⟨c, hc⟩ := (hp.settles_and_finds hplain []).2 hfree hσ ht hknows hrespects
    exact Option.isSome_iff_exists.mpr ⟨c, hc⟩

/-- A run that is known makes the other one of its list determined, and this one ends up known in
the last argument. -/
theorem matches?_isSome_iff_known :
    let x := call "NamedBlankNullSequence" [symbol "x"]
    let y := call "NamedBlankNullSequence" [symbol "y"]
    let z := call "NamedBlank" [symbol "z", symbol "Integer"]
    let p := call "f" [x, call "g" [x, y], call "h" [y, z]]
    let t := call "f" [integer 1, call "g" [integer 1, integer 2], call "h" [integer 2, integer 3]]
    SymbolTable.empty.Plain ∧ p.Positional ∧ p.isRevisionFree [] = true ∧ t.Coherent
      ∧ t.SequenceFree ∧ (∃ σ, Becomes σ p t) ∧ (p.matches? .empty t).isSome = true := by
  intro x y z p t
  have hx : x.IsRun ⟨0, some "x", none⟩ := .namedBlankNullSequence "x" [] _
  have hy : y.IsRun ⟨0, some "y", none⟩ := .namedBlankNullSequence "y" [] _
  have hp : p.Positional := by
    refine .compound _ rfl fun a ha hrun => ?_
    obtain rfl | rfl | rfl : a = x ∨ a = call "g" [x, y] ∨ a = call "h" [y, z] := by
      simpa using ha
    · exact absurd hx (hrun _)
    · refine .compound _ rfl fun a ha hrun => ?_
      obtain rfl | rfl : a = x ∨ a = y := by simpa using ha
      · exact absurd hx (hrun _)
      · exact absurd hy (hrun _)
    · refine .compound _ rfl fun a ha hrun => ?_
      obtain rfl | rfl : a = y ∨ a = z := by simpa using ha
      · exact absurd hy (hrun _)
      · exact .namedBlank "z" _ _
  have hfree : p.isRevisionFree [] = true := rfl
  have ht : t.Coherent := coherent_of_unmarked_eq rfl
  have hsequence : t.SequenceFree := by simp [t, SequenceFree, every_app, isCall, callArgs?]
  let σ : Assignment := fun name =>
    if name = "z" then .one (integer 3) else .run [if name = "x" then integer 1 else integer 2]
  have hσx : ∀ name, some "x" = some name →
      ∃ run, σ name = .run run ∧ run.map unmarked = [integer 1].map unmarked := by
    rintro name ⟨⟩
    exact ⟨_, rfl, rfl⟩
  have hσy : ∀ name, some "y" = some name →
      ∃ run, σ name = .run run ∧ run.map unmarked = [integer 2].map unmarked := by
    rintro name ⟨⟩
    exact ⟨_, rfl, rfl⟩
  have hg : BecomesAll σ [x, y] ([integer 1] ++ ([integer 2] ++ [])) :=
    .run hx (Nat.zero_le _) rfl hσx (.run hy (Nat.zero_le _) rfl hσy .nil)
  have hz : Becomes σ z (integer 3) := .namedBlank _ _ rfl rfl rfl
  have hh : BecomesAll σ [y, z] ([integer 2] ++ [integer 3]) :=
    .run hy (Nat.zero_le _) rfl hσy (.one hz .nil)
  have hall : BecomesAll σ [x, call "g" [x, y], call "h" [y, z]] ([integer 1] ++ _) :=
    .run hx (Nat.zero_le _) rfl hσx
      (.one (.compound _ .fresh rfl hg) (.one (.compound _ .fresh rfl hh) .nil))
  have hbecomes : ∃ σ, Becomes σ p t := ⟨σ, .compound _ _ rfl hall⟩
  exact ⟨SymbolTable.plain_empty, hp, hfree, ht, hsequence, hbecomes,
    (matches?_isSome_iff SymbolTable.plain_empty hp hfree ht hsequence).mpr hbecomes⟩

/-- A term that is missed: `x` takes nothing in the first argument, which is never revised. -/
theorem matches?_misses :
    let p := call "f" [call "g" [call "NamedBlankNullSequence" [symbol "x"],
        call "NamedBlankNullSequence" [symbol "y"]],
      call "h" [call "NamedBlankNullSequence" [symbol "x"]]]
    let t := call "f" [call "g" [integer 1], call "h" [integer 1]]
    SymbolTable.empty.Plain ∧ p.Positional ∧ t.Coherent ∧ t.SequenceFree ∧ (∃ σ, Becomes σ p t)
      ∧ p.isRevisionFree [] = false ∧ p.matches? .empty t = none := by
  intro p t
  let x := call "NamedBlankNullSequence" [symbol "x"]
  let y := call "NamedBlankNullSequence" [symbol "y"]
  have hx : x.IsRun ⟨0, some "x", none⟩ := .namedBlankNullSequence "x" [] _
  have hy : y.IsRun ⟨0, some "y", none⟩ := .namedBlankNullSequence "y" [] _
  have hp : p.Positional := by
    refine .compound _ rfl fun a ha _ => ?_
    obtain rfl | rfl : a = call "g" [x, y] ∨ a = call "h" [x] := by simpa [p] using ha
    · refine .compound _ rfl fun a ha hrun => ?_
      obtain rfl | rfl : a = x ∨ a = y := by simpa using ha
      · exact absurd hx (hrun _)
      · exact absurd hy (hrun _)
    · refine .compound _ rfl fun a ha hrun => ?_
      obtain rfl : a = x := by simpa using ha
      exact absurd hx (hrun _)
  have ht : t.SequenceFree := by simp [t, SequenceFree, every_app, isCall, callArgs?]
  let σ : Assignment := fun name => .run (if name = "x" then [integer 1] else [])
  have hσx : ∀ name, some "x" = some name →
      ∃ run, σ name = .run run ∧ run.map unmarked = [integer 1].map unmarked := by
    rintro name ⟨⟩
    exact ⟨_, rfl, rfl⟩
  have hσy : ∀ name, some "y" = some name →
      ∃ run, σ name = .run run ∧ run.map unmarked = [].map unmarked := by
    rintro name ⟨⟩
    exact ⟨_, rfl, rfl⟩
  have hg : BecomesAll σ [x, y] ([integer 1] ++ ([] ++ [])) :=
    .run hx (Nat.zero_le _) rfl hσx (.run hy (Nat.zero_le _) rfl hσy .nil)
  have hh : BecomesAll σ [x] ([integer 1] ++ []) := .run hx (Nat.zero_le _) rfl hσx .nil
  have hbecomes : Becomes σ p t :=
    .compound _ _ rfl (.one (.compound _ _ rfl hg) (.one (.compound _ _ rfl hh) .nil))
  exact ⟨SymbolTable.plain_empty, hp, coherent_of_unmarked_eq rfl, ht, ⟨σ, hbecomes⟩, rfl, rfl⟩

end Term

end TermRewriting
