import TermRewriting.Proofs.Pattern.Shape
import TermRewriting.Proofs.Truth

/-!
# Matching does not depend on marks

A matcher respects a property `Q` of applications when alike terms and bindings lead to alike
results: it succeeds on both sides or on none, and the bindings on both sides are alike again. Since
`Term.Alike Q` says that all applications have the property, this also says that what is bound has
it.

Every way of composing searches takes agreeing parts to agreeing wholes, and so every argument
matcher respects `Q` if the matchers at its places do. With that, the matcher of a coherent pattern
respects every robust property (`respects_searchMatch`), by induction on the term that describes
the pattern.
-/

namespace TermRewriting

/-! ## Searches that agree -/

namespace Search

/-- Both searches fail, or both succeed with related results. -/
def Agree {α β : Type} (P : α → β → Prop) (s : Search α) (t : Search β) : Prop :=
  Option.Rel P s.result t.result

variable {α α' β β' : Type} {P : α → α' → Prop} {S : β → β' → Prop}

theorem agree_fail : Agree P fail fail := .none

theorem agree_succeed {a : α} {a' : α'} (h : P a a') : Agree P (succeed a) (succeed a') := .some h

theorem agree_ofOption {a : Option α} {a' : Option α'} (h : Option.Rel P a a') :
    Agree P (ofOption a) (ofOption a') := h

theorem agree_require {c c' : Bool} {a : α} {a' : α'} (hc : c = c') (h : P a a') :
    Agree P (require c a) (require c' a') := by
  subst hc
  cases c with
  | true => exact agree_succeed h
  | false => exact agree_fail

theorem agree_andThen {s : Search β} {s' : Search β'} {next : β → Search α} {next' : β' → Search α'}
    (hs : Agree S s s') (hnext : ∀ b b', S b b' → Agree P (next b) (next' b')) :
    Agree P (s.andThen next) (s'.andThen next') := by
  unfold Agree
  rw [result_andThen, result_andThen]
  obtain ⟨h, h'⟩ | ⟨b, b', h, h', hb⟩ := optionRel_cases hs
  · rw [h, h']
    exact .none
  · rw [h, h']
    exact hnext b b' hb

theorem agree_orElse {s : Search α} {s' : Search α'} {other : Unit → Search α}
    {other' : Unit → Search α'} (hs : Agree P s s') (hother : Agree P (other ()) (other' ())) :
    Agree P (s.orElse other) (s'.orElse other') := by
  unfold Agree
  rw [result_orElse, result_orElse]
  obtain ⟨h, h'⟩ | ⟨a, a', h, h', ha⟩ := optionRel_cases hs
  · rw [h, h']
    exact hother
  · rw [h, h']
    exact .some ha

theorem agree_firstOf {choices : List β} {choices' : List β'} {attempt : β → Search α}
    {attempt' : β' → Search α'} (h : List.Forall₂ S choices choices')
    (hattempt : ∀ b b', S b b' → Agree P (attempt b) (attempt' b')) :
    Agree P (firstOf choices attempt) (firstOf choices' attempt') := by
  induction h with
  | nil => exact agree_fail
  | cons hb _ ih => exact agree_orElse (hattempt _ _ hb) ih

/-- The same choices on both sides. -/
theorem agree_firstOf_same {choices : List β} {attempt : β → Search α} {attempt' : β → Search α'}
    (hattempt : ∀ b ∈ choices, Agree P (attempt b) (attempt' b)) :
    Agree P (firstOf choices attempt) (firstOf choices attempt') := by
  induction choices with
  | nil => exact agree_fail
  | cons b bs ih =>
    exact agree_orElse (hattempt b List.mem_cons_self)
      (ih fun x hx => hattempt x (List.mem_cons_of_mem _ hx))

theorem forall₂_pickOne {items : List β} {items' : List β'} (h : List.Forall₂ S items items') :
    List.Forall₂ (fun p q => S p.1 q.1 ∧ List.Forall₂ S p.2 q.2) (pickOne items)
      (pickOne items') := by
  induction h with
  | nil => exact .nil
  | cons hb hrest ih =>
    refine .cons ⟨hb, hrest⟩ (List.rel_map ?_ ih)
    rintro p q ⟨hpick, hleft⟩
    exact ⟨hpick, .cons hb hleft⟩

theorem agree_firstSelection {r : Nat} {items : List β} {items' : List β'}
    {attempt : List β → List β → Search α} {attempt' : List β' → List β' → Search α'}
    (h : List.Forall₂ S items items')
    (hattempt : ∀ picked picked' rest rest', List.Forall₂ S picked picked' →
      List.Forall₂ S rest rest' → Agree P (attempt picked rest) (attempt' picked' rest')) :
    Agree P (firstSelection r items attempt) (firstSelection r items' attempt') := by
  induction r generalizing items items' attempt attempt' with
  | zero => exact hattempt [] [] items items' .nil h
  | succ r ih =>
    refine agree_firstOf (forall₂_pickOne h) ?_
    rintro p q ⟨hpick, hleft⟩
    exact ih hleft fun picked picked' rest rest' hpicked hrest =>
      hattempt _ _ _ _ (.cons hpick hpicked) hrest

end Search

open Search

/-! ## Matchers that respect a property -/

/-- Alike terms and bindings lead to alike results. -/
def Matcher.Respects (Q : Term → Prop) (m : Matcher) : Prop :=
  ∀ ⦃t t' b b'⦄, Term.Alike Q t t' → Bindings.Alike Q b b' →
    Agree (Bindings.Alike Q) (m t b) (m t' b')

/-- What matches nothing respects everything. -/
theorem respects_fail {Q : Term → Prop} : Matcher.Respects Q fun _ _ => fail :=
  fun _ _ _ _ _ _ => agree_fail

/-- The type that a run asks for is a coherent term. -/
def RunSpec.Coherent (spec : RunSpec) : Prop := ∀ type, spec.type = some type → type.Coherent

/-- What is at the place respects the property. -/
def Slot.Respects (Q : Term → Prop) : Slot Matcher → Prop
  | .run spec => spec.Coherent
  | .optional one => one.Respects Q
  | .single one => one.Respects Q

section

variable {Q : Term → Prop} (hQ : Term.Robust Q)

include hQ

/-! ## Types and runs -/

theorem Term.Alike.hasType_eq {type t t' : Term} (htype : type.Coherent) (h : Term.Alike Q t t') :
    type.hasType t = type.hasType t' := by
  have hidentical : type.identical t.head = type.identical t'.head :=
    Term.identical_eq Term.robust_truthful hQ (Term.alike_refl htype) h.head
  unfold Term.hasType
  split
  · rw [h.headName?_eq]
  · exact hidentical

theorem Term.Alike.hasOptionalType_eq {type : Option Term} {t t' : Term}
    (htype : ∀ s, type = some s → s.Coherent) (h : Term.Alike Q t t') :
    t.hasOptionalType type = t'.hasOptionalType type := by
  cases type with
  | none => rfl
  | some s => exact h.hasType_eq hQ (htype s rfl)

theorem all_hasOptionalType_eq {type : Option Term} {as bs : List Term}
    (htype : ∀ s, type = some s → s.Coherent) (h : Term.AlikeAll Q as bs) :
    as.all (Term.hasOptionalType type) = bs.all (Term.hasOptionalType type) := by
  induction h with
  | nil => rfl
  | cons hab _ ih => rw [List.all_cons, List.all_cons, hab.hasOptionalType_eq hQ htype, ih]

theorem agree_matchRun {spec : RunSpec} (hspec : spec.Coherent) {items items' : List Term}
    {b b' : Bindings} (hitems : Term.AlikeAll Q items items') (hb : Bindings.Alike Q b b') :
    Agree (Bindings.Alike Q) (spec.matchRun items b) (spec.matchRun items' b') := by
  unfold RunSpec.matchRun
  rw [hitems.length_eq, all_hasOptionalType_eq hQ hspec hitems]
  split
  · cases spec.name with
    | none => exact agree_succeed hb
    | some name => exact agree_ofOption (hb.bind? hQ name (Term.alike_call hQ "Sequence" hitems))
  · exact agree_fail

/-! ## Argument lists -/

theorem agree_matchInOrder {slots : List (Slot Matcher)} (hslots : ∀ s ∈ slots, s.Respects Q)
    {items items' : List Term} {b b' : Bindings} (hitems : Term.AlikeAll Q items items')
    (hb : Bindings.Alike Q b b') :
    Agree (Bindings.Alike Q) (matchInOrder slots items b) (matchInOrder slots items' b') := by
  induction slots generalizing items items' b b' with
  | nil =>
    refine agree_require ?_ hb
    cases hitems <;> rfl
  | cons s rest ih =>
    obtain ⟨hs, hrest⟩ := List.forall_mem_cons.mp hslots
    cases s with
    | run spec =>
      -- on both sides the same lengths are tried, since the lists are of one length
      rw [matchInOrder, matchInOrder, hitems.length_eq]
      refine agree_firstOf_same fun k _ => ?_
      refine agree_andThen (agree_matchRun hQ hs (List.forall₂_take k hitems) hb) ?_
      exact fun _ _ hb => ih hrest (List.forall₂_drop k hitems) hb
    | optional one =>
      cases hitems with
      | nil => exact ih hrest .nil hb
      | cons hitem hothers =>
        -- first the argument is taken, then it is left to the places that follow
        refine agree_orElse ?_ (ih hrest (.cons hitem hothers) hb)
        exact agree_andThen (hs hitem hb) fun _ _ hb => ih hrest hothers hb
    | single one =>
      cases hitems with
      | nil => exact agree_fail
      | cons hitem hothers =>
        exact agree_andThen (hs hitem hb) fun _ _ hb => ih hrest hothers hb

omit hQ in
theorem agree_matchEach {ms : List Matcher} (hms : ∀ m ∈ ms, m.Respects Q)
    {items items' : List Term} {b b' : Bindings} (hitems : Term.AlikeAll Q items items')
    (hb : Bindings.Alike Q b b') :
    Agree (Bindings.Alike Q) (matchEach ms items b) (matchEach ms items' b') := by
  induction ms generalizing items items' b b' with
  | nil => exact agree_succeed hb
  | cons m ms ih =>
    obtain ⟨hm, hms⟩ := List.forall_mem_cons.mp hms
    cases hitems with
    | nil => exact agree_succeed hb
    | cons hitem hothers =>
      exact agree_andThen (hm hitem hb) fun _ _ hb => ih hms hothers hb

theorem alike_grouped {head head' : Term} (hhead : Term.Alike Q head head')
    {items items' : List Term} (hitems : Term.AlikeAll Q items items') :
    Term.Alike Q (grouped head items) (grouped head' items') := by
  match hitems with
  | .nil => exact Term.alike_apply hQ hhead .nil
  | .cons hitem .nil => exact hitem
  | .cons hitem (.cons hnext hrest) =>
    exact Term.alike_apply hQ hhead (.cons hitem (.cons hnext hrest))

theorem agree_matchAbsorbing {head head' : Term} (hhead : Term.Alike Q head head')
    {ms : List Matcher} (hms : ∀ m ∈ ms, m.Respects Q) {items items' : List Term} {b b' : Bindings}
    (hitems : Term.AlikeAll Q items items') (hb : Bindings.Alike Q b b') :
    Agree (Bindings.Alike Q) (matchAbsorbing head ms items b)
      (matchAbsorbing head' ms items' b') := by
  -- one matcher takes all that the others leave, each of which takes one argument
  refine agree_firstOf_same fun p hp => ?_
  have hmem : ∀ m ∈ p.1 :: p.2, m.Respects Q := fun m hm =>
    hms m ((pickOne_perm hp).mem_iff.mp hm)
  obtain ⟨hwide, hothers⟩ := List.forall_mem_cons.mp hmem
  refine agree_firstSelection hitems fun picked picked' rest rest' hpicked hrest => ?_
  exact agree_andThen (agree_matchEach hothers hpicked hb) fun _ _ hb =>
    hwide (alike_grouped hQ hhead hrest) hb

theorem agree_matchGroups {head head' : Term} (hhead : Term.Alike Q head head')
    {ms : List Matcher} (hms : ∀ m ∈ ms, m.Respects Q) {items items' : List Term} {b b' : Bindings}
    (hitems : Term.AlikeAll Q items items') (hb : Bindings.Alike Q b b') :
    Agree (Bindings.Alike Q) (matchGroups head ms items b) (matchGroups head' ms items' b') := by
  induction ms generalizing items items' b b' with
  | nil =>
    refine agree_require ?_ hb
    cases hitems <;> rfl
  | cons m ms ih =>
    obtain ⟨hm, hms⟩ := List.forall_mem_cons.mp hms
    cases ms with
    | nil =>
      cases hitems with
      | nil => exact agree_fail
      | cons hitem hothers => exact hm (alike_grouped hQ hhead (.cons hitem hothers)) hb
    | cons next rest =>
      rw [matchGroups, matchGroups, hitems.length_eq]
      · refine agree_firstOf_same fun k _ => ?_
        refine agree_andThen (hm (alike_grouped hQ hhead (List.forall₂_take k hitems)) hb) ?_
        exact fun _ _ hb => ih hms (List.forall₂_drop k hitems) hb
      · exact fun h => nomatch h
      · exact fun h => nomatch h

omit hQ in
theorem respects_of_mem_singles {slots : List (Slot Matcher)} (hslots : ∀ s ∈ slots, s.Respects Q) :
    ∀ m ∈ Slot.singles slots, m.Respects Q := by
  induction slots with
  | nil =>
    intro m hm
    cases hm
  | cons s rest ih =>
    obtain ⟨hs, hrest⟩ := List.forall_mem_cons.mp hslots
    cases s with
    | run spec => exact ih hrest
    | optional one => exact ih hrest
    | single one => exact List.forall_mem_cons.mpr ⟨hs, ih hrest⟩

theorem agree_matchOrderless {head head' : Term} (hhead : Term.Alike Q head head') (flat : Bool)
    {slots : List (Slot Matcher)} (hslots : ∀ s ∈ slots, s.Respects Q) {items items' : List Term}
    {b b' : Bindings} (hitems : Term.AlikeAll Q items items') (hb : Bindings.Alike Q b b') :
    Agree (Bindings.Alike Q) (matchOrderless head flat slots items b)
      (matchOrderless head' flat slots items' b') := by
  have hsingles := respects_of_mem_singles hslots
  unfold matchOrderless
  rw [hitems.length_eq]
  dsimp only
  split
  · exact agree_fail
  · split
    · split
      · exact agree_matchAbsorbing hQ hhead hsingles hitems hb
      · exact agree_fail
    · refine agree_firstSelection hitems fun picked picked' rest rest' hpicked hrest => ?_
      refine agree_andThen (agree_matchEach hsingles hpicked hb) fun _ _ hb => ?_
      exact agree_matchInOrder hQ (fun s hs => hslots s (List.mem_filter.mp hs).1) hrest hb

theorem agree_matchArgs (attributes : Attributes) {head head' : Term}
    (hhead : Term.Alike Q head head') {slots : List (Slot Matcher)}
    (hslots : ∀ s ∈ slots, s.Respects Q) {items items' : List Term} {b b' : Bindings}
    (hitems : Term.AlikeAll Q items items') (hb : Bindings.Alike Q b b') :
    Agree (Bindings.Alike Q) (matchArgs attributes head slots items b)
      (matchArgs attributes head' slots items' b') := by
  unfold matchArgs
  split
  · exact agree_matchOrderless hQ hhead _ hslots hitems hb
  · split
    · exact agree_matchGroups hQ hhead (respects_of_mem_singles hslots) hitems hb
    · exact agree_matchInOrder hQ hslots hitems hb

/-! ## Patterns -/

theorem respects_matchCompound (table : SymbolTable) (symbol : Option String) {head : Matcher}
    (hhead : head.Respects Q) {slots : List (Slot Matcher)} (hslots : ∀ s ∈ slots, s.Respects Q) :
    (matchCompound table symbol head slots).Respects Q := by
  intro t t' b b' ht hb
  obtain ⟨a, rfl, rfl⟩ | ⟨j, as, m, k, bs, n, rfl, rfl, _, _, hjk, hargs⟩ := ht.cases
  · exact agree_fail
  · simp only [matchCompound, hargs.length_eq]
    split
    · exact agree_fail
    · exact agree_andThen (hhead hjk hb) fun _ _ hb => agree_matchArgs hQ _ hjk hslots hargs hb

theorem respects_checkCondition (table : SymbolTable) (proviso : Term) {b b' : Bindings}
    (hb : Bindings.Alike Q b b') :
    Agree (Bindings.Alike Q) (MatchContext.checkCondition ⟨table, {}⟩ proviso b)
      (MatchContext.checkCondition ⟨table, {}⟩ proviso b') := by
  refine agree_require ?_ hb
  rw [(Term.alike_instantiate hQ hb proviso).truth_eq hQ]

omit hQ in
theorem builtinTest?_eq {t t' : Term} (h : Term.Alike Q t t') (name : String) :
    builtinTest? name t = builtinTest? name t' := by
  rw [← Term.builtinTest?_unmarked, h.same, Term.builtinTest?_unmarked]

omit hQ in
theorem respects_checkTest (table : SymbolTable) (predicate : Term) {t t' : Term} {b b' : Bindings}
    (ht : Term.Alike Q t t') (hb : Bindings.Alike Q b b') :
    Agree (Bindings.Alike Q) (MatchContext.checkTest ⟨table, {}⟩ predicate t b)
      (MatchContext.checkTest ⟨table, {}⟩ predicate t' b') := by
  refine agree_require ?_ hb
  simp only [builtinTest?_eq ht]

/-! ## Patterns read off terms -/

omit hQ in
theorem coherent_anonymous? {t : Term} (ht : t.Coherent) {spec : RunSpec}
    (h : RunSpec.anonymous? t = some spec) : spec.Coherent := by
  unfold RunSpec.anonymous? at h
  split at h
  · next name args marks =>
    obtain ⟨_, _, hargs⟩ := Term.every_app.mp ht
    split at h
    · cases h
      exact fun type htype => hargs type (List.mem_of_mem_head? htype)
    · cases h
  · cases h

omit hQ in
theorem coherent_ofNamedArgs? {least : Nat} {args : List Term} (hargs : ∀ a ∈ args, a.Coherent)
    {spec : RunSpec} (h : RunSpec.ofNamedArgs? least args = some spec) : spec.Coherent := by
  obtain ⟨name, rest, rfl, rfl⟩ := Pattern.exists_of_ofNamedArgs? h
  exact fun type htype => hargs type (List.mem_cons_of_mem _ (List.mem_of_getElem? htype))

omit hQ in
/-- The run that a coherent term describes asks for a coherent type. -/
theorem coherent_ofTerm? {t : Term} (ht : t.Coherent) {spec : RunSpec}
    (h : RunSpec.ofTerm? t = some spec) : spec.Coherent := by
  unfold RunSpec.ofTerm? at h
  split at h
  · next name args marks =>
    obtain ⟨_, _, hargs⟩ := Term.every_app.mp ht
    split at h
    · cases h
      exact fun type htype => hargs type (List.mem_of_mem_head? htype)
    · exact coherent_ofNamedArgs? hargs h
    · next x inner _ =>
      obtain ⟨plain, hplain, rfl⟩ := Option.map_eq_some_iff.mp h
      have hinner := hargs _ (List.mem_cons_of_mem _ List.mem_cons_self)
      have hspec : plain.Coherent := coherent_anonymous? hinner hplain
      exact hspec
    · cases h
  · cases h

omit hQ in
theorem respects_slot {table : SymbolTable} {a : Term} (ha : a.Coherent)
    (h : Matcher.Respects Q (a.searchMatch ⟨table, {}⟩)) : (a.slot ⟨table, {}⟩).Respects Q := by
  unfold Term.slot Slot.ofTerm
  split
  · next spec hspec => exact coherent_ofTerm? ha hspec
  · split
    · exact h
    · exact h

omit hQ in
theorem matchers_ofTerms (c : MatchContext) (args : List Term) :
    Pattern.matchers c (Pattern.ofTerms args) = args.map (Term.searchMatch c) := by
  induction args with
  | nil => rfl
  | cons a as ih => rw [Pattern.ofTerms, Pattern.matchers, ih, List.map_cons]; rfl

/-- The patterns that pattern heads stand for, given what their arguments are as patterns. -/
theorem respects_of_readFrom (table : SymbolTable) {args : List Term}
    (hargs : ∀ a ∈ args, a.Coherent)
    (ih : ∀ a ∈ args, Matcher.Respects Q (a.searchMatch ⟨table, {}⟩)) {special : PatternHead}
    {p : Pattern} (h : Pattern.ReadFrom special args p) :
    Matcher.Respects Q (p.matcher ⟨table, {}⟩) := by
  cases h with
  | never => exact respects_fail
  | blank =>
    intro t t' b b' ht hb
    have htype : ∀ s, args.head? = some s → s.Coherent :=
      fun s hs => hargs s (List.mem_of_mem_head? hs)
    exact agree_require (ht.hasOptionalType_eq hQ htype) hb
  | namedBlank name rest =>
    intro t t' b b' ht hb
    have htype : ∀ s, rest[0]? = some s → s.Coherent :=
      fun s hs => hargs s (List.mem_cons_of_mem _ (List.mem_of_getElem? hs))
    simp only [Pattern.matcher, ht.hasOptionalType_eq hQ htype]
    split
    · exact agree_ofOption (hb.bind? hQ name ht)
    · exact agree_fail
  | run least =>
    intro t t' b b' ht hb
    have hspec : RunSpec.Coherent ⟨least, none, args.head?⟩ :=
      fun s hs => hargs s (List.mem_of_mem_head? hs)
    exact agree_matchRun hQ hspec (.cons ht .nil) hb
  | namedRun least name rest =>
    intro t t' b b' ht hb
    have hspec : RunSpec.Coherent ⟨least, some name, rest[0]?⟩ :=
      fun s hs => hargs s (List.mem_cons_of_mem _ (List.mem_of_getElem? hs))
    exact agree_matchRun hQ hspec (.cons ht .nil) hb
  | named name inner =>
    intro t t' b b' ht hb
    exact agree_andThen (ih inner (by simp) ht hb) fun _ _ hb =>
      agree_ofOption (hb.bind? hQ name ht)
  | condition inner proviso =>
    intro t t' b b' ht hb
    exact agree_andThen (ih inner (by simp) ht hb) fun _ _ hb =>
      respects_checkCondition hQ table proviso hb
  | test inner predicate =>
    intro t t' b b' ht hb
    exact agree_andThen (ih inner (by simp) ht hb) fun _ _ hb =>
      respects_checkTest table predicate ht hb
  | alternatives =>
    intro t t' b b' ht hb
    refine agree_firstOf_same fun m hm => ?_
    rw [matchers_ofTerms] at hm
    obtain ⟨a, ha, rfl⟩ := List.mem_map.mp hm
    exact ih a ha ht hb
  | optional inner => exact ih inner List.mem_cons_self
  | hold inner => exact ih inner List.mem_cons_self

/-- **A coherent pattern respects every robust property.** -/
theorem respects_searchMatch (table : SymbolTable) {p : Term} (hp : p.Coherent) :
    Matcher.Respects Q (p.searchMatch ⟨table, {}⟩) := by
  induction p using Term.induct with
  | atom a =>
    intro t t' b b' ht hb
    exact agree_require (Term.identical_eq Term.robust_truthful hQ (Term.alike_atom a) ht) hb
  | app head args marks ihhead ihargs =>
    obtain ⟨_, hhead, hargs⟩ := Term.every_app.mp hp
    have hmatchers : ∀ a ∈ args, Matcher.Respects Q (a.searchMatch ⟨table, {}⟩) :=
      fun a ha => ihargs a ha (hargs a ha)
    cases hspecial : (head.symbolName?.bind PatternHead.ofName?).bind
      (Pattern.ofPatternHead? args (Pattern.ofTerms args)) with
    | some pattern =>
      obtain ⟨special, _, hread⟩ := Option.bind_eq_some_iff.mp hspecial
      unfold Term.searchMatch
      rw [Pattern.ofTerm, Pattern.ofParts, hspecial]
      exact respects_of_readFrom hQ table hargs hmatchers (Pattern.readFrom_of_ofPatternHead? hread)
    | none =>
      rw [Term.searchMatch_compound hspecial]
      refine respects_matchCompound hQ table _ (ihhead hhead) fun s hs => ?_
      obtain ⟨a, ha, rfl⟩ := List.mem_map.mp hs
      exact respects_slot (hargs a ha) (hmatchers a ha)

/-- **A coherent pattern matches both of two alike terms or none, with alike bindings.** -/
theorem Term.Alike.matches? (table : SymbolTable) {p t t' : Term} (hp : p.Coherent)
    (ht : Term.Alike Q t t') :
    Option.Rel (Bindings.Alike Q) (p.matches? table t) (p.matches? table t') :=
  respects_searchMatch hQ table hp ht .nil

end

end TermRewriting
