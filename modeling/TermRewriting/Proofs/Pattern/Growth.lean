import TermRewriting.Proofs.Pattern.Shape
import TermRewriting.Proofs.Term.Coherence

/-!
# Bindings only grow

A match takes few kinds of steps, so what holds of every step and composes holds of the whole match
(`Pattern.relates_matcher`). In particular a successful search keeps what was bound and binds only
names that stand in the pattern (`Term.grows_searchMatch`). So two parts of a pattern influence each
other through the names that they share, and through nothing else.
-/

namespace TermRewriting

/-! ## Names -/

/-- The name that a run is bound to. -/
def RunSpec.names (spec : RunSpec) : List String := spec.name.toList

mutual

/-- The names that a match of the pattern may bind. -/
def Pattern.names : Pattern → List String
  | .literal _ => []
  | .blank _ => []
  | .namedBlank name _ => [name]
  | .run spec => spec.names
  | .never => []
  | .named name inner => name :: inner.names
  | .condition inner _ => inner.names
  | .test inner _ => inner.names
  | .alternatives choices => Pattern.namesAll choices
  | .compound _ head slots => head.names ++ Slot.namesAll slots

def Pattern.namesAll : List Pattern → List String
  | [] => []
  | p :: ps => p.names ++ Pattern.namesAll ps

def Slot.names : Slot Pattern → List String
  | .run spec => spec.names
  | .optional one => one.names
  | .single one => one.names

def Slot.namesAll : List (Slot Pattern) → List String
  | [] => []
  | s :: ss => Slot.names s ++ Slot.namesAll ss

end

/-- The names in the pattern that a term describes. -/
def Term.patternNames (p : Term) : List String := (Pattern.ofTerm p).names

/-! ## Growth of bindings -/

/-- What is bound by `b` is bound to the same term by `c`. -/
def Bindings.Extends (c b : Bindings) : Prop :=
  ∀ ⦃name t⦄, b.get? name = some t → c.get? name = some t

/-- What was bound stays bound, and outside of `names` nothing is bound anew. -/
structure Bindings.Grows (names : List String) (b c : Bindings) : Prop where
  keeps : c.Extends b
  within : ∀ {name}, name ∉ names → c.get? name = b.get? name

namespace Bindings

variable {names names' : List String} {b c d : Bindings}

theorem Extends.refl (b : Bindings) : b.Extends b := fun _ _ hb => hb

theorem Extends.trans (h : d.Extends c) (h' : c.Extends b) : d.Extends b :=
  fun _ _ hb => h (h' hb)

theorem Grows.refl (names : List String) (b : Bindings) : Grows names b b :=
  ⟨.refl b, fun _ => rfl⟩

theorem Grows.trans (h : Grows names b c) (h' : Grows names c d) : Grows names b d :=
  ⟨h'.keeps.trans h.keeps, fun hn => (h'.within hn).trans (h.within hn)⟩

theorem Grows.mono (hsub : names ⊆ names') (h : Grows names b c) : Grows names' b c :=
  ⟨h.keeps, fun hn => h.within fun hmem => hn (hsub hmem)⟩

theorem grows_bind? {name : String} {t : Term} (hname : name ∈ names)
    (h : b.bind? name t = some c) : Grows names b c := by
  refine ⟨fun _ _ hb => get?_of_bind? h hb, fun {other} hother => ?_⟩
  unfold bind? at h
  split at h
  · split at h
    · cases h
      rfl
    · cases h
  · cases h
    have hne : (other == name) = false := by
      rw [beq_eq_false_iff_ne]
      rintro rfl
      exact hother hname
    simp only [get?, List.lookup_append, List.lookup_cons, hne, List.lookup_nil]
    cases b.lookup other <;> rfl

/-- After binding, the name is bound to an identical term: as before, or to the term itself. -/
theorem get?_bind? {name : String} {t : Term} (h : b.bind? name t = some c) :
    ∃ bound, c.get? name = some bound ∧ bound.identical t = true
      ∧ (b.get? name = some bound ∨ bound = t) := by
  unfold bind? at h
  split at h
  · next bound hbound =>
    split at h
    · next hid =>
      cases h
      exact ⟨bound, hbound, hid, .inl hbound⟩
    · cases h
  · next hnone =>
    cases h
    refine ⟨t, ?_, Term.identical_rfl t, .inr rfl⟩
    simp only [get?] at hnone ⊢
    simp [List.lookup_append, hnone]

theorem mem_of_get? {name : String} {t : Term} (h : b.get? name = some t) : (name, t) ∈ b := by
  obtain ⟨before, after, rfl, _⟩ := List.lookup_eq_some_iff.mp h
  simp

end Bindings

/-! ## Searches -/

namespace Search

variable {α β : Type}

theorem andThen_eq_some {s : Search β} {next : β → Search α} {a : α} :
    (s.andThen next).result = some a
      ↔ ∃ b, s.result = some b ∧ (next b).result = some a := by
  rw [result_andThen, Option.bind_eq_some_iff]

theorem orElse_eq_some {s : Search α} {other : Unit → Search α} {a : α}
    (h : (s.orElse other).result = some a) : s.result = some a ∨ (other ()).result = some a := by
  rw [result_orElse, Option.or_eq_some_iff] at h
  exact h.imp id And.right

theorem exists_of_firstOf {choices : List β} {attempt : β → Search α} {a : α}
    (h : (firstOf choices attempt).result = some a) :
    ∃ b ∈ choices, (attempt b).result = some a := by
  rw [result_firstOf] at h
  exact List.exists_of_findSome?_eq_some h

theorem exists_firstOf {choices : List β} {attempt : β → Search α} {b : β} (hb : b ∈ choices)
    {a : α} (h : (attempt b).result = some a) :
    ∃ a', (firstOf choices attempt).result = some a' := by
  rw [← Option.isSome_iff_exists, result_firstOf, List.findSome?_isSome_iff]
  exact ⟨b, hb, by rw [h]; rfl⟩

theorem exists_of_firstSelection {r : Nat} {items : List β}
    {attempt : List β → List β → Search α} {a : α}
    (h : (firstSelection r items attempt).result = some a) :
    ∃ s ∈ selections r items, (attempt s.1 s.2).result = some a := by
  rw [result_firstSelection] at h
  exact List.exists_of_findSome?_eq_some h

theorem require_eq_some {condition : Bool} {a b : α}
    (h : (require condition a).result = some b) : condition = true ∧ b = a := by
  rw [result_require] at h
  split at h
  · next hcondition => exact ⟨hcondition, (Option.some.inj h).symm⟩
  · cases h

end Search

open Search

/-! ## Steps of a match -/

theorem matchRun_eq_some {spec : RunSpec} {items : List Term} {b c : Bindings}
    (h : (spec.matchRun items b).result = some c) :
    spec.least ≤ items.length ∧ items.all (Term.hasOptionalType spec.type) = true
      ∧ (match spec.name with
        | some name => b.bind? name (.call "Sequence" items) = some c
        | none => c = b) := by
  unfold RunSpec.matchRun at h
  split at h
  · next hfits =>
    rw [Bool.and_eq_true, decide_eq_true_eq] at hfits
    refine ⟨hfits.1, hfits.2, ?_⟩
    cases hname : spec.name with
    | some name =>
      rw [hname] at h
      exact h
    | none =>
      rw [hname] at h
      exact (Option.some.inj h).symm
  · cases h

theorem checkCondition_eq_some {context : MatchContext} {proviso : Term} {b c : Bindings}
    (h : (context.checkCondition proviso b).result = some c) : c = b := by
  unfold MatchContext.checkCondition at h
  split at h
  · dsimp only at h
    split at h
    · exact (Option.some.inj h).symm
    · cases h
  · exact (require_eq_some h).2

theorem checkTest_eq_some {context : MatchContext} {predicate subject : Term} {b c : Bindings}
    (h : (context.checkTest predicate subject b).result = some c) : c = b := by
  unfold MatchContext.checkTest at h
  split at h
  · dsimp only at h
    split at h
    · exact (Option.some.inj h).symm
    · cases h
  · exact (require_eq_some h).2

/-- A relation between the bindings before and after a match of terms with the property `T` that
binds some of the names. It holds where nothing is bound, it composes, and it holds where one of the
names is bound to such a term, or to a run of such terms. Parts of a term inherit the property, and
so do its arguments grouped under its head. -/
structure MatchSteps (T : Term → Prop) (names : List String)
    (R : Bindings → Bindings → Prop) : Prop where
  refl : ∀ b, R b b
  trans : ∀ {b c d}, R b c → R c d → R b d
  parts : ∀ {head args marks}, T (.app head args marks) → T head ∧ ∀ a ∈ args, T a
  group : ∀ {head args marks items}, T (.app head args marks) → (∀ a ∈ items, T a) →
    T (.apply head items)
  one : ∀ {name t b c}, name ∈ names → T t → b.bind? name t = some c → R b c
  run : ∀ {name items b c}, name ∈ names → (∀ a ∈ items, T a) →
    b.bind? name (.call "Sequence" items) = some c → R b c

/-- A match of a term with the property relates the bindings before to those after it. -/
def Matcher.Relates (T : Term → Prop) (R : Bindings → Bindings → Prop) (m : Matcher) : Prop :=
  ∀ ⦃t b c⦄, T t → (m t b).result = some c → R b c

/-- What is at the place does, if it binds only some of the names. -/
def Slot.Relates (T : Term → Prop) (names : List String) (R : Bindings → Bindings → Prop) :
    Slot Matcher → Prop
  | .run spec => spec.names ⊆ names
  | .optional one => one.Relates T R
  | .single one => one.Relates T R

variable {T : Term → Prop} {names : List String} {R : Bindings → Bindings → Prop}

section

variable (hR : MatchSteps T names R) {items : List Term} {b c : Bindings}

include hR

theorem Matcher.relates_of_keeps {m : Matcher} (h : ∀ t b c, (m t b).result = some c → c = b) :
    m.Relates T R := by
  intro t b c _ hm
  rw [h t b c hm]
  exact hR.refl b

theorem related_matchRun {spec : RunSpec} (hspec : spec.names ⊆ names) (hitems : ∀ a ∈ items, T a)
    (h : (spec.matchRun items b).result = some c) : R b c := by
  obtain ⟨_, _, hbind⟩ := matchRun_eq_some h
  cases hname : spec.name with
  | some name =>
    rw [hname] at hbind
    exact hR.run (hspec (by simp [RunSpec.names, hname])) hitems hbind
  | none =>
    rw [hname] at hbind
    rw [hbind]
    exact hR.refl b

theorem related_matchInOrder {slots : List (Slot Matcher)}
    (hslots : ∀ s ∈ slots, s.Relates T names R) (hitems : ∀ a ∈ items, T a)
    (h : (matchInOrder slots items b).result = some c) : R b c := by
  induction slots generalizing items b with
  | nil =>
    rw [(require_eq_some h).2]
    exact hR.refl b
  | cons s rest ih =>
    obtain ⟨hs, hrest⟩ := List.forall_mem_cons.mp hslots
    cases s with
    | run spec =>
      obtain ⟨k, _, hk⟩ := exists_of_firstOf h
      obtain ⟨b₁, hrun, hothers⟩ := andThen_eq_some.mp hk
      have htaken : ∀ a ∈ items.take k, T a := fun a ha => hitems a (List.mem_of_mem_take ha)
      have hleft : ∀ a ∈ items.drop k, T a := fun a ha => hitems a (List.mem_of_mem_drop ha)
      exact hR.trans (related_matchRun hR hs htaken hrun) (ih hrest hleft hothers)
    | optional one =>
      cases items with
      | nil => exact ih hrest hitems h
      | cons item others =>
        rcases orElse_eq_some h with htaken | hleft
        · obtain ⟨b₁, hone, hothers⟩ := andThen_eq_some.mp htaken
          obtain ⟨hitem, hitems⟩ := List.forall_mem_cons.mp hitems
          exact hR.trans (hs hitem hone) (ih hrest hitems hothers)
        · exact ih hrest hitems hleft
    | single one =>
      cases items with
      | nil => cases h
      | cons item others =>
        obtain ⟨b₁, hone, hothers⟩ := andThen_eq_some.mp h
        obtain ⟨hitem, hitems⟩ := List.forall_mem_cons.mp hitems
        exact hR.trans (hs hitem hone) (ih hrest hitems hothers)

theorem related_matchEach {ms : List Matcher} (hms : ∀ m ∈ ms, m.Relates T R)
    (hitems : ∀ a ∈ items, T a) (h : (matchEach ms items b).result = some c) : R b c := by
  induction ms generalizing items b with
  | nil =>
    cases h
    exact hR.refl _
  | cons m ms ih =>
    obtain ⟨hm, hms⟩ := List.forall_mem_cons.mp hms
    cases items with
    | nil =>
      cases h
      exact hR.refl _
    | cons item others =>
      obtain ⟨b₁, hone, hothers⟩ := andThen_eq_some.mp h
      obtain ⟨hitem, hitems⟩ := List.forall_mem_cons.mp hitems
      exact hR.trans (hm hitem hone) (ih hms hitems hothers)

omit hR in
theorem relates_of_mem_singles {slots : List (Slot Matcher)}
    (hslots : ∀ s ∈ slots, s.Relates T names R) : ∀ m ∈ Slot.singles slots, m.Relates T R := by
  induction slots with
  | nil => exact nofun
  | cons s rest ih =>
    obtain ⟨hs, hrest⟩ := List.forall_mem_cons.mp hslots
    cases s with
    | run spec => exact ih hrest
    | optional one => exact ih hrest
    | single one => exact List.forall_mem_cons.mpr ⟨hs, ih hrest⟩

section

variable {head : Term} (hgroup : ∀ items, (∀ a ∈ items, T a) → T (grouped head items))

include hgroup

theorem related_matchAbsorbing {ms : List Matcher} (hms : ∀ m ∈ ms, m.Relates T R)
    (hitems : ∀ a ∈ items, T a) (h : (matchAbsorbing head ms items b).result = some c) :
    R b c := by
  obtain ⟨p, hp, hpicked⟩ := exists_of_firstOf h
  obtain ⟨s, hs, hselected⟩ := exists_of_firstSelection hpicked
  obtain ⟨b₁, heach, hwide⟩ := andThen_eq_some.mp hselected
  have hmem : ∀ m ∈ p.1 :: p.2, m.Relates T R := fun m hm =>
    hms m ((pickOne_perm hp).mem_iff.mp hm)
  have hselection : ∀ a ∈ s.1 ++ s.2, T a := fun a ha =>
    hitems a ((selections_perm hs).mem_iff.mp ha)
  obtain ⟨hwidest, hothers⟩ := List.forall_mem_cons.mp hmem
  obtain ⟨hchosen, hrest⟩ := List.forall_mem_append.mp hselection
  exact hR.trans (related_matchEach hR hothers hchosen heach) (hwidest (hgroup _ hrest) hwide)

theorem related_matchGroups {ms : List Matcher} (hms : ∀ m ∈ ms, m.Relates T R)
    (hitems : ∀ a ∈ items, T a) (h : (matchGroups head ms items b).result = some c) : R b c := by
  induction ms generalizing items b with
  | nil =>
    rw [(require_eq_some h).2]
    exact hR.refl b
  | cons m ms ih =>
    obtain ⟨hm, hms⟩ := List.forall_mem_cons.mp hms
    cases ms with
    | nil =>
      rw [matchGroups] at h
      split at h
      · cases h
      · exact hm (hgroup _ hitems) h
    | cons next rest =>
      rw [matchGroups] at h
      · obtain ⟨k, _, hk⟩ := exists_of_firstOf h
        obtain ⟨b₁, hone, hothers⟩ := andThen_eq_some.mp hk
        have htaken : ∀ a ∈ items.take k, T a := fun a ha => hitems a (List.mem_of_mem_take ha)
        have hleft : ∀ a ∈ items.drop k, T a := fun a ha => hitems a (List.mem_of_mem_drop ha)
        exact hR.trans (hm (hgroup _ htaken) hone) (ih hms hleft hothers)
      · exact List.cons_ne_nil next rest

theorem related_matchOrderless {flat : Bool} {slots : List (Slot Matcher)}
    (hslots : ∀ s ∈ slots, s.Relates T names R) (hitems : ∀ a ∈ items, T a)
    (h : (matchOrderless head flat slots items b).result = some c) : R b c := by
  have hsingles := relates_of_mem_singles hslots
  unfold matchOrderless at h
  dsimp only at h
  split at h
  · cases h
  · split at h
    · split at h
      · exact related_matchAbsorbing hR hgroup hsingles hitems h
      · cases h
    · obtain ⟨s, hs, hselected⟩ := exists_of_firstSelection h
      obtain ⟨b₁, heach, hvariadic⟩ := andThen_eq_some.mp hselected
      have hselection : ∀ a ∈ s.1 ++ s.2, T a := fun a ha =>
        hitems a ((selections_perm hs).mem_iff.mp ha)
      obtain ⟨hchosen, hrest⟩ := List.forall_mem_append.mp hselection
      refine hR.trans (related_matchEach hR hsingles hchosen heach)
        (related_matchInOrder hR ?_ hrest hvariadic)
      exact fun s hs => hslots s (List.mem_filter.mp hs).1

theorem related_matchArgs {attributes : Attributes} {slots : List (Slot Matcher)}
    (hslots : ∀ s ∈ slots, s.Relates T names R) (hitems : ∀ a ∈ items, T a)
    (h : (matchArgs attributes head slots items b).result = some c) : R b c := by
  unfold matchArgs at h
  split at h
  · exact related_matchOrderless hR hgroup hslots hitems h
  · split at h
    · exact related_matchGroups hR hgroup (relates_of_mem_singles hslots) hitems h
    · exact related_matchInOrder hR hslots hitems h

end

theorem MatchSteps.grouped {head : Term} {args : List Term} {marks : Marks}
    (hnode : T (.app head args marks)) (items : List Term) (hitems : ∀ a ∈ items, T a) :
    T (grouped head items) := by
  rcases items with _ | ⟨item, _ | _⟩
  · exact hR.group hnode hitems
  · exact hitems item List.mem_cons_self
  · exact hR.group hnode hitems

theorem relates_matchCompound {table : SymbolTable} {symbol : Option String} {head : Matcher}
    (hhead : head.Relates T R) {slots : List (Slot Matcher)}
    (hslots : ∀ s ∈ slots, s.Relates T names R) :
    (matchCompound table symbol head slots).Relates T R := by
  intro t b c ht h
  obtain ⟨k, items, marks, b₁, rfl, hk, hargs, _⟩ := Term.of_matchCompound h
  obtain ⟨htop, hitems⟩ := hR.parts ht
  exact hR.trans (hhead htop hk) (related_matchArgs hR (hR.grouped ht) hslots hitems hargs)

end

mutual

/-- **Every match is made of steps**: what holds of its steps holds of the whole. -/
theorem Pattern.relates_matcher (hR : MatchSteps T names R) (context : MatchContext) (p : Pattern)
    (hp : p.names ⊆ names) : (p.matcher context).Relates T R := by
  match p with
  | .literal a => exact Matcher.relates_of_keeps hR fun _ _ _ h => (require_eq_some h).2
  | .blank type => exact Matcher.relates_of_keeps hR fun _ _ _ h => (require_eq_some h).2
  | .namedBlank name type =>
    intro t b c ht h
    simp only [Pattern.matcher] at h
    split at h
    · exact hR.one (hp List.mem_cons_self) ht h
    · cases h
  | .run spec =>
    exact fun _ _ _ ht h => related_matchRun hR hp (List.forall_mem_singleton.mpr ht) h
  | .never =>
    intro t b c _ h
    cases h
  | .named name inner =>
    intro t b c ht h
    obtain ⟨hname, hinnerNames⟩ := List.cons_subset.mp hp
    obtain ⟨b₁, hinner, hbind⟩ := andThen_eq_some.mp h
    exact hR.trans (Pattern.relates_matcher hR context inner hinnerNames ht hinner)
      (hR.one hname ht hbind)
  | .condition inner proviso =>
    intro t b c ht h
    obtain ⟨b₁, hinner, hcheck⟩ := andThen_eq_some.mp h
    rw [checkCondition_eq_some hcheck]
    exact Pattern.relates_matcher hR context inner hp ht hinner
  | .test inner predicate =>
    intro t b c ht h
    obtain ⟨b₁, hinner, hcheck⟩ := andThen_eq_some.mp h
    rw [checkTest_eq_some hcheck]
    exact Pattern.relates_matcher hR context inner hp ht hinner
  | .alternatives choices =>
    intro t b c ht h
    obtain ⟨m, hm, hone⟩ := exists_of_firstOf h
    exact Pattern.relates_matchers hR context choices hp m hm ht hone
  | .compound symbol head slots =>
    obtain ⟨hhead, hslots⟩ := List.append_subset.mp hp
    exact relates_matchCompound hR (Pattern.relates_matcher hR context head hhead)
      (Slot.relates_matchers hR context slots hslots)

theorem Pattern.relates_matchers (hR : MatchSteps T names R) (context : MatchContext)
    (ps : List Pattern) (hps : Pattern.namesAll ps ⊆ names) :
    ∀ m ∈ Pattern.matchers context ps, m.Relates T R := by
  match ps with
  | [] => exact nofun
  | p :: ps =>
    obtain ⟨hp, hps⟩ := List.append_subset.mp hps
    exact List.forall_mem_cons.mpr
      ⟨Pattern.relates_matcher hR context p hp, Pattern.relates_matchers hR context ps hps⟩

theorem Slot.relates_matchers (hR : MatchSteps T names R) (context : MatchContext)
    (ss : List (Slot Pattern)) (hss : Slot.namesAll ss ⊆ names) :
    ∀ s ∈ Slot.matchers context ss, s.Relates T names R := by
  match ss with
  | [] => exact nofun
  | s :: ss =>
    obtain ⟨hs, hss⟩ := List.append_subset.mp hss
    exact List.forall_mem_cons.mpr
      ⟨Slot.relates_matcher hR context s hs, Slot.relates_matchers hR context ss hss⟩

theorem Slot.relates_matcher (hR : MatchSteps T names R) (context : MatchContext)
    (s : Slot Pattern) (hs : Slot.names s ⊆ names) :
    (Slot.matcher context s).Relates T names R := by
  match s with
  | .run spec => exact hs
  | .optional one => exact Pattern.relates_matcher hR context one hs
  | .single one => exact Pattern.relates_matcher hR context one hs

end

/-! ## Matches bind only names of the pattern -/

/-- Whatever the terms are, binding some of the names lets the bindings grow by them. -/
theorem matchSteps_grows (names : List String) :
    MatchSteps (fun _ => True) names (Bindings.Grows names) where
  refl := .refl names
  trans := .trans
  parts _ := ⟨trivial, fun _ _ => trivial⟩
  group _ _ := trivial
  one hname _ h := Bindings.grows_bind? hname h
  run hname _ h := Bindings.grows_bind? hname h

/-- The matcher keeps what was bound and binds only some of the names. -/
def Matcher.Grows (names : List String) (m : Matcher) : Prop :=
  ∀ ⦃t b c⦄, (m t b).result = some c → Bindings.Grows names b c

/-- What is at the place binds only some of the names. -/
def Slot.Grows (names : List String) : Slot Matcher → Prop
  | .run spec => spec.names ⊆ names
  | .optional one => one.Grows names
  | .single one => one.Grows names

theorem Matcher.grows_iff {m : Matcher} :
    m.Grows names ↔ m.Relates (fun _ => True) (Bindings.Grows names) := by
  simp only [Matcher.Grows, Matcher.Relates, forall_const]

theorem Slot.grows_iff {s : Slot Matcher} :
    s.Grows names ↔ s.Relates (fun _ => True) names (Bindings.Grows names) := by
  cases s with
  | run spec => exact Iff.rfl
  | optional one => exact Matcher.grows_iff
  | single one => exact Matcher.grows_iff

section

variable {items : List Term} {b c : Bindings}

theorem grows_matchRun {spec : RunSpec} (hspec : spec.names ⊆ names)
    (h : (spec.matchRun items b).result = some c) : b.Grows names c :=
  related_matchRun (matchSteps_grows names) hspec (fun _ _ => trivial) h

theorem grows_matchInOrder {slots : List (Slot Matcher)} (hslots : ∀ s ∈ slots, s.Grows names)
    (h : (matchInOrder slots items b).result = some c) : b.Grows names c :=
  related_matchInOrder (matchSteps_grows names) (fun s hs => Slot.grows_iff.mp (hslots s hs))
    (fun _ _ => trivial) h

theorem grows_matchEach {ms : List Matcher} (hms : ∀ m ∈ ms, m.Grows names)
    (h : (matchEach ms items b).result = some c) : b.Grows names c :=
  related_matchEach (matchSteps_grows names) (fun m hm => Matcher.grows_iff.mp (hms m hm))
    (fun _ _ => trivial) h

theorem grows_matchGroups {head : Term} {ms : List Matcher} (hms : ∀ m ∈ ms, m.Grows names)
    (h : (matchGroups head ms items b).result = some c) : b.Grows names c :=
  related_matchGroups (matchSteps_grows names) (fun _ _ => trivial)
    (fun m hm => Matcher.grows_iff.mp (hms m hm)) (fun _ _ => trivial) h

theorem grows_matchArgs {attributes : Attributes} {head : Term} {slots : List (Slot Matcher)}
    (hslots : ∀ s ∈ slots, s.Grows names)
    (h : (matchArgs attributes head slots items b).result = some c) : b.Grows names c :=
  related_matchArgs (matchSteps_grows names) (fun _ _ => trivial)
    (fun s hs => Slot.grows_iff.mp (hslots s hs)) (fun _ _ => trivial) h

end

/-! ## Terms as patterns -/

namespace Term

/-- The names that an argument may bind. -/
def argNames (a : Term) : List String := Slot.names (Slot.ofTerm a (Pattern.ofTerm a))

theorem namesAll_ofTerms (args : List Term) :
    Pattern.namesAll (Pattern.ofTerms args) = args.flatMap patternNames := by
  induction args with
  | nil => rfl
  | cons a as ih =>
    rw [Pattern.ofTerms, Pattern.namesAll, ih, List.flatMap_cons]
    rfl

theorem namesAll_slots (args : List Term) :
    Slot.namesAll (List.zipWith Slot.ofTerm args (Pattern.ofTerms args))
      = args.flatMap argNames := by
  induction args with
  | nil => rfl
  | cons a as ih =>
    rw [Pattern.ofTerms, List.zipWith_cons_cons, Slot.namesAll, ih, List.flatMap_cons]
    rfl

theorem grows_searchMatch (context : MatchContext) (p : Term) :
    Matcher.Grows p.patternNames (p.searchMatch context) :=
  Matcher.grows_iff.mpr <|
    Pattern.relates_matcher (matchSteps_grows _) context (.ofTerm p) (List.Subset.refl _)

theorem grows_searchMatches (context : MatchContext) (ps : List Term) :
    ∀ m ∈ ps.map (searchMatch context), Matcher.Grows (ps.flatMap patternNames) m := by
  intro m hm
  obtain ⟨p, hp, rfl⟩ := List.mem_map.mp hm
  have hnames : (Pattern.ofTerm p).names ⊆ ps.flatMap patternNames := fun _ hname =>
    List.mem_flatMap.mpr ⟨p, hp, hname⟩
  exact Matcher.grows_iff.mpr (Pattern.relates_matcher (matchSteps_grows _) context _ hnames)

theorem grows_slots (context : MatchContext) (args : List Term) :
    ∀ s ∈ args.map (slot context), s.Grows (args.flatMap argNames) := by
  intro s hs
  obtain ⟨a, ha, rfl⟩ := List.mem_map.mp hs
  have hnames : a.argNames ⊆ args.flatMap argNames := fun _ hname =>
    List.mem_flatMap.mpr ⟨a, ha, hname⟩
  exact Slot.grows_iff.mpr (Slot.relates_matcher (matchSteps_grows _) context _ hnames)

end Term

end TermRewriting
