import TermRewriting.Proofs.Pattern.InPlaceSearch

/-!
# The cut-off of runs loses no match

A run is not tried at lengths that leave less than the later places take at least. The search that
tries every length up to all that is left (`matchAllLengths`) finds the same bindings: whatever the
places are, it succeeds only on lists that are long enough for all of them
(`leastArgs_le_of_matchAllLengths`), so each of the further lengths fails (`agree_matchAllLengths`).

A search in order may stand inside another one, where a place holds a compound pattern. The matchers
of patterns are therefore given with the search in order as a parameter (`Pattern.matcherBy`), and
the longer search is put in its place throughout.
-/

namespace TermRewriting

open Search

/-! ## Every length -/

/-- Arguments in order, where a run tries every length from its least one to all that is left. -/
def matchAllLengths : List (Slot Matcher) → List Term → Bindings → Search Bindings
  | [], items, b => .require items.isEmpty b
  | .run spec :: rest, items, b =>
    .firstOf (lengthsBetween spec.least items.length) fun k =>
      (spec.matchRun (items.take k) b).andThen (matchAllLengths rest (items.drop k))
  | .optional one :: rest, items, b =>
    match items with
    | item :: others =>
      ((one item b).andThen (matchAllLengths rest others)).orElse fun _ =>
        matchAllLengths rest items b
    | [] => matchAllLengths rest [] b
  | .single one :: rest, items, b =>
    match items with
    | item :: others => (one item b).andThen (matchAllLengths rest others)
    | [] => .fail

/-- **The search through all lengths succeeds only where there are items enough.** -/
theorem leastArgs_le_of_matchAllLengths {slots : List (Slot Matcher)} {items : List Term}
    {b d : Bindings} (h : (matchAllLengths slots items b).result = some d) :
    leastArgs slots ≤ items.length := by
  induction slots generalizing items b with
  | nil => exact Nat.zero_le _
  | cons s rest ih =>
    cases s with
    | run spec =>
      rw [matchAllLengths, result_firstOf] at h
      obtain ⟨k, -, hk⟩ := List.exists_of_findSome?_eq_some h
      obtain ⟨b₁, hrun, hrest⟩ := andThen_eq_some.mp hk
      obtain ⟨hleast, -⟩ := matchRun_eq_some hrun
      have hothers := ih hrest
      -- the run and what it leaves are together the whole list
      rw [List.length_take] at hleast
      rw [List.length_drop] at hothers
      rw [leastArgs]
      omega
    | optional one =>
      rw [leastArgs]
      cases items with
      | nil => exact ih h
      | cons item others =>
        rw [matchAllLengths, result_orElse, Option.or_eq_some_iff] at h
        rcases h with htaken | ⟨-, hleft⟩
        · obtain ⟨b₁, -, hrest⟩ := andThen_eq_some.mp htaken
          exact Nat.le_succ_of_le (ih hrest)
        · exact ih hleft
    | single one =>
      cases items with
      | nil => cases h
      | cons item others =>
        obtain ⟨b₁, -, hrest⟩ := andThen_eq_some.mp h
        have hothers := ih hrest
        rw [leastArgs, List.length_cons]
        omega

/-! ## Lengths that add nothing -/

/-- Up to a higher bound the same lengths come first. -/
theorem lengthsBetween_append {low mid high : Nat} (h : mid ≤ high) :
    lengthsBetween low mid ++ lengthsBetween (max low (mid + 1)) high
      = lengthsBetween low high := by
  unfold lengthsBetween
  rcases Nat.le_total low (mid + 1) with hlow | hlow
  · have hstart : max low (mid + 1) = low + (mid + 1 - low) := by omega
    have hcount : mid + 1 - low + (high + 1 - (low + (mid + 1 - low))) = high + 1 - low := by omega
    rw [hstart, List.range'_append_1, hcount]
  · have hnone : mid + 1 - low = 0 := by omega
    rw [hnone, Nat.max_eq_left hlow, List.range'_zero, List.nil_append]

/-- Lengths at which the attempt fails can be left out at the end. -/
theorem result_firstOf_lengthsBetween {α : Type} {low mid high : Nat} {attempt : Nat → Search α}
    (hmid : mid ≤ high) (hfail : ∀ k, mid < k → k ≤ high → (attempt k).result = none) :
    (firstOf (lengthsBetween low high) attempt).result
      = (firstOf (lengthsBetween low mid) attempt).result := by
  have hnone : (lengthsBetween (max low (mid + 1)) high).findSome? (fun k => (attempt k).result)
      = none := by
    rw [List.findSome?_eq_none_iff]
    intro k hk
    rw [lengthsBetween, List.mem_range'_1] at hk
    exact hfail k (by omega) (by omega)
  rw [result_firstOf, result_firstOf, ← lengthsBetween_append hmid, List.findSome?_append, hnone,
    Option.or_none]

/-! ## Matchers with the same results -/

/-- The matchers find the same bindings, whatever they ask. -/
def Matcher.SameResults (m m' : Matcher) : Prop := ∀ t b, Agree Eq (m t b) (m' t b)

/-- The places are of one kind, and what is there finds the same bindings. -/
inductive Slot.SameResults : Slot Matcher → Slot Matcher → Prop where
  | run (spec : RunSpec) : Slot.SameResults (.run spec) (.run spec)
  | optional {m m' : Matcher} : m.SameResults m' → Slot.SameResults (.optional m) (.optional m')
  | single {m m' : Matcher} : m.SameResults m' → Slot.SameResults (.single m) (.single m')

theorem agree_eq_iff {α : Type} {s t : Search α} : Agree Eq s t ↔ s.result = t.result := by
  unfold Agree
  constructor
  · intro h
    obtain ⟨hs, ht⟩ | ⟨a, _, hs, ht, rfl⟩ := optionRel_cases h
    · rw [hs, ht]
    · rw [hs, ht]
  · intro h
    rw [h]
    cases t.result with
    | none => exact .none
    | some a => exact .some rfl

theorem agree_eq_refl {α : Type} (s : Search α) : Agree Eq s s := agree_eq_iff.mpr rfl

/-- The second search may be looked at from the bindings that the first one finds. -/
theorem agree_andThen_eq {α β : Type} {s s' : Search β} {next next' : β → Search α}
    (hs : Agree Eq s s') (hnext : ∀ b, Agree Eq (next b) (next' b)) :
    Agree Eq (s.andThen next) (s'.andThen next') :=
  agree_andThen hs fun b _ hb => hb ▸ hnext b

theorem leastArgs_eq_of_sameResults {slots slots' : List (Slot Matcher)}
    (h : List.Forall₂ Slot.SameResults slots slots') : leastArgs slots = leastArgs slots' := by
  induction h with
  | nil => rfl
  | cons hs _ ih => cases hs <;> rw [leastArgs, leastArgs, ih]

theorem sameResults_slot_refl (s : Slot Matcher) : Slot.SameResults s s := by
  cases s with
  | run spec => exact .run spec
  | optional one => exact .optional fun t b => agree_eq_refl _
  | single one => exact .single fun t b => agree_eq_refl _

/-- **Trying further lengths changes nothing.** -/
theorem agree_matchAllLengths {slots slots' : List (Slot Matcher)}
    (h : List.Forall₂ Slot.SameResults slots slots') (items : List Term) (b : Bindings) :
    Agree Eq (matchInOrder slots items b) (matchAllLengths slots' items b) := by
  induction h generalizing items b with
  | nil => exact agree_eq_refl _
  | @cons _ _ rest rest' hs hrest ih =>
    cases hs with
    | run spec =>
      have hlengths : ∀ lengths : List Nat, Agree Eq
          (firstOf lengths fun k =>
            (spec.matchRun (items.take k) b).andThen (matchInOrder rest (items.drop k)))
          (firstOf lengths fun k =>
            (spec.matchRun (items.take k) b).andThen (matchAllLengths rest' (items.drop k))) :=
        fun lengths => agree_firstOf_same fun k _ =>
          agree_andThen_eq (agree_eq_refl _) (ih (items.drop k))
      refine agree_eq_iff.mpr ((agree_eq_iff.mp (hlengths _)).trans ?_)
      refine (result_firstOf_lengthsBetween (Nat.sub_le _ _) fun k hlow hhigh => ?_).symm
      -- after such a run the other places would have to do with less than they need
      by_contra hfound
      obtain ⟨d, hd⟩ := Option.ne_none_iff_exists'.mp hfound
      obtain ⟨b₁, -, hothers⟩ := andThen_eq_some.mp hd
      have hneeded := leastArgs_le_of_matchAllLengths hothers
      rw [← leastArgs_eq_of_sameResults hrest, List.length_drop] at hneeded
      omega
    | optional hone =>
      cases items with
      | nil => exact ih [] b
      | cons item others =>
        exact agree_orElse (agree_andThen_eq (hone item b) (ih others)) (ih (item :: others) b)
    | single hone =>
      cases items with
      | nil => exact agree_eq_refl _
      | cons item others => exact agree_andThen_eq (hone item b) (ih others)

/-! ## Another search in order -/

/-- A search through an argument list. -/
abbrev ArgsMatcher := List (Slot Matcher) → List Term → Bindings → Search Bindings

section InOrder

variable (inOrder : ArgsMatcher)

/-- Arguments in any order, as in `matchOrderless`, with another search in order. -/
def matchOrderlessBy (head : Term) (flat : Bool) (slots : List (Slot Matcher)) (items : List Term)
    (b : Bindings) : Search Bindings :=
  let singles := Slot.singles slots
  let variadic := slots.filter Slot.isVariadic
  if items.length < singles.length then .fail
  else if variadic.isEmpty && singles.length < items.length then
    if flat then matchAbsorbing head singles items b else .fail
  else
    .firstSelection singles.length items fun picked rest =>
      (matchEach singles picked b).andThen (inOrder variadic rest)

/-- The arguments of a compound pattern, as in `matchArgs`, with another search in order. -/
def matchArgsBy (attributes : Attributes) (head : Term) (slots : List (Slot Matcher))
    (items : List Term) (b : Bindings) : Search Bindings :=
  if attributes.isOrderless then matchOrderlessBy inOrder head attributes.isFlat slots items b
  else if attributes.isFlat && !slots.any Slot.isVariadic then
    matchGroups head (Slot.singles slots) items b
  else inOrder slots items b

/-- A compound pattern, as in `matchCompound`, with another search in order. -/
def matchCompoundBy (table : SymbolTable) (symbol : Option String) (head : Matcher)
    (slots : List (Slot Matcher)) : Matcher
  | .atom _, _ => .fail
  | .app h items _, b =>
    let attributes := (symbol.map table.attributes).getD .empty
    if !slots.any Slot.isVariadic && !attributes.isFlat && slots.length != items.length then .fail
    else (head h b).andThen (matchArgsBy inOrder attributes h slots items)

mutual

/-- The matcher of a pattern, with another search in order wherever one is made. -/
def Pattern.matcherBy (c : MatchContext) : Pattern → Matcher
  | .literal a => fun t b => .require ((Term.atom a).identical t) b
  | .blank type => fun t b => .require (t.hasOptionalType type) b
  | .namedBlank name type => fun t b =>
    if t.hasOptionalType type then .ofOption (b.bind? name t) else .fail
  | .run spec => fun t b => spec.matchRun [t] b
  | .never => fun _ _ => .fail
  | .named name inner => fun t b =>
    (inner.matcherBy c t b).andThen fun b => .ofOption (b.bind? name t)
  | .condition inner proviso => fun t b =>
    (inner.matcherBy c t b).andThen (c.checkCondition proviso)
  | .test inner predicate => fun t b =>
    (inner.matcherBy c t b).andThen (c.checkTest predicate t)
  | .alternatives choices => matchFirst (Pattern.matchersBy c choices)
  | .compound symbol head slots =>
    matchCompoundBy inOrder c.table symbol (head.matcherBy c) (Slot.matchersBy c slots)

def Pattern.matchersBy (c : MatchContext) : List Pattern → List Matcher
  | [] => []
  | p :: ps => p.matcherBy c :: Pattern.matchersBy c ps

def Slot.matchersBy (c : MatchContext) : List (Slot Pattern) → List (Slot Matcher)
  | [] => []
  | s :: ss => Slot.matcherBy c s :: Slot.matchersBy c ss

def Slot.matcherBy (c : MatchContext) : Slot Pattern → Slot Matcher
  | .run spec => .run spec
  | .optional one => .optional (one.matcherBy c)
  | .single one => .single (one.matcherBy c)

end

end InOrder

/-- With `matchInOrder` itself in its place nothing changes. -/
theorem matchCompoundBy_matchInOrder : matchCompoundBy matchInOrder = matchCompound := by
  funext table symbol head slots t b
  cases t with
  | atom a => rfl
  | app h items marks => rfl

mutual

theorem Pattern.matcherBy_matchInOrder (c : MatchContext) (p : Pattern) :
    p.matcherBy matchInOrder c = p.matcher c := by
  match p with
  | .literal _ | .blank _ | .namedBlank _ _ | .run _ | .never => rfl
  | .named name inner =>
    rw [Pattern.matcherBy, Pattern.matcher, Pattern.matcherBy_matchInOrder c inner]
  | .condition inner proviso =>
    rw [Pattern.matcherBy, Pattern.matcher, Pattern.matcherBy_matchInOrder c inner]
  | .test inner predicate =>
    rw [Pattern.matcherBy, Pattern.matcher, Pattern.matcherBy_matchInOrder c inner]
  | .alternatives choices =>
    rw [Pattern.matcherBy, Pattern.matcher, Pattern.matchersBy_matchInOrder c choices]
  | .compound symbol head slots =>
    rw [Pattern.matcherBy, Pattern.matcher, Pattern.matcherBy_matchInOrder c head,
      Slot.matchersBy_matchInOrder c slots, matchCompoundBy_matchInOrder]

theorem Pattern.matchersBy_matchInOrder (c : MatchContext) (ps : List Pattern) :
    Pattern.matchersBy matchInOrder c ps = Pattern.matchers c ps := by
  match ps with
  | [] => rfl
  | p :: ps =>
    rw [Pattern.matchersBy, Pattern.matchers, Pattern.matcherBy_matchInOrder c p,
      Pattern.matchersBy_matchInOrder c ps]

theorem Slot.matchersBy_matchInOrder (c : MatchContext) (ss : List (Slot Pattern)) :
    Slot.matchersBy matchInOrder c ss = Slot.matchers c ss := by
  match ss with
  | [] => rfl
  | s :: ss =>
    rw [Slot.matchersBy, Slot.matchers, Slot.matcherBy_matchInOrder c s,
      Slot.matchersBy_matchInOrder c ss]

theorem Slot.matcherBy_matchInOrder (c : MatchContext) (s : Slot Pattern) :
    Slot.matcherBy matchInOrder c s = Slot.matcher c s := by
  match s with
  | .run spec => rfl
  | .optional one =>
    rw [Slot.matcherBy, Slot.matcher, Pattern.matcherBy_matchInOrder c one]
  | .single one =>
    rw [Slot.matcherBy, Slot.matcher, Pattern.matcherBy_matchInOrder c one]

end

/-! ## Every length throughout -/

theorem sameResults_singles {slots slots' : List (Slot Matcher)}
    (h : List.Forall₂ Slot.SameResults slots slots') :
    List.Forall₂ Matcher.SameResults (Slot.singles slots) (Slot.singles slots') := by
  induction h with
  | nil => exact .nil
  | cons hs _ ih =>
    cases hs with
    | run spec => exact ih
    | optional _ => exact ih
    | single hone => exact .cons hone ih

theorem Slot.SameResults.isVariadic_eq {s s' : Slot Matcher} (h : Slot.SameResults s s') :
    s.isVariadic = s'.isVariadic := by
  cases h <;> rfl

theorem sameResults_variadic {slots slots' : List (Slot Matcher)}
    (h : List.Forall₂ Slot.SameResults slots slots') :
    List.Forall₂ Slot.SameResults (slots.filter Slot.isVariadic)
      (slots'.filter Slot.isVariadic) := by
  induction h with
  | nil => exact .nil
  | @cons s s' _ _ hs _ ih =>
    rw [List.filter_cons, List.filter_cons, hs.isVariadic_eq]
    split
    · exact .cons hs ih
    · exact ih

theorem any_isVariadic_of_sameResults {slots slots' : List (Slot Matcher)}
    (h : List.Forall₂ Slot.SameResults slots slots') :
    slots.any Slot.isVariadic = slots'.any Slot.isVariadic := by
  induction h with
  | nil => rfl
  | cons hs _ ih => rw [List.any_cons, List.any_cons, hs.isVariadic_eq, ih]

theorem sameResults_matchEach {ms ms' : List Matcher} (h : List.Forall₂ Matcher.SameResults ms ms')
    (items : List Term) (b : Bindings) :
    Agree Eq (matchEach ms items b) (matchEach ms' items b) := by
  induction h generalizing items b with
  | nil => exact agree_eq_refl _
  | cons hm _ ih =>
    cases items with
    | nil => exact agree_eq_refl _
    | cons item others => exact agree_andThen_eq (hm item b) (ih others)

theorem sameResults_matchAbsorbing (head : Term) {ms ms' : List Matcher}
    (h : List.Forall₂ Matcher.SameResults ms ms') (items : List Term) (b : Bindings) :
    Agree Eq (matchAbsorbing head ms items b) (matchAbsorbing head ms' items b) := by
  refine agree_firstOf (forall₂_pickOne h) ?_
  rintro p p' ⟨hwide, hothers⟩
  rw [hothers.length_eq, firstSelection_eq_firstOf, firstSelection_eq_firstOf]
  refine agree_firstOf_same fun s _ => ?_
  exact agree_andThen_eq (sameResults_matchEach hothers s.1 b) (hwide (grouped head s.2))

theorem sameResults_matchGroups (head : Term) {ms ms' : List Matcher}
    (h : List.Forall₂ Matcher.SameResults ms ms') (items : List Term) (b : Bindings) :
    Agree Eq (matchGroups head ms items b) (matchGroups head ms' items b) := by
  induction h generalizing items b with
  | nil => exact agree_eq_refl _
  | @cons m m' rest rest' hm hrest ih =>
    rw [matchGroups_cons, matchGroups_cons, hrest.length_eq, forall₂_isEmpty_eq hrest]
    split
    · exact agree_fail
    · refine agree_firstOf_same fun k _ => ?_
      exact agree_andThen_eq (hm (grouped head (items.take k)) b) (ih (items.drop k))

theorem sameResults_matchOrderless (head : Term) (flat : Bool) {slots slots' : List (Slot Matcher)}
    (h : List.Forall₂ Slot.SameResults slots slots') (items : List Term) (b : Bindings) :
    Agree Eq (matchOrderless head flat slots items b)
      (matchOrderlessBy matchAllLengths head flat slots' items b) := by
  have hsingles := sameResults_singles h
  have hvariadic := sameResults_variadic h
  unfold matchOrderless matchOrderlessBy
  dsimp only
  rw [hsingles.length_eq, forall₂_isEmpty_eq hvariadic]
  split
  · exact agree_fail
  · split
    · split
      · exact sameResults_matchAbsorbing head hsingles items b
      · exact agree_fail
    · rw [firstSelection_eq_firstOf, firstSelection_eq_firstOf]
      refine agree_firstOf_same fun s _ => ?_
      exact agree_andThen_eq (sameResults_matchEach hsingles s.1 b)
        (agree_matchAllLengths hvariadic s.2)

theorem sameResults_matchArgs (attributes : Attributes) (head : Term)
    {slots slots' : List (Slot Matcher)} (h : List.Forall₂ Slot.SameResults slots slots')
    (items : List Term) (b : Bindings) :
    Agree Eq (matchArgs attributes head slots items b)
      (matchArgsBy matchAllLengths attributes head slots' items b) := by
  unfold matchArgs matchArgsBy
  rw [any_isVariadic_of_sameResults h]
  split
  · exact sameResults_matchOrderless head attributes.isFlat h items b
  · split
    · exact sameResults_matchGroups head (sameResults_singles h) items b
    · exact agree_matchAllLengths h items b

theorem sameResults_matchCompound (table : SymbolTable) (symbol : Option String)
    {head head' : Matcher} (hhead : head.SameResults head') {slots slots' : List (Slot Matcher)}
    (h : List.Forall₂ Slot.SameResults slots slots') :
    (matchCompound table symbol head slots).SameResults
      (matchCompoundBy matchAllLengths table symbol head' slots') := by
  intro t b
  cases t with
  | atom a => exact agree_fail
  | app k items marks =>
    unfold matchCompound matchCompoundBy
    dsimp only
    rw [any_isVariadic_of_sameResults h, h.length_eq]
    split
    · exact agree_fail
    · exact agree_andThen_eq (hhead k b) (sameResults_matchArgs _ k h items)

mutual

/-- **A pattern matches what it matches with every length tried, with the same bindings.** -/
theorem Pattern.sameResults_matcher (c : MatchContext) (p : Pattern) :
    (p.matcher c).SameResults (p.matcherBy matchAllLengths c) := by
  match p with
  | .literal _ | .blank _ | .namedBlank _ _ | .run _ | .never => exact fun t b => agree_eq_refl _
  | .named name inner =>
    exact fun t b => agree_andThen_eq (Pattern.sameResults_matcher c inner t b)
      fun _ => agree_eq_refl _
  | .condition inner proviso =>
    exact fun t b => agree_andThen_eq (Pattern.sameResults_matcher c inner t b)
      fun _ => agree_eq_refl _
  | .test inner predicate =>
    exact fun t b => agree_andThen_eq (Pattern.sameResults_matcher c inner t b)
      fun _ => agree_eq_refl _
  | .alternatives choices =>
    exact fun t b => agree_firstOf (Pattern.sameResults_matchers c choices) fun _ _ hm => hm t b
  | .compound symbol head slots =>
    exact sameResults_matchCompound c.table symbol (Pattern.sameResults_matcher c head)
      (Slot.sameResults_matchers c slots)

theorem Pattern.sameResults_matchers (c : MatchContext) (ps : List Pattern) :
    List.Forall₂ Matcher.SameResults (Pattern.matchers c ps)
      (Pattern.matchersBy matchAllLengths c ps) := by
  match ps with
  | [] => exact .nil
  | p :: ps => exact .cons (Pattern.sameResults_matcher c p) (Pattern.sameResults_matchers c ps)

theorem Slot.sameResults_matchers (c : MatchContext) (ss : List (Slot Pattern)) :
    List.Forall₂ Slot.SameResults (Slot.matchers c ss) (Slot.matchersBy matchAllLengths c ss) := by
  match ss with
  | [] => exact .nil
  | s :: ss => exact .cons (Slot.sameResults_matcher c s) (Slot.sameResults_matchers c ss)

theorem Slot.sameResults_matcher (c : MatchContext) (s : Slot Pattern) :
    Slot.SameResults (Slot.matcher c s) (Slot.matcherBy matchAllLengths c s) := by
  match s with
  | .run spec => exact .run spec
  | .optional one => exact .optional (Pattern.sameResults_matcher c one)
  | .single one => exact .single (Pattern.sameResults_matcher c one)

end

/-! ## Terms against terms -/

namespace Term

variable {c : MatchContext}

/-- How many items an argument of a pattern takes at least: a run its least number, an optional
argument none, and whatever is neither takes one. -/
def leastItems (a : Term) : Nat :=
  match RunSpec.ofTerm? a with
  | some spec => spec.least
  | none => if a.isOptional then 0 else 1

/-- The matcher at the place of an argument, with another search in order inside it. -/
def slotBy (inOrder : ArgsMatcher) (c : MatchContext) (a : Term) : Slot Matcher :=
  Slot.matcherBy inOrder c (Slot.ofTerm a (Pattern.ofTerm a))

/-- The trial at the place of an argument. -/
def trialSlot {ω : Type} (table : SymbolTable) (hooks : Hooks ω) (a : Term) : Slot (Trial ω) :=
  Slot.trial table hooks (Slot.ofTerm a (Pattern.ofTerm a))

theorem leastArgs_cons_slot (a : Term) (rest : List (Slot Matcher)) :
    leastArgs (a.slot c :: rest) = a.leastItems + leastArgs rest := by
  unfold leastItems slot Slot.ofTerm
  cases RunSpec.ofTerm? a with
  | some spec => rfl
  | none =>
    cases a.isOptional with
    | true => exact (Nat.zero_add _).symm
    | false => rfl

theorem leastArgs_slots (ps : List Term) :
    leastArgs (ps.map (slot c)) = (ps.map leastItems).sum := by
  induction ps with
  | nil => rfl
  | cons p ps ih => rw [List.map_cons, leastArgs_cons_slot, ih, List.map_cons, List.sum_cons]

theorem slotBy_matchInOrder (a : Term) : a.slotBy matchInOrder c = a.slot c :=
  Slot.matcherBy_matchInOrder c _

theorem sameResults_slots (ps : List Term) :
    List.Forall₂ Slot.SameResults (ps.map (slot c)) (ps.map (slotBy matchAllLengths c)) := by
  rw [List.forall₂_map_left_iff, List.forall₂_map_right_iff]
  exact List.forall₂_same.mpr fun a _ => Slot.sameResults_matcher c _

theorem implements_trialSlots (ps : List Term) :
    List.Forall₂ Slot.Implements (ps.map (trialSlot c.table c.oracle.hooks)) (ps.map (slot c)) := by
  rw [List.forall₂_map_left_iff, List.forall₂_map_right_iff]
  exact List.forall₂_same.mpr fun a _ => Slot.implements_trial c.table c.oracle _

/-- **The cut-off of runs loses no match.** Whatever patterns stand in the list, however badly
formed, and whatever the oracle answers, the search in order finds what it finds when a run tries
every length up to all that is left, be it in this list alone or, where lists are matched in order
inside the patterns, there as well. Matching in place answers and binds the same. For a match
succeeds only if the list has as many items as its patterns take at least, and by these numbers the
runs are cut off. -/
theorem matchInOrder_loses_no_run (c : MatchContext) (ps items : List Term) (b : Bindings) :
    let found := (matchInOrder (ps.map (slot c)) items b).result
    found = (matchAllLengths (ps.map (slot c)) items b).result
      ∧ (∀ p ∈ ps, p.slotBy matchInOrder c = p.slot c)
      ∧ found = (matchAllLengths (ps.map (slotBy matchAllLengths c)) items b).result
      ∧ (∀ asked, ∃ asked',
          tryInOrder (ps.map (trialSlot c.table c.oracle.hooks)) items (b, asked)
            = (found.isSome, (found.getD b, asked')))
      ∧ leastArgs (ps.map (slot c)) = (ps.map leastItems).sum
      ∧ ∀ d, found = some d → (ps.map leastItems).sum ≤ items.length := by
  intro found
  have hsame := agree_eq_iff.mp (agree_matchAllLengths (sameResults_slots (c := c) ps) items b)
  have hhere : found = (matchAllLengths (ps.map (slot c)) items b).result := by
    refine agree_eq_iff.mp (agree_matchAllLengths ?_ items b)
    exact List.forall₂_same.mpr fun s _ => sameResults_slot_refl s
  refine ⟨hhere, fun p _ => slotBy_matchInOrder p, hsame,
    fun asked => ⟨asked ++ (matchInOrder (ps.map (slot c)) items b).asked, ?_⟩,
    leastArgs_slots ps, fun d hd => ?_⟩
  · exact (implements_tryInOrder (implements_trialSlots ps) items).eq b asked
  · rw [← leastArgs_slots (c := c)]
    exact leastArgs_le_of_matchAllLengths (hhere.symm.trans hd)

/-- A run, an optional argument and an ordinary one take two items at least: three are enough for
them, one is not. -/
theorem matchInOrder_loses_no_run_short :
    let x := call "NamedBlankSequence" [symbol "x"]
    let ps := [x, call "Optional" [call "Blank" []], call "Blank" []]
    let d : Bindings := [("x", call "Sequence" [integer 1])]
    let found := fun items => (matchInOrder (ps.map (slot ⟨.empty, {}⟩)) items []).result
    found [integer 1, integer 2, integer 3] = some d
      ∧ (ps.map leastItems).sum ≤ [integer 1, integer 2, integer 3].length
      ∧ found [integer 1] = none := by
  intro x ps d found
  have hfound : found [integer 1, integer 2, integer 3] = some d := rfl
  obtain ⟨-, -, -, -, -, hbound⟩ :=
    matchInOrder_loses_no_run ⟨.empty, {}⟩ ps [integer 1, integer 2, integer 3] []
  exact ⟨hfound, hbound d hfound, rfl⟩

end Term

end TermRewriting
