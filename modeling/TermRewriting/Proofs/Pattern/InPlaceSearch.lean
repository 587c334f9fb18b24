import TermRewriting.Proofs.Pattern.Congruence
import TermRewriting.Proofs.Pattern.InPlace
import TermRewriting.Proofs.Pattern.Variables

/-!
# Matching in place is the search

With the hooks of an oracle, matching in place asks what the search asks, in the same order, and
leaves the bindings that the search finds, or the old ones where it finds none
(`Attempt.Implements`). An attempt that is not undone on failure only follows the search: it finds
the same where there is something to find (`Attempt.Follows`).
-/

namespace TermRewriting

variable {α β : Type}

/-! ## Choices -/

namespace Search

theorem orElse_fail (s : Search α) : (s.orElse fun _ => fail) = s := by
  obtain ⟨result, asked⟩ := s
  cases result with
  | some a => rfl
  | none => simp [orElse, fail]

theorem andThen_succeed (s : Search α) : s.andThen succeed = s := by
  obtain ⟨result, asked⟩ := s
  cases result with
  | some a => simp [andThen, succeed]
  | none => rfl

theorem orElse_assoc (s : Search α) (t u : Unit → Search α) :
    (s.orElse t).orElse u = s.orElse fun _ => (t ()).orElse u := by
  unfold orElse
  cases s.result with
  | some a => rfl
  | none =>
    cases (t ()).result with
    | some a => rfl
    | none => simp [List.append_assoc]

theorem firstOf_append (first second : List β) (attempt : β → Search α) :
    firstOf (first ++ second) attempt
      = (firstOf first attempt).orElse fun _ => firstOf second attempt := by
  induction first with
  | nil => rfl
  | cons b bs ih => rw [List.cons_append, firstOf, firstOf, orElse_assoc, ih]

theorem firstOf_map {γ : Type} (f : γ → β) (choices : List γ) (attempt : β → Search α) :
    firstOf (choices.map f) attempt = firstOf choices fun c => attempt (f c) := by
  induction choices with
  | nil => rfl
  | cons c cs ih => rw [List.map_cons, firstOf, firstOf, ih]

theorem firstOf_flatMap {γ : Type} (f : γ → List β) (choices : List γ) (attempt : β → Search α) :
    firstOf (choices.flatMap f) attempt = firstOf choices fun c => firstOf (f c) attempt := by
  induction choices with
  | nil => rfl
  | cons c cs ih => rw [List.flatMap_cons, firstOf_append, ih, firstOf]

/-- The search through selections asks what a search through their list asks. -/
theorem firstSelection_eq_firstOf (r : Nat) (items : List β)
    (attempt : List β → List β → Search α) :
    firstSelection r items attempt
      = firstOf (selections r items) fun s => attempt s.1 s.2 := by
  induction r generalizing items attempt with
  | zero =>
    rw [firstSelection, selections, firstOf, firstOf]
    exact (orElse_fail _).symm
  | succ r ih =>
    rw [firstSelection, selections, firstOf_flatMap]
    congr 1
    funext p
    rw [ih, firstOf_map]

end Search

open Search

namespace Attempt

/-! ## Attempts and searches -/

/-- The attempt succeeds where the search does, with its bindings, and asks what it asks. -/
structure Follows (attempt : Attempt (List Question) Bool) (search : Bindings → Search Bindings) :
    Prop where
  succeeds : ∀ b asked c, (search b).result = some c →
    attempt (b, asked) = (true, (c, asked ++ (search b).asked))
  fails : ∀ b asked, (search b).result = none →
    (attempt (b, asked)).1 = false ∧ (attempt (b, asked)).2.2 = asked ++ (search b).asked

/-- The attempt follows the search, and leaves the bindings where the search fails. -/
structure Implements (attempt : Attempt (List Question) Bool)
    (search : Bindings → Search Bindings) : Prop where
  succeeds : ∀ b asked c, (search b).result = some c →
    attempt (b, asked) = (true, (c, asked ++ (search b).asked))
  fails : ∀ b asked, (search b).result = none →
    attempt (b, asked) = (false, (b, asked ++ (search b).asked))

variable {attempt first second : Attempt (List Question) Bool}
  {search next : Bindings → Search Bindings}

theorem Implements.follows (h : Implements attempt search) : Follows attempt search := by
  refine ⟨h.succeeds, fun b asked hnone => ?_⟩
  rw [h.fails b asked hnone]
  exact ⟨rfl, rfl⟩

theorem Implements.eq (h : Implements attempt search) (b : Bindings) (asked : List Question) :
    attempt (b, asked)
      = ((search b).result.isSome, ((search b).result.getD b, asked ++ (search b).asked)) := by
  cases hresult : (search b).result with
  | none => rw [h.fails b asked hresult]; rfl
  | some c => rw [h.succeeds b asked c hresult]; rfl

/-- An answer that is read off the bindings. -/
theorem implements_read (ok : Bindings → Bool) :
    Implements (fun s => (ok s.1, s)) fun b => require (ok b) b := by
  constructor
  case succeeds =>
    intro b asked c h
    obtain ⟨hok, rfl⟩ := require_eq_some h
    rw [require, if_pos hok, succeed, List.append_nil]
    exact congrArg (·, _) hok
  case fails =>
    intro b asked h
    have hok : ok b = false := by
      by_contra hok
      rw [require, if_pos (Bool.of_not_eq_false hok)] at h
      cases h
    rw [require, hok, if_neg Bool.false_ne_true, fail, List.append_nil]

theorem implements_pure (ok : Bool) : Implements (pure ok) fun b => require ok b :=
  implements_read fun _ => ok

/-- An answer from outside, to a question that is remembered. -/
theorem implements_ask (answer : Bindings → Bool) (question : Bindings → Question) :
    Implements (fun s => (answer s.1, (s.1, s.2 ++ [question s.1])))
      fun b => ⟨if answer b then some b else none, [question b]⟩ := by
  constructor
  case succeeds =>
    intro b asked c h
    obtain ⟨hok, hc⟩ := Option.ite_none_right_eq_some.mp h
    obtain rfl := Option.some.inj hc
    exact congrArg (·, _) hok
  case fails =>
    intro b asked h
    have hok : answer b = false := by
      by_contra hok
      rw [if_pos (Bool.of_not_eq_false hok)] at h
      cases h
    exact congrArg (·, _) hok

theorem implements_bindIn (name : String) (value : Term) :
    Implements (bindIn name value) fun b => ofOption (b.bind? name value) := by
  constructor
  case succeeds =>
    intro b asked c h
    have hbind : b.bind? name value = some c := h
    rw [run_bindIn, hbind, ofOption, List.append_nil]
    rfl
  case fails =>
    intro b asked h
    have hbind : b.bind? name value = none := h
    rw [run_bindIn, hbind, ofOption, List.append_nil]
    rfl

theorem follows_andThen (hfirst : Follows first search) (hsecond : Follows second next) :
    Follows (first.andThen second) fun b => (search b).andThen next := by
  constructor
  case succeeds =>
    intro b asked d h
    obtain ⟨c, hc, hd⟩ := andThen_eq_some.mp h
    rw [run_andThen, hfirst.succeeds b asked c hc, if_pos rfl, hsecond.succeeds c _ d hd,
      Search.andThen, hc, List.append_assoc]
  case fails =>
    intro b asked h
    rw [run_andThen]
    cases hc : (search b).result with
    | none =>
      obtain ⟨hok, hasked⟩ := hfirst.fails b asked hc
      rw [hok, if_neg Bool.false_ne_true, Search.andThen, hc]
      exact ⟨rfl, hasked⟩
    | some c =>
      have hd : (next c).result = none := by
        rw [result_andThen, hc] at h
        exact h
      obtain ⟨hok, hasked⟩ := hsecond.fails c (asked ++ (search b).asked) hd
      rw [hfirst.succeeds b asked c hc, if_pos rfl, Search.andThen, hc]
      exact ⟨hok, hasked.trans (List.append_assoc _ _ _)⟩

theorem implements_onCopy (h : Follows attempt search) : Implements (onCopy attempt) search := by
  constructor
  case succeeds =>
    intro b asked c hc
    rw [run_onCopy, h.succeeds b asked c hc, if_pos rfl]
  case fails =>
    intro b asked hnone
    obtain ⟨hok, hasked⟩ := h.fails b asked hnone
    rw [run_onCopy, hok, hasked, if_neg Bool.false_ne_true]

theorem implements_orElse (hfirst : Implements first search) (hsecond : Implements second next) :
    Implements (first.orElse second) fun b => (search b).orElse fun _ => next b := by
  constructor
  case succeeds =>
    intro b asked d h
    rw [run_orElse]
    cases hc : (search b).result with
    | some c =>
      rw [result_orElse, hc] at h
      obtain rfl := Option.some.inj h
      rw [hfirst.succeeds b asked c hc, if_pos rfl, Search.orElse, hc]
    | none =>
      rw [result_orElse, hc] at h
      rw [hfirst.fails b asked hc, if_neg Bool.false_ne_true, hsecond.succeeds b _ d h,
        Search.orElse, hc, List.append_assoc]
  case fails =>
    intro b asked h
    rw [result_orElse, Option.or_eq_none_iff] at h
    rw [run_orElse, hfirst.fails b asked h.1, if_neg Bool.false_ne_true, hsecond.fails b _ h.2,
      Search.orElse, h.1, List.append_assoc]

/-- Choices that are related place by place. -/
theorem implements_anyOf {R : α → β → Prop} {choices : List α} {choices' : List β}
    (h : List.Forall₂ R choices choices') {attempt : α → Attempt (List Question) Bool}
    {search : β → Bindings → Search Bindings}
    (hattempt : ∀ a a', R a a' → Implements (attempt a) (search a')) :
    Implements (anyOf choices attempt) fun b => firstOf choices' fun a => search a b := by
  induction h with
  | nil => exact implements_pure false
  | cons ha _ ih => exact implements_orElse (hattempt _ _ ha) ih

/-- The same choices. -/
theorem implements_anyOf_same {choices : List α} {attempt : α → Attempt (List Question) Bool}
    {search : α → Bindings → Search Bindings}
    (hattempt : ∀ a ∈ choices, Implements (attempt a) (search a)) :
    Implements (anyOf choices attempt) fun b => firstOf choices fun a => search a b := by
  have hsame : List.Forall₂ (fun a a' => Implements (attempt a) (search a')) choices choices :=
    List.forall₂_same.mpr hattempt
  exact implements_anyOf hsame fun _ _ h => h

end Attempt

open Attempt

/-! ## Trials and matchers -/

/-- Whatever the term, the attempt implements the search. -/
def Trial.Implements (m : Trial (List Question)) (matcher : Matcher) : Prop :=
  ∀ t, Attempt.Implements (m t) (matcher t)

/-- The places are of one kind, and so is what is there. -/
inductive Slot.Implements : Slot (Trial (List Question)) → Slot Matcher → Prop where
  | run (spec : RunSpec) : Slot.Implements (.run spec) (.run spec)
  | optional {m : Trial (List Question)} {matcher : Matcher} : m.Implements matcher →
      Slot.Implements (.optional m) (.optional matcher)
  | single {m : Trial (List Question)} {matcher : Matcher} : m.Implements matcher →
      Slot.Implements (.single m) (.single matcher)

theorem implements_takeRun (spec : RunSpec) (items : List Term) :
    Attempt.Implements (spec.takeRun items) fun b => spec.matchRun items b := by
  unfold RunSpec.takeRun RunSpec.matchRun
  by_cases hfits : (spec.least ≤ items.length && items.all (Term.hasOptionalType spec.type)) = true
  · simp only [if_pos hfits]
    cases spec.name with
    | some name => exact implements_bindIn name _
    | none => exact implements_pure true
  · simp only [if_neg hfits]
    exact implements_pure false

theorem leastArgs_eq {slots : List (Slot (Trial (List Question)))} {slots' : List (Slot Matcher)}
    (h : List.Forall₂ Slot.Implements slots slots') : leastArgs slots = leastArgs slots' := by
  induction h with
  | nil => rfl
  | cons hs _ ih =>
    cases hs with
    | run spec => rw [leastArgs, leastArgs, ih]
    | optional _ => rw [leastArgs, leastArgs, ih]
    | single _ => rw [leastArgs, leastArgs, ih]

theorem implements_tryInOrder {slots : List (Slot (Trial (List Question)))}
    {slots' : List (Slot Matcher)} (h : List.Forall₂ Slot.Implements slots slots')
    (items : List Term) :
    Attempt.Implements (tryInOrder slots items) (matchInOrder slots' items) := by
  induction h generalizing items with
  | nil => exact implements_pure _
  | @cons _ _ rest rest' hs hrest ih =>
    cases hs with
    | run spec =>
      unfold tryInOrder
      rw [leastArgs_eq hrest]
      refine implements_anyOf_same fun k _ => implements_onCopy ?_
      exact follows_andThen (implements_takeRun spec _).follows (ih _).follows
    | optional hone =>
      cases items with
      | nil => exact ih []
      | cons item others =>
        refine implements_orElse (implements_onCopy ?_) (ih _)
        exact follows_andThen (hone item).follows (ih _).follows
    | single hone =>
      cases items with
      | nil => exact implements_pure false
      | cons item others =>
        exact implements_onCopy (follows_andThen (hone item).follows (ih _).follows)

theorem follows_assignEach {ms : List (Trial (List Question))} {ms' : List Matcher}
    (h : List.Forall₂ Trial.Implements ms ms') (items : List Term) :
    Follows (assignEach ms items) (matchEach ms' items) := by
  induction h generalizing items with
  | nil => exact (implements_pure true).follows
  | cons hm _ ih =>
    cases items with
    | nil => exact (implements_pure true).follows
    | cons item others => exact follows_andThen (hm item).follows (ih others)

theorem implements_tryAbsorbing (head : Term) {ms : List (Trial (List Question))}
    {ms' : List Matcher} (h : List.Forall₂ Trial.Implements ms ms') (items : List Term) :
    Attempt.Implements (tryAbsorbing head ms items) (matchAbsorbing head ms' items) := by
  refine implements_anyOf (forall₂_pickOne h) ?_
  rintro p p' ⟨hwide, hothers⟩
  simp only [firstSelection_eq_firstOf]
  rw [hothers.length_eq]
  refine implements_anyOf_same fun s _ => implements_onCopy ?_
  exact follows_andThen (follows_assignEach hothers _) (hwide _).follows

/-- The groups of one matcher are not a special case. -/
theorem matchGroups_cons (head : Term) (one : Matcher) (rest : List Matcher) (items : List Term)
    (b : Bindings) :
    matchGroups head (one :: rest) items b
      = if items.length < rest.length + 1 then fail
        else firstOf (lengthsBetween (if rest.isEmpty then items.length - rest.length else 1)
            (items.length - rest.length)) fun k =>
          (one (grouped head (items.take k)) b).andThen (matchGroups head rest (items.drop k)) := by
  cases rest with
  | nil =>
    cases items with
    | nil => rfl
    | cons item others =>
      have hlengths : lengthsBetween (others.length + 1) (others.length + 1)
          = [others.length + 1] := by
        rw [lengthsBetween, show others.length + 1 + 1 - (others.length + 1) = 1 by omega]
        rfl
      have hrest : matchGroups head [] [] = succeed := rfl
      show one (grouped head (item :: others)) b
        = firstOf (lengthsBetween (others.length + 1) (others.length + 1)) _
      rw [hlengths, firstOf, firstOf, orElse_fail, ← List.length_cons, List.take_length,
        List.drop_length, hrest, andThen_succeed]
  | cons next rest =>
    rw [matchGroups]
    · by_cases hfew : items.length < (next :: rest).length + 1
      · have hnone : items.length - (next :: rest).length = 0 := by omega
        rw [if_pos hfew, hnone]
        rfl
      · rw [if_neg hfew]
        rfl
    · exact List.cons_ne_nil next rest

theorem implements_tryGroups (head : Term) {ms : List (Trial (List Question))}
    {ms' : List Matcher} (h : List.Forall₂ Trial.Implements ms ms') (items : List Term) :
    Attempt.Implements (tryGroups head ms items) fun b => matchGroups head ms' items b := by
  induction h generalizing items with
  | nil => exact implements_pure _
  | @cons m m' rest rest' hm hrest ih =>
    have hempty : rest.isEmpty = rest'.isEmpty := by cases hrest <;> rfl
    unfold tryGroups
    simp only [matchGroups_cons, hrest.length_eq, hempty]
    by_cases hfew : items.length < rest'.length + 1
    · simp only [if_pos hfew]
      exact implements_pure false
    · simp only [if_neg hfew]
      refine implements_anyOf_same fun k _ => implements_onCopy ?_
      exact follows_andThen (hm _).follows (ih _).follows

theorem implements_singles {slots : List (Slot (Trial (List Question)))}
    {slots' : List (Slot Matcher)} (h : List.Forall₂ Slot.Implements slots slots') :
    List.Forall₂ Trial.Implements (Slot.singles slots) (Slot.singles slots') := by
  induction h with
  | nil => exact .nil
  | cons hs _ ih =>
    cases hs with
    | run spec => exact ih
    | optional _ => exact ih
    | single hone => exact .cons hone ih

theorem Slot.Implements.isVariadic_eq {s : Slot (Trial (List Question))} {s' : Slot Matcher}
    (h : Slot.Implements s s') : s.isVariadic = s'.isVariadic := by
  cases h <;> rfl

theorem implements_variadic {slots : List (Slot (Trial (List Question)))}
    {slots' : List (Slot Matcher)} (h : List.Forall₂ Slot.Implements slots slots') :
    List.Forall₂ Slot.Implements (slots.filter Slot.isVariadic)
      (slots'.filter Slot.isVariadic) := by
  induction h with
  | nil => exact .nil
  | @cons s s' _ _ hs _ ih =>
    rw [List.filter_cons, List.filter_cons, hs.isVariadic_eq]
    split
    · exact .cons hs ih
    · exact ih

theorem any_isVariadic_eq {slots : List (Slot (Trial (List Question)))}
    {slots' : List (Slot Matcher)} (h : List.Forall₂ Slot.Implements slots slots') :
    slots.any Slot.isVariadic = slots'.any Slot.isVariadic := by
  induction h with
  | nil => rfl
  | cons hs _ ih => rw [List.any_cons, List.any_cons, hs.isVariadic_eq, ih]

theorem forall₂_isEmpty_eq {R : α → β → Prop} {l : List α} {l' : List β}
    (h : List.Forall₂ R l l') : l.isEmpty = l'.isEmpty := by
  cases h <;> rfl

theorem implements_tryOrderless (head : Term) (flat : Bool)
    {slots : List (Slot (Trial (List Question)))} {slots' : List (Slot Matcher)}
    (h : List.Forall₂ Slot.Implements slots slots') (items : List Term) :
    Attempt.Implements (tryOrderless head flat slots items)
      (matchOrderless head flat slots' items) := by
  have hsingles := implements_singles h
  have hvariadic := implements_variadic h
  unfold tryOrderless matchOrderless
  dsimp only
  rw [hsingles.length_eq, forall₂_isEmpty_eq hvariadic]
  by_cases hfew : items.length < (Slot.singles slots').length
  · simp only [if_pos hfew]
    exact implements_pure false
  simp only [if_neg hfew]
  by_cases hmore : ((slots'.filter Slot.isVariadic).isEmpty
      && decide ((Slot.singles slots').length < items.length)) = true
  · simp only [if_pos hmore]
    cases flat with
    | true => exact implements_tryAbsorbing head hsingles items
    | false => exact implements_pure false
  · simp only [if_neg hmore, firstSelection_eq_firstOf]
    refine implements_anyOf_same fun s _ => implements_onCopy ?_
    exact follows_andThen (follows_assignEach hsingles _)
      (implements_tryInOrder hvariadic _).follows

theorem implements_tryArgs (attributes : Attributes) (head : Term)
    {slots : List (Slot (Trial (List Question)))} {slots' : List (Slot Matcher)}
    (h : List.Forall₂ Slot.Implements slots slots') (items : List Term) :
    Attempt.Implements (tryArgs attributes head slots items)
      (matchArgs attributes head slots' items) := by
  unfold tryArgs matchArgs
  rw [any_isVariadic_eq h]
  by_cases horderless : attributes.isOrderless = true
  · simp only [if_pos horderless]
    exact implements_tryOrderless head _ h items
  simp only [if_neg horderless]
  by_cases hflat : (attributes.isFlat && !slots'.any Slot.isVariadic) = true
  · simp only [if_pos hflat]
    exact implements_tryGroups head (implements_singles h) items
  · simp only [if_neg hflat]
    exact implements_tryInOrder h items

theorem implements_tryCompound (table : SymbolTable) (symbol : Option String)
    {head : Trial (List Question)} {head' : Matcher} (hhead : head.Implements head')
    {slots : List (Slot (Trial (List Question)))} {slots' : List (Slot Matcher)}
    (h : List.Forall₂ Slot.Implements slots slots') :
    (tryCompound table symbol head slots).Implements (matchCompound table symbol head' slots') := by
  intro t
  cases t with
  | atom a => exact implements_pure false
  | app k items marks =>
    unfold tryCompound matchCompound
    dsimp only
    rw [any_isVariadic_eq h, h.length_eq]
    split
    · exact implements_pure false
    · refine implements_onCopy ?_
      exact follows_andThen (hhead k).follows (implements_tryArgs _ k h items).follows

/-! ## Patterns -/

section

variable (table : SymbolTable) (oracle : Oracle)

theorem implements_checkTest (predicate subject : Term) :
    Attempt.Implements (oracle.hooks.checkTest predicate subject)
      (MatchContext.checkTest ⟨table, oracle⟩ predicate subject) := by
  obtain ⟨test, condition⟩ := oracle
  cases test with
  | none => exact implements_pure _
  | some answer =>
    exact implements_ask (fun _ => answer predicate subject) fun _ => .test predicate subject

theorem implements_checkCondition (proviso : Term) :
    Attempt.Implements (oracle.hooks.checkCondition table proviso)
      (MatchContext.checkCondition ⟨table, oracle⟩ proviso) := by
  obtain ⟨test, condition⟩ := oracle
  cases condition with
  | none => exact implements_read fun b => (proviso.instantiate b).truth table == some true
  | some answer => exact implements_ask (answer proviso) (.condition proviso)

mutual

/-- **The trial of a pattern implements its matcher.** -/
theorem Pattern.implements_trial (p : Pattern) :
    (p.trial table oracle.hooks).Implements (p.matcher ⟨table, oracle⟩) := by
  match p with
  | .literal a => exact fun t => implements_pure _
  | .blank type => exact fun t => implements_pure _
  | .namedBlank name type =>
    intro t
    unfold Pattern.trial Pattern.matcher
    by_cases htype : t.hasOptionalType type = true
    · simp only [if_pos htype]
      exact implements_bindIn name t
    · simp only [if_neg htype]
      exact implements_pure false
  | .run spec => exact fun t => implements_takeRun spec [t]
  | .never => exact fun _ => implements_pure false
  | .named name inner =>
    intro t
    refine implements_onCopy (follows_andThen (Pattern.implements_trial inner t).follows ?_)
    exact (implements_bindIn name t).follows
  | .condition inner proviso =>
    intro t
    refine implements_onCopy (follows_andThen (Pattern.implements_trial inner t).follows ?_)
    exact (implements_checkCondition table oracle proviso).follows
  | .test inner predicate =>
    intro t
    refine implements_onCopy (follows_andThen (Pattern.implements_trial inner t).follows ?_)
    exact (implements_checkTest table oracle predicate t).follows
  | .alternatives choices =>
    intro t
    exact implements_anyOf (Pattern.implements_trials choices) fun m m' hm =>
      implements_onCopy (hm t).follows
  | .compound symbol head slots =>
    exact implements_tryCompound table symbol (Pattern.implements_trial head)
      (Slot.implements_trials slots)

theorem Pattern.implements_trials (ps : List Pattern) :
    List.Forall₂ Trial.Implements (Pattern.trials table oracle.hooks ps)
      (Pattern.matchers ⟨table, oracle⟩ ps) := by
  match ps with
  | [] => exact .nil
  | p :: ps => exact .cons (Pattern.implements_trial p) (Pattern.implements_trials ps)

theorem Slot.implements_trials (ss : List (Slot Pattern)) :
    List.Forall₂ Slot.Implements (Slot.trials table oracle.hooks ss)
      (Slot.matchers ⟨table, oracle⟩ ss) := by
  match ss with
  | [] => exact .nil
  | s :: ss => exact .cons (Slot.implements_trial s) (Slot.implements_trials ss)

theorem Slot.implements_trial (s : Slot Pattern) :
    Slot.Implements (Slot.trial table oracle.hooks s) (Slot.matcher ⟨table, oracle⟩ s) := by
  match s with
  | .run spec => exact .run spec
  | .optional one => exact .optional (Pattern.implements_trial one)
  | .single one => exact .single (Pattern.implements_trial one)

end

end

/-! ## Terms against terms -/

namespace Term

/-- **No binding leaks.** However badly formed the pattern is and whatever the hooks answer, a match
in place that fails leaves the bindings exactly as they were, and one that succeeds keeps what was
bound and binds anew only variables of the pattern. With the hooks of an oracle the match in place
is the search: it answers whether that finds bindings, leaves those it finds, and asks what it
asks. -/
theorem matchInto_leaks_nothing (table : SymbolTable) (pattern t : Term) (b : Bindings) :
    (∀ (ω : Type) (hooks : Hooks ω) (memory memory' : ω) (c : Bindings),
      (pattern.matchInto table hooks t (b, memory) = (false, (c, memory')) → c = b)
        ∧ (pattern.matchInto table hooks t (b, memory) = (true, (c, memory')) →
          c.Extends b ∧ ∀ name, b.get? name = none → c.get? name ≠ none → pattern.HasVariable name))
      ∧ ∀ (oracle : Oracle) (asked : List Question),
        pattern.matchInto table oracle.hooks t (b, asked)
          = ((pattern.searchMatch ⟨table, oracle⟩ t b).result.isSome,
            ((pattern.searchMatch ⟨table, oracle⟩ t b).result.getD b,
              asked ++ (pattern.searchMatch ⟨table, oracle⟩ t b).asked)) := by
  refine ⟨fun ω hooks memory memory' c => ⟨fun hfails => ?_, fun hmatches => ?_⟩,
    fun oracle asked => ?_⟩
  · have hrestores := (Pattern.contained_trial table hooks (.ofTerm pattern) t).restores (b, memory)
    unfold matchInto at hfails
    rw [hfails] at hrestores
    exact hrestores rfl
  · have hgrows := (Pattern.contained_trial table hooks (.ofTerm pattern) t).grows (b, memory)
    unfold matchInto at hmatches
    rw [hmatches] at hgrows
    obtain ⟨hkeeps, hwithin⟩ := hgrows rfl
    refine ⟨hkeeps, fun name hfree hbound => ?_⟩
    by_contra hvariable
    refine hbound ((hwithin fun hmem => hvariable ?_).trans hfree)
    exact hasVariable_of_mem_patternNames hmem
  · exact (Pattern.implements_trial table oracle (.ofTerm pattern) t).eq b asked

/-- A hook that says no to every other question: what was bound before it said no is forgotten, that
it was asked is not. -/
theorem matchInto_leaks_nothing_asked :
    let tested := fun name => call "PatternTest" [call "NamedBlank" [symbol name], symbol "odd"]
    let pattern := call "Alternatives" [tested "x", tested "y"]
    let hooks : Hooks Nat := { test := some fun _ _ asked => (asked % 2 == 1, asked + 1) }
    let b : Bindings := [("z", integer 3)]
    let c : Bindings := [("z", integer 3), ("y", integer 5)]
    (tested "x").matchInto .empty hooks (integer 5) (b, 0) = (false, (b, 1))
      ∧ pattern.matchInto .empty hooks (integer 5) (b, 0) = (true, (c, 2))
      ∧ c.Extends b ∧ pattern.HasVariable "y" := by
  intro tested pattern hooks b c
  have hmatch : pattern.matchInto .empty hooks (integer 5) (b, 0) = (true, (c, 2)) := rfl
  obtain ⟨hextends, hvariables⟩ :=
    ((matchInto_leaks_nothing .empty pattern (integer 5) b).1 Nat hooks 0 2 c).2 hmatch
  exact ⟨rfl, hmatch, hextends, hvariables "y" rfl (Option.some_ne_none _)⟩

end Term

end TermRewriting
