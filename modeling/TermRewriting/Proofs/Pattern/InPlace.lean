import TermRewriting.Pattern.InPlace
import TermRewriting.Proofs.Pattern.Growth

/-!
# No binding leaks

A trial is contained in some names if it leaves the bindings as they were where it fails, and where
it succeeds has kept what was bound and has bound only some of the names (`Trial.Contained`). One
part after another may have written something before the last one fails, so it only lets the
bindings grow (`Attempt.Growing`); on a copy it is contained again (`contained_onCopy`). Choices
between contained attempts need no copy, since a choice that failed has left nothing behind. The
trial of every pattern is built in this way, whatever its hooks answer.
-/

namespace TermRewriting

variable {α ω : Type} {names names' : List String}

namespace Attempt

/-! ## Running attempts -/

theorem run_andThen (first second : Attempt ω Bool) (s : Bindings × ω) :
    (first.andThen second) s
      = if (first s).1 = true then second (first s).2 else (false, (first s).2) := by
  show (match first s with
    | (ok, s') => (if ok then second else pure false : Attempt ω Bool) s') = _
  obtain ⟨_ | _, s'⟩ := first s
  · rfl
  · rfl

theorem run_orElse (first second : Attempt ω Bool) (s : Bindings × ω) :
    (first.orElse second) s
      = if (first s).1 = true then first s else second (first s).2 := by
  show (match first s with
    | (ok, s') => (if ok then pure true else second : Attempt ω Bool) s') = _
  obtain ⟨_ | _, s'⟩ := first s
  · rfl
  · rfl

theorem run_onCopy (attempt : Attempt ω Bool) (s : Bindings × ω) :
    onCopy attempt s = ((attempt s).1,
      (if (attempt s).1 = true then (attempt s).2.1 else s.1, (attempt s).2.2)) := by
  obtain ⟨b, memory⟩ := s
  rfl

theorem run_bindIn (name : String) (value : Term) (s : Bindings × ω) :
    bindIn name value s
      = ((s.1.bind? name value).isSome, ((s.1.bind? name value).getD s.1, s.2)) := by
  obtain ⟨b, memory⟩ := s
  unfold Bindings.bind?
  simp only [bindIn, bind, StateT.bind, get, getThe, MonadStateOf.get, StateT.get, pure]
  cases b.get? name with
  | none => rfl
  | some bound =>
    dsimp only
    by_cases hsame : bound.identical value = true
    · rw [if_pos hsame]
      exact congrArg (·, _) hsame
    · rw [if_neg hsame]
      exact congrArg (·, _) (Bool.eq_false_iff.mpr hsame)

/-! ## Containment -/

/-- What the attempt writes extends the bindings by some of the names, even if it fails. -/
def Growing (names : List String) (attempt : Attempt ω Bool) : Prop :=
  ∀ s : Bindings × ω, s.1.Grows names (attempt s).2.1

/-- The attempt leaves the bindings as they were if it fails, and extends them by some of the names
if it succeeds. -/
structure Contained (names : List String) (attempt : Attempt ω Bool) : Prop where
  restores : ∀ s : Bindings × ω, (attempt s).1 = false → (attempt s).2.1 = s.1
  grows : ∀ s : Bindings × ω, (attempt s).1 = true → s.1.Grows names (attempt s).2.1

theorem Contained.growing {attempt : Attempt ω Bool} (h : Contained names attempt) :
    Growing names attempt := by
  intro s
  cases hok : (attempt s).1 with
  | true => exact h.grows s hok
  | false =>
    rw [h.restores s hok]
    exact .refl names s.1

theorem contained_of_keeps {attempt : Attempt ω Bool} (h : ∀ s, (attempt s).2.1 = s.1) :
    Contained names attempt := by
  refine ⟨fun s _ => h s, fun s _ => ?_⟩
  rw [h s]
  exact .refl names s.1

theorem contained_pure (ok : Bool) : Contained names (pure ok : Attempt ω Bool) :=
  contained_of_keeps fun _ => rfl

theorem contained_bindIn {name : String} (hname : name ∈ names) (value : Term) :
    Contained names (bindIn name value : Attempt ω Bool) := by
  constructor
  case restores =>
    intro s h
    rw [run_bindIn] at h ⊢
    rw [Option.isSome_eq_false_iff, Option.isNone_iff_eq_none] at h
    rw [h]
    rfl
  case grows =>
    intro s h
    rw [run_bindIn] at h ⊢
    obtain ⟨c, hc⟩ := Option.isSome_iff_exists.mp h
    rw [hc]
    exact Bindings.grows_bind? hname hc

theorem growing_andThen {first second : Attempt ω Bool} (hfirst : Growing names first)
    (hsecond : Growing names second) : Growing names (first.andThen second) := by
  intro s
  rw [run_andThen]
  by_cases hok : (first s).1 = true
  · rw [if_pos hok]
    exact (hfirst s).trans (hsecond (first s).2)
  · rw [if_neg hok]
    exact hfirst s

/-- **On a copy nothing leaks.** -/
theorem contained_onCopy {attempt : Attempt ω Bool} (h : Growing names attempt) :
    Contained names (onCopy attempt) := by
  constructor
  case restores =>
    intro s hok
    rw [run_onCopy] at hok ⊢
    exact if_neg (Bool.eq_false_iff.mp hok)
  case grows =>
    intro s hok
    rw [run_onCopy] at hok ⊢
    have hcopy : (if (attempt s).1 = true then (attempt s).2.1 else s.1) = (attempt s).2.1 :=
      if_pos hok
    rw [hcopy]
    exact h s

theorem contained_orElse {first second : Attempt ω Bool} (hfirst : Contained names first)
    (hsecond : Contained names second) : Contained names (first.orElse second) := by
  constructor
  case restores =>
    intro s h
    rw [run_orElse] at h ⊢
    by_cases hok : (first s).1 = true
    · rw [if_pos hok, hok] at h
      cases h
    · rw [if_neg hok] at h ⊢
      rw [hsecond.restores _ h, hfirst.restores s (Bool.eq_false_iff.mpr hok)]
  case grows =>
    intro s h
    rw [run_orElse] at h ⊢
    by_cases hok : (first s).1 = true
    · rw [if_pos hok]
      exact hfirst.grows s hok
    · rw [if_neg hok] at h ⊢
      rw [← hfirst.restores s (Bool.eq_false_iff.mpr hok)]
      exact hsecond.grows _ h

theorem contained_anyOf {choices : List α} {attempt : α → Attempt ω Bool}
    (h : ∀ a ∈ choices, Contained names (attempt a)) : Contained names (anyOf choices attempt) := by
  induction choices with
  | nil => exact contained_pure false
  | cons a as ih =>
    obtain ⟨ha, has⟩ := List.forall_mem_cons.mp h
    exact contained_orElse ha (ih has)

end Attempt

open Attempt

/-! ## Trials -/

/-- Whatever the term, the attempt to match it is contained in the names. -/
def Trial.Contained (names : List String) (m : Trial ω) : Prop :=
  ∀ t, Attempt.Contained names (m t)

/-- What is at the place is contained in the names. -/
def Slot.Contained (names : List String) : Slot (Trial ω) → Prop
  | .run spec => spec.names ⊆ names
  | .optional one => one.Contained names
  | .single one => one.Contained names

theorem Trial.Contained.mono (hsub : names ⊆ names') {m : Trial ω} (h : m.Contained names) :
    m.Contained names' := fun t => ⟨(h t).restores, fun s hok => ((h t).grows s hok).mono hsub⟩

theorem Slot.Contained.mono (hsub : names ⊆ names') {s : Slot (Trial ω)} (h : s.Contained names) :
    s.Contained names' := by
  cases s with
  | run spec => exact List.Subset.trans h hsub
  | optional one => exact Trial.Contained.mono hsub h
  | single one => exact Trial.Contained.mono hsub h

theorem contained_takeRun {spec : RunSpec} (hspec : spec.names ⊆ names) (items : List Term) :
    Attempt.Contained names (spec.takeRun items : Attempt ω Bool) := by
  unfold RunSpec.takeRun
  split
  · cases hname : spec.name with
    | some name => exact contained_bindIn (hspec (by simp [RunSpec.names, hname])) _
    | none => exact contained_pure true
  · exact contained_pure false

theorem contained_tryInOrder {slots : List (Slot (Trial ω))}
    (hslots : ∀ s ∈ slots, s.Contained names) (items : List Term) :
    Attempt.Contained names (tryInOrder slots items) := by
  induction slots generalizing items with
  | nil => exact contained_pure _
  | cons s rest ih =>
    obtain ⟨hs, hrest⟩ := List.forall_mem_cons.mp hslots
    cases s with
    | run spec =>
      refine contained_anyOf fun k _ => contained_onCopy ?_
      exact growing_andThen (contained_takeRun hs _).growing (ih hrest _).growing
    | optional one =>
      cases items with
      | nil => exact ih hrest []
      | cons item others =>
        refine contained_orElse (contained_onCopy ?_) (ih hrest _)
        exact growing_andThen (hs item).growing (ih hrest _).growing
    | single one =>
      cases items with
      | nil => exact contained_pure false
      | cons item others =>
        exact contained_onCopy (growing_andThen (hs item).growing (ih hrest _).growing)

/-- Trials on one item each are not undone if a later one fails. -/
theorem growing_assignEach {ms : List (Trial ω)} (hms : ∀ m ∈ ms, m.Contained names)
    (items : List Term) : Growing names (assignEach ms items) := by
  induction ms generalizing items with
  | nil => exact (contained_pure true).growing
  | cons m ms ih =>
    obtain ⟨hm, hms⟩ := List.forall_mem_cons.mp hms
    cases items with
    | nil => exact (contained_pure true).growing
    | cons item others => exact growing_andThen (hm item).growing (ih hms others)

theorem contained_tryAbsorbing (head : Term) {ms : List (Trial ω)}
    (hms : ∀ m ∈ ms, m.Contained names) (items : List Term) :
    Attempt.Contained names (tryAbsorbing head ms items) := by
  refine contained_anyOf fun p hp => contained_anyOf fun s _ => contained_onCopy ?_
  have hmem : ∀ m ∈ p.1 :: p.2, m.Contained names := fun m hm =>
    hms m ((pickOne_perm hp).mem_iff.mp hm)
  obtain ⟨hwide, hothers⟩ := List.forall_mem_cons.mp hmem
  exact growing_andThen (growing_assignEach hothers _) (hwide _).growing

theorem contained_tryGroups (head : Term) {ms : List (Trial ω)}
    (hms : ∀ m ∈ ms, m.Contained names) (items : List Term) :
    Attempt.Contained names (tryGroups head ms items) := by
  induction ms generalizing items with
  | nil => exact contained_pure _
  | cons m ms ih =>
    obtain ⟨hm, hms⟩ := List.forall_mem_cons.mp hms
    unfold tryGroups
    split
    · exact contained_pure false
    · refine contained_anyOf fun k _ => contained_onCopy ?_
      exact growing_andThen (hm _).growing (ih hms _).growing

theorem contained_singles {slots : List (Slot (Trial ω))}
    (hslots : ∀ s ∈ slots, s.Contained names) : ∀ m ∈ Slot.singles slots, m.Contained names := by
  induction slots with
  | nil => exact fun _ hm => absurd hm List.not_mem_nil
  | cons s rest ih =>
    obtain ⟨hs, hrest⟩ := List.forall_mem_cons.mp hslots
    cases s with
    | run spec => exact ih hrest
    | optional one => exact ih hrest
    | single one => exact List.forall_mem_cons.mpr ⟨hs, ih hrest⟩

theorem contained_tryOrderless (head : Term) (flat : Bool) {slots : List (Slot (Trial ω))}
    (hslots : ∀ s ∈ slots, s.Contained names) (items : List Term) :
    Attempt.Contained names (tryOrderless head flat slots items) := by
  have hsingles := contained_singles hslots
  have hvariadic : ∀ s ∈ slots.filter Slot.isVariadic, s.Contained names :=
    fun s hs => hslots s (List.mem_filter.mp hs).1
  unfold tryOrderless
  dsimp only
  split
  · exact contained_pure false
  · split
    · split
      · exact contained_tryAbsorbing head hsingles items
      · exact contained_pure false
    · refine contained_anyOf fun s _ => contained_onCopy ?_
      exact growing_andThen (growing_assignEach hsingles _)
        (contained_tryInOrder hvariadic _).growing

theorem contained_tryArgs (attributes : Attributes) (head : Term) {slots : List (Slot (Trial ω))}
    (hslots : ∀ s ∈ slots, s.Contained names) (items : List Term) :
    Attempt.Contained names (tryArgs attributes head slots items) := by
  unfold tryArgs
  split
  · exact contained_tryOrderless head _ hslots items
  · split
    · exact contained_tryGroups head (contained_singles hslots) items
    · exact contained_tryInOrder hslots items

theorem contained_tryCompound (table : SymbolTable) (symbol : Option String) {head : Trial ω}
    (hhead : head.Contained names) {slots : List (Slot (Trial ω))}
    (hslots : ∀ s ∈ slots, s.Contained names) :
    (tryCompound table symbol head slots).Contained names := by
  intro t
  cases t with
  | atom a => exact contained_pure false
  | app h items marks =>
    unfold tryCompound
    dsimp only
    split
    · exact contained_pure false
    · refine contained_onCopy (growing_andThen (hhead h).growing ?_)
      exact (contained_tryArgs _ h hslots items).growing

/-! ## Patterns -/

section

variable (table : SymbolTable) (hooks : Hooks ω)

/-- Hooks are shown the bindings, and do not write into them. -/
theorem contained_checkTest (predicate subject : Term) :
    Attempt.Contained names (hooks.checkTest predicate subject) := by
  refine contained_of_keeps fun s => ?_
  obtain ⟨test, condition⟩ := hooks
  cases test <;> rfl

theorem contained_checkCondition (proviso : Term) :
    Attempt.Contained names (hooks.checkCondition table proviso) := by
  refine contained_of_keeps fun s => ?_
  obtain ⟨test, condition⟩ := hooks
  cases condition <;> rfl

mutual

/-- **The trial of a pattern is contained in its names.** -/
theorem Pattern.contained_trial (p : Pattern) : (p.trial table hooks).Contained p.names := by
  match p with
  | .literal a => exact fun _ => contained_pure _
  | .blank type => exact fun _ => contained_pure _
  | .namedBlank name type =>
    intro t
    unfold Pattern.trial
    split
    · exact contained_bindIn List.mem_cons_self t
    · exact contained_pure false
  | .run spec => exact fun t => contained_takeRun (List.Subset.refl _) [t]
  | .never => exact fun _ => contained_pure false
  | .named name inner =>
    intro t
    have hinner := (Pattern.contained_trial inner).mono (List.subset_cons_self name _)
    refine contained_onCopy (growing_andThen (hinner t).growing ?_)
    exact (contained_bindIn List.mem_cons_self t).growing
  | .condition inner proviso =>
    intro t
    refine contained_onCopy (growing_andThen (Pattern.contained_trial inner t).growing ?_)
    exact (contained_checkCondition table hooks proviso).growing
  | .test inner predicate =>
    intro t
    refine contained_onCopy (growing_andThen (Pattern.contained_trial inner t).growing ?_)
    exact (contained_checkTest hooks predicate t).growing
  | .alternatives choices =>
    intro t
    refine contained_anyOf fun m hm => contained_onCopy ?_
    exact (Pattern.contained_trials choices m hm t).growing
  | .compound symbol head slots =>
    refine contained_tryCompound table symbol ?_ fun s hs => ?_
    · exact (Pattern.contained_trial head).mono (List.subset_append_left _ _)
    · exact (Slot.contained_trials slots s hs).mono (List.subset_append_right _ _)

theorem Pattern.contained_trials (ps : List Pattern) :
    ∀ m ∈ Pattern.trials table hooks ps, m.Contained (Pattern.namesAll ps) := by
  match ps with
  | [] => exact fun _ hm => absurd hm List.not_mem_nil
  | p :: ps =>
    refine List.forall_mem_cons.mpr ⟨?_, fun m hm => ?_⟩
    · exact (Pattern.contained_trial p).mono (List.subset_append_left _ _)
    · exact (Pattern.contained_trials ps m hm).mono (List.subset_append_right _ _)

theorem Slot.contained_trials (ss : List (Slot Pattern)) :
    ∀ s ∈ Slot.trials table hooks ss, s.Contained (Slot.namesAll ss) := by
  match ss with
  | [] => exact fun _ hs => absurd hs List.not_mem_nil
  | s :: ss =>
    refine List.forall_mem_cons.mpr ⟨?_, fun s' hs' => ?_⟩
    · exact (Slot.contained_trial s).mono (List.subset_append_left _ _)
    · exact (Slot.contained_trials ss s' hs').mono (List.subset_append_right _ _)

theorem Slot.contained_trial (s : Slot Pattern) :
    (Slot.trial table hooks s).Contained (Slot.names s) := by
  match s with
  | .run spec => exact List.Subset.refl spec.names
  | .optional one => exact Pattern.contained_trial one
  | .single one => exact Pattern.contained_trial one

end

end

end TermRewriting
