import TermRewriting.Proofs.Term.Structure
import TermRewriting.Proofs.Truth

/-!
# The connectives of conditions

`And`, `Or` and `Not` of one argument follow strong three-valued logic, in which the open verdict lies
between false and true: "all of these" is false as soon as one is, and open as long as one is open;
"one of these" is its dual. So a condition has the verdict that its leaves give it (`Term.kleene`), in
whatever order and however often its parts are asked for.

The laws rest on three equations, `truth_and`, `truth_or` and `truth_not`, each of which says what a
connective makes of the verdicts of its arguments.
-/

namespace TermRewriting

/-! ## Verdicts on lists -/

/-- "All of these": false if one is false, otherwise open if one is open. -/
def allOf (verdicts : List (Option Bool)) : Option Bool :=
  if some false ∈ verdicts then some false else if none ∈ verdicts then none else some true

/-- "One of these": true if one is true, otherwise open if one is open. -/
def anyOf (verdicts : List (Option Bool)) : Option Bool :=
  if some true ∈ verdicts then some true else if none ∈ verdicts then none else some false

/-- The opposite verdict; an open one has none. -/
def opposite (verdict : Option Bool) : Option Bool := verdict.map (!·)

/-- A verdict that was given stands; an open one may become anything. -/
def Stands (before after : Option Bool) : Prop :=
  ∀ b, before = some b → after = some b

/-- The strong connective that one verdict decides: conjunction for `false`, disjunction for
`true`. -/
def strong (decisive : Bool) : Option Bool → Option Bool → Option Bool
  | some v, w => if v = decisive then some decisive else w
  | none, some w => if w = decisive then some decisive else none
  | none, none => none

@[simp] theorem strong_neutral (decisive : Bool) (v : Option Bool) :
    strong decisive (some (!decisive)) v = v := by
  cases decisive <;> rfl

@[simp] theorem strong_decisive (decisive : Bool) (v : Option Bool) :
    strong decisive v (some decisive) = some decisive := by
  rcases v with _ | v
  · exact if_pos rfl
  · simp [strong]

theorem strong_open (decisive : Bool) (v : Option Bool) :
    strong decisive none v = if v = some decisive then some decisive else none := by
  cases v <;> simp [strong]

/-- Asking for verdicts in turn, with an early end, is folding them by the strong connective. -/
theorem firstDecisive_eq_foldr (decisive known : Bool) (verdicts : List (Option Bool)) :
    firstDecisive decisive known verdicts
      = strong decisive (if known then some (!decisive) else none)
          (verdicts.foldr (strong decisive) (some (!decisive))) := by
  induction verdicts generalizing known with
  | nil => cases known <;> simp [firstDecisive, strong]
  | cons v vs ih =>
    rw [List.foldr_cons]
    cases v with
    | none =>
      -- an open verdict lowers the flag, and a second one changes nothing any more
      rw [firstDecisive, ih, if_neg Bool.false_ne_true]
      cases known with
      | false => simp [strong_open]
      | true => simp
    | some v =>
      rw [firstDecisive]
      by_cases hv : v = decisive
      · have hfirst : strong decisive (some v) (vs.foldr (strong decisive) (some (!decisive)))
            = some decisive := if_pos hv
        rw [if_pos hv, hfirst, strong_decisive]
      · rw [if_neg hv, ih, strong, if_neg hv]

theorem foldr_strong (decisive : Bool) (verdicts : List (Option Bool)) :
    verdicts.foldr (strong decisive) (some (!decisive))
      = if some decisive ∈ verdicts then some decisive
        else if none ∈ verdicts then none else some (!decisive) := by
  induction verdicts with
  | nil => rfl
  | cons v vs ih =>
    rw [List.foldr_cons, ih]
    by_cases hvs : some decisive ∈ vs
    · simp [hvs]
    · cases v with
      | none => by_cases hopen : none ∈ vs <;> simp [strong_open, hvs, hopen]
      | some v => by_cases hv : decisive = v <;> simp [strong, hv, eq_comm, hvs]

/-- The verdict that the loop over the arguments ends with. -/
theorem firstDecisive_eq (decisive : Bool) (verdicts : List (Option Bool)) :
    firstDecisive decisive true verdicts
      = if some decisive ∈ verdicts then some decisive
        else if none ∈ verdicts then none else some (!decisive) := by
  rw [firstDecisive_eq_foldr, ← foldr_strong]
  simp [strong]

/-! ## Order and repetition -/

theorem allOf_congr {vs ws : List (Option Bool)} (h : ∀ v, v ∈ vs ↔ v ∈ ws) :
    allOf vs = allOf ws := by
  simp only [allOf, h]

theorem anyOf_congr {vs ws : List (Option Bool)} (h : ∀ v, v ∈ vs ↔ v ∈ ws) :
    anyOf vs = anyOf ws := by
  simp only [anyOf, h]

/-! ## Duality -/

@[simp] theorem opposite_opposite (v : Option Bool) : opposite (opposite v) = v := by
  rcases v with _ | _ | _ <;> rfl

theorem mem_map_opposite {vs : List (Option Bool)} {v : Option Bool} :
    v ∈ vs.map opposite ↔ opposite v ∈ vs := by
  constructor
  · intro h
    obtain ⟨w, hw, rfl⟩ := List.mem_map.mp h
    rwa [opposite_opposite]
  · intro h
    exact List.mem_map.mpr ⟨_, h, opposite_opposite v⟩

theorem anyOf_map_opposite (vs : List (Option Bool)) :
    anyOf (vs.map opposite) = opposite (allOf vs) := by
  rw [anyOf, allOf]
  simp only [mem_map_opposite]
  change (if some false ∈ vs then _ else if none ∈ vs then _ else _) = _
  split
  · rfl
  · split <;> rfl

theorem allOf_map_opposite (vs : List (Option Bool)) :
    allOf (vs.map opposite) = opposite (anyOf vs) := by
  have h := anyOf_map_opposite (vs.map opposite)
  have hback : (vs.map opposite).map opposite = vs := by
    rw [List.map_map]
    exact List.map_id'' opposite_opposite vs
  rw [hback] at h
  rw [h, opposite_opposite]

/-! ## Verdicts that stand -/

theorem Stands.antisymm {v w : Option Bool} (h : Stands v w) (hback : Stands w v) : v = w := by
  cases v with
  | some a => exact (h a rfl).symm
  | none =>
    cases w with
    | none => rfl
    | some b => exact hback b rfl

theorem Stands.opposite {v w : Option Bool} (h : Stands v w) : Stands (opposite v) (opposite w) := by
  intro b hb
  cases v with
  | none => cases hb
  | some a => rwa [h a rfl]

theorem Stands.allOf {v w : Option Bool} (h : Stands v w) (before after : List (Option Bool)) :
    Stands (allOf (before ++ v :: after)) (allOf (before ++ w :: after)) := by
  cases v with
  | some a => rw [h a rfl]; exact fun _ hb => hb
  | none =>
    -- with an open argument "all of these" is decided only by a false one, which is still there
    intro b hb
    rw [TermRewriting.allOf] at hb ⊢
    by_cases hfalse : some false ∈ before ++ none :: after
    · rw [if_pos hfalse] at hb
      rw [if_pos]
      · exact hb
      · simpa using Or.imp_right Or.inr (by simpa using hfalse)
    · rw [if_neg hfalse, if_pos (by simp)] at hb
      cases hb

theorem Stands.anyOf {v w : Option Bool} (h : Stands v w) (before after : List (Option Bool)) :
    Stands (anyOf (before ++ v :: after)) (anyOf (before ++ w :: after)) := by
  have hall := (h.opposite.allOf (before.map TermRewriting.opposite)
    (after.map TermRewriting.opposite)).opposite
  simpa only [← List.map_cons, ← List.map_append, allOf_map_opposite, opposite_opposite] using hall

namespace Term

/-! ## The connectives -/

variable {table : SymbolTable}

theorem truth_and (args : List Term) (marks : Marks) :
    (Term.app (.symbol "And") args marks).truth table = allOf (args.map (truth table)) := by
  rw [truth_app]
  exact firstDecisive_eq false _

theorem truth_or (args : List Term) (marks : Marks) :
    (Term.app (.symbol "Or") args marks).truth table = anyOf (args.map (truth table)) := by
  rw [truth_app]
  exact firstDecisive_eq true _

theorem truth_not (a : Term) (marks : Marks) :
    (Term.app (.symbol "Not") [a] marks).truth table = opposite (a.truth table) := by
  rw [truth_app]
  rfl

mutual

/-- The strong Kleene evaluation of a condition, `leaf` giving the verdict of everything that is not
`And`, `Or` or `Not` of one argument. -/
def kleene (leaf : Term → Option Bool) : Term → Option Bool
  | .app (.symbol "And") args _ => allOf (kleenes leaf args)
  | .app (.symbol "Or") args _ => anyOf (kleenes leaf args)
  | .app (.symbol "Not") [a] _ => opposite (a.kleene leaf)
  | t => leaf t

def kleenes (leaf : Term → Option Bool) : List Term → List (Option Bool)
  | [] => []
  | a :: as => a.kleene leaf :: kleenes leaf as

end

theorem kleenes_eq_map (leaf : Term → Option Bool) (args : List Term) :
    kleenes leaf args = args.map (kleene leaf) := by
  induction args with
  | nil => rfl
  | cons a as ih => rw [kleenes, ih, List.map_cons]

theorem truth_eq_kleene (t : Term) : t.truth table = t.kleene (truth table) := by
  induction t using induct with
  | atom a => rfl
  | app head args marks ihhead ihargs =>
    rw [kleene.eq_def]
    split
    · next args' _ h =>
      injection h with hhead hargs hmarks
      subst hhead hargs
      rw [truth_and, kleenes_eq_map, List.map_congr_left ihargs]
    · next args' _ h =>
      injection h with hhead hargs hmarks
      subst hhead hargs
      rw [truth_or, kleenes_eq_map, List.map_congr_left ihargs]
    · next a _ h =>
      injection h with hhead hargs hmarks
      subst hhead hargs
      rw [truth_not, ihargs a (List.mem_singleton.mpr rfl)]
    · rfl

/-! ## Changes within a condition -/

/-- `t` is `s` with parts changed as `R` allows, below any number of connectives. -/
inductive WithinConnectives (R : Term → Term → Prop) : Term → Term → Prop where
  | refl (t : Term) : WithinConnectives R t t
  | trans {s t u : Term} :
    WithinConnectives R s t → WithinConnectives R t u → WithinConnectives R s u
  | here {s t : Term} : R s t → WithinConnectives R s t
  | negated {s t : Term} (m n : Marks) : WithinConnectives R s t →
    WithinConnectives R (.app (.symbol "Not") [s] m) (.app (.symbol "Not") [t] n)
  | all {s t : Term} (before after : List Term) (m n : Marks) : WithinConnectives R s t →
    WithinConnectives R (.app (.symbol "And") (before ++ s :: after) m)
      (.app (.symbol "And") (before ++ t :: after) n)
  | any {s t : Term} (before after : List Term) (m n : Marks) : WithinConnectives R s t →
    WithinConnectives R (.app (.symbol "Or") (before ++ s :: after) m)
      (.app (.symbol "Or") (before ++ t :: after) n)

/-- `t` is `And` or `Or` of the arguments of `s`, in any order and each any number of times. -/
inductive Reshuffled : Term → Term → Prop where
  | all {as bs : List Term} (m n : Marks) : (∀ a, a ∈ as ↔ a ∈ bs) →
    Reshuffled (.app (.symbol "And") as m) (.app (.symbol "And") bs n)
  | any {as bs : List Term} (m n : Marks) : (∀ a, a ∈ as ↔ a ∈ bs) →
    Reshuffled (.app (.symbol "Or") as m) (.app (.symbol "Or") bs n)

variable {R : Term → Term → Prop} {s t : Term}

theorem WithinConnectives.symm (hR : ∀ s t, R s t → R t s) (h : WithinConnectives R s t) :
    WithinConnectives R t s := by
  induction h with
  | refl t => exact .refl t
  | trans _ _ ihfirst ihsecond => exact ihsecond.trans ihfirst
  | here h => exact .here (hR _ _ h)
  | negated m n _ ih => exact .negated n m ih
  | all before after m n _ ih => exact .all before after n m ih
  | any before after m n _ ih => exact .any before after n m ih

/-- **Every connective is monotone,** so a verdict that no change takes back stands. -/
theorem WithinConnectives.stands (hR : ∀ s t, R s t → Stands (s.truth table) (t.truth table))
    (h : WithinConnectives R s t) : Stands (s.truth table) (t.truth table) := by
  induction h with
  | refl t => exact fun _ hb => hb
  | trans _ _ ihfirst ihsecond => exact fun b hb => ihsecond b (ihfirst b hb)
  | here h => exact hR _ _ h
  | negated m n _ ih =>
    rw [truth_not, truth_not]
    exact ih.opposite
  | all before after m n _ ih =>
    rw [truth_and, truth_and, List.map_append, List.map_append, List.map_cons, List.map_cons]
    exact ih.allOf _ _
  | any before after m n _ ih =>
    rw [truth_or, truth_or, List.map_append, List.map_append, List.map_cons, List.map_cons]
    exact ih.anyOf _ _

theorem Reshuffled.symm (h : Reshuffled s t) : Reshuffled t s := by
  cases h with
  | all m n h => exact .all n m fun a => (h a).symm
  | any m n h => exact .any n m fun a => (h a).symm

theorem mem_map_congr {as bs : List Term} (h : ∀ a, a ∈ as ↔ a ∈ bs) (v : Option Bool) :
    v ∈ as.map (truth table) ↔ v ∈ bs.map (truth table) := by
  simp only [List.mem_map, h]

theorem Reshuffled.truth_eq (h : Reshuffled s t) : s.truth table = t.truth table := by
  cases h with
  | all m n h =>
    rw [truth_and, truth_and]
    exact allOf_congr (mem_map_congr h)
  | any m n h =>
    rw [truth_or, truth_or]
    exact anyOf_congr (mem_map_congr h)

theorem WithinConnectives.truth_eq (h : WithinConnectives Reshuffled s t) :
    s.truth table = t.truth table := by
  have hstands : ∀ s t, Reshuffled s t → Stands (s.truth table) (t.truth table) :=
    fun s t h => by
      rw [h.truth_eq]
      exact fun _ hb => hb
  exact (h.stands hstands).antisymm ((h.symm fun _ _ h => h.symm).stands hstands)

/-! ## De Morgan's laws -/

theorem map_opposite_truth (args : List Term) :
    (args.map fun a => call "Not" [a]).map (truth table) = (args.map (truth table)).map opposite := by
  rw [List.map_map, List.map_map]
  exact List.map_congr_left fun a _ => truth_not a .fresh

theorem truth_not_and (args : List Term) :
    (call "Not" [call "And" args]).truth table
      = (call "Or" (args.map fun a => call "Not" [a])).truth table := by
  rw [truth_not, truth_and, truth_or, map_opposite_truth, anyOf_map_opposite]

theorem truth_not_or (args : List Term) :
    (call "Not" [call "Or" args]).truth table
      = (call "And" (args.map fun a => call "Not" [a])).truth table := by
  rw [truth_not, truth_or, truth_and, map_opposite_truth, allOf_map_opposite]

/-! ## Strong three-valued logic -/

/-- **Conditions follow strong three-valued logic.** The verdict on a condition is the strong Kleene
evaluation of the verdicts on its leaves. So it does not change when arguments of `And` and `Or` are
permuted or repeated at any depth, it obeys De Morgan's laws, and a verdict that was given stands when
parts that were open are replaced, whatever by. -/
theorem truth_strong (table : SymbolTable) :
    (∀ t : Term, t.truth table = t.kleene (truth table))
      ∧ (∀ s t, WithinConnectives Reshuffled s t → s.truth table = t.truth table)
      ∧ (∀ args, (call "Not" [call "And" args]).truth table
          = (call "Or" (args.map fun a => call "Not" [a])).truth table)
      ∧ (∀ args, (call "Not" [call "Or" args]).truth table
          = (call "And" (args.map fun a => call "Not" [a])).truth table)
      ∧ ∀ s t, WithinConnectives (fun part _ => part.truth table = none) s t →
          ∀ b, s.truth table = some b → t.truth table = some b := by
  refine ⟨truth_eq_kleene, fun _ _ h => h.truth_eq, truth_not_and, truth_not_or, ?_⟩
  intro s t h
  refine h.stands fun part _ hopen b hb => ?_
  rw [hopen] at hb
  cases hb

/-- An open part beside a decisive one is replaced, and arguments are exchanged below `Not`. -/
theorem truth_strong_decisive :
    (call "Not" [call "And" [.symbol "x", .symbol "False"]]).truth .empty = some true
      ∧ (call "Not" [call "And" [.symbol "True", .symbol "False"]]).truth .empty = some true
      ∧ (call "Not" [call "And" [.symbol "False", .symbol "x", .symbol "x"]]).truth .empty
        = some true := by
  have hgiven : (call "Not" [call "And" [.symbol "x", .symbol "False"]]).truth .empty = some true := by
    decide
  refine ⟨hgiven, ?_, ?_⟩
  · refine (truth_strong .empty).2.2.2.2 _ _ (.negated _ _ ?_) true hgiven
    exact .all [] _ _ _ (.here rfl)
  · rw [← hgiven]
    refine ((truth_strong .empty).2.1 _ _ (.negated _ _ (.here (.all _ _ ?_)))).symm
    simp [or_comm]

end Term

end TermRewriting
