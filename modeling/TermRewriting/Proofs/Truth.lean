import TermRewriting.Proofs.Equality
import TermRewriting.Proofs.Term.Alike
import TermRewriting.Truth

/-!
# Truth does not depend on marks

A condition may ask whether two terms are identical, which a remembered fingerprint may decide.
Between coherent terms it decides rightly, and verdicts do not depend on marks at all, so the truth
of a condition is that of its unmarked form (`truth_unmarked`).
-/

namespace TermRewriting

namespace Term

variable {table : SymbolTable}

theorem builtinTest?_unmarked (name : String) (t : Term) :
    builtinTest? name t.unmarked = builtinTest? name t := by
  cases t with
  | atom a => rfl
  | app head args marks =>
    rw [unmarked_app]
    unfold builtinTest?
    split <;> rfl

@[simp] theorem number?_unmarked (t : Term) : t.unmarked.number? = t.number? := by
  cases t with
  | atom a => rfl
  | app head args marks => rw [unmarked_app]; rfl

theorem binaryTest?_unmarked (name : String) {s t : Term} (hs : s.Coherent) (ht : t.Coherent) :
    binaryTest? table name s.unmarked t.unmarked = binaryTest? table name s t := by
  simp only [binaryTest?, numericTest?, identical_unmarked hs ht, verdict_unmarked,
    number?_unmarked]

/-- The connectives look at the truth of the arguments, the tests at the arguments themselves. -/
theorem applicationTruth_map_unmarked (name : String) {args : List Term}
    (hargs : ∀ a ∈ args, a.Coherent) (truths : List (Option Bool)) :
    applicationTruth table name (args.map unmarked) truths
      = applicationTruth table name args truths := by
  fun_cases applicationTruth table name args truths with
  | case1 => rfl
  | case2 => rfl
  | case3 => rfl
  | case4 _ _ a hand hor hnot =>
    rw [List.map_cons, List.map_nil, applicationTruth, builtinTest?_unmarked]
    all_goals assumption
  | case5 _ _ a b hand hor hnot =>
    rw [List.map_cons, List.map_cons, List.map_nil, applicationTruth,
      binaryTest?_unmarked name (hargs a (by simp)) (hargs b (by simp))]
    all_goals assumption
  | case6 _ _ _ hand hor hnot hone htwo =>
    -- there are neither one nor two arguments, and unmarking does not change their number
    rw [applicationTruth]
    · exact hand
    · exact hor
    · exact hnot
    · intro a heq
      obtain ⟨x, rfl, _⟩ := List.map_eq_singleton_iff.mp heq
      exact hone x rfl
    · intro a b heq
      obtain ⟨x, xs, rfl, _, hxs⟩ := List.map_eq_cons_iff.mp heq
      obtain ⟨y, rfl, _⟩ := List.map_eq_singleton_iff.mp hxs
      exact htwo x y rfl

theorem truths_eq_map (args : List Term) : truths table args = args.map (truth table) := by
  induction args with
  | nil => rfl
  | cons a as ih => rw [truths, ih, List.map_cons]

theorem truth_app (head : Term) (args : List Term) (marks : Marks) :
    (Term.app head args marks).truth table
      = head.symbolName?.bind fun name =>
          applicationTruth table name args (args.map (truth table)) := by
  rw [truth, truths_eq_map]
  cases head.symbolName? <;> rfl

/-- **The truth of a coherent condition is that of its structure.** -/
theorem truth_unmarked {t : Term} (ht : t.Coherent) : t.unmarked.truth table = t.truth table := by
  induction t using induct with
  | atom a => rfl
  | app head args marks ihhead ihargs =>
    obtain ⟨_, _, hargs⟩ := every_app.mp ht
    have htruths : (args.map unmarked).map (truth table) = args.map (truth table) := by
      rw [List.map_map]
      exact List.map_congr_left fun a ha => ihargs a ha (hargs a ha)
    rw [unmarked_app, truth_app, truth_app, symbolName?_unmarked, htruths]
    congr 1
    funext name
    exact applicationTruth_map_unmarked name hargs _

theorem Alike.truth_eq {Q : Term → Prop} (hQ : Robust Q) {s t : Term} (h : Alike Q s t) :
    s.truth table = t.truth table := by
  rw [← truth_unmarked (h.left.coherent hQ), h.same, truth_unmarked (h.right.coherent hQ)]

end Term

end TermRewriting
