import TermRewriting.Proofs.Replacement
import TermRewriting.Proofs.Rewriting.Pass
import TermRewriting.Proofs.Rewriting.Weight

/-!
# Rewriting does not depend on marks

Over alike trusty terms every part of a pass agrees: it comes to alike results and pays the same.
The only place where marks decide is the question whether a node is normal, and there they are
right. From a pass this carries over to any number of passes (`sameRuns_settle`): how many are
allowed is counted by the limit and the weight, and the weight is one of the structure.
-/

namespace TermRewriting

open Rewriter

namespace Program

variable {p : Program} (hp : p.Sound)

/-! ## Definitions of a node -/

section

variable {Q : Term → Prop} (hQ : Term.Robust Q)

include hQ

theorem agree_applyCandidates (key : DefinitionKey) {rules : RuleSet}
    (hrules : ∀ rule ∈ rules, rule.lhs.Coherent) {s t : Term} (h : Term.Alike Q s t)
    (numbers : List Nat) :
    Agree (Option.Rel (Term.Alike Q)) (p.applyCandidates key rules s numbers)
      (p.applyCandidates key rules t numbers) := by
  induction numbers with
  | nil => exact agree_pure .none
  | cons i numbers ih =>
    rw [applyCandidates, applyCandidates]
    cases hrule : rules[i]? with
    | none => exact ih
    | some rule =>
      have hmatch := h.matches? hQ p.table (hrules rule (List.mem_of_getElem? hrule))
      refine agree_bind (agree_free hmatch) fun c c' hc => ?_
      rcases optionRel_cases hc with ⟨rfl, rfl⟩ | ⟨c, c', rfl, rfl, hbound⟩
      · exact ih
      · refine agree_bind_same charge fun paid => ?_
        cases paid with
        | false => exact agree_pure .none
        | true => exact agree_note (agree_pure (.some (Term.alike_instantiate hQ hbound rule.rhs)))

theorem agree_applyFirst {s t : Term} (h : Term.Alike Q s t)
    {definitions : List (DefinitionKey × (RuleSet × RuleIndex))}
    (hdefinitions : ∀ e ∈ definitions, ∀ rule ∈ e.2.1, rule.lhs.Coherent) :
    Agree (Option.Rel (Term.Alike Q)) (p.applyFirst s definitions)
      (p.applyFirst t definitions) := by
  induction definitions with
  | nil => exact agree_pure .none
  | cons e rest ih =>
    obtain ⟨key, rules, index⟩ := e
    obtain ⟨hrules, hrest⟩ := List.forall_mem_cons.mp hdefinitions
    rw [applyFirst, applyFirst, h.candidates_eq hQ]
    refine agree_bind (agree_applyCandidates hQ key hrules h _) fun r r' hr => ?_
    rcases optionRel_cases hr with ⟨rfl, rfl⟩ | ⟨u, u', rfl, rfl, hu⟩
    · exact ih hrest
    · exact agree_pure (.some hu)

/-- What an application comes to: what a definition gives, and the node that was looked at. -/
def AlikeApplication (Q : Term → Prop) (r r' : Option Term × Term) : Prop :=
  Option.Rel (Term.Alike Q) r.1 r'.1 ∧ Term.Alike Q r.2 r'.2

include hp

theorem agree_applyTop {s t : Term} (h : Term.Alike Q s t) :
    Agree (AlikeApplication Q) (p.applyTop s) (p.applyTop t) := by
  unfold applyTop
  rw [h.definitionsFor_eq]
  split
  · exact agree_pure ⟨.none, h⟩
  · have hmemoized := h.memoized hQ
    refine agree_bind (agree_applyFirst hQ hmemoized fun e he => hp.lhs_coherent he) ?_
    exact fun r r' hr => agree_pure ⟨hr, hmemoized⟩

theorem agree_finishNode {j k : Term} {as bs : List Term} {m n : Marks} (hm : Q (.app j as m))
    (hn : Q (.app k bs n)) (hhead : Term.Alike Q j k) (hargs : Term.AlikeAll Q as bs)
    (changed : Bool) :
    Agree (Option.Rel (Term.Alike Q)) (p.finishNode j as m changed)
      (p.finishNode k bs n changed) := by
  obtain ⟨hnode, hmoved⟩ := Term.Alike.canonicalNode hQ p.table hm hn hhead hargs
  rw [finishNode, finishNode]
  generalize Term.canonicalNode p.table j as m = x at hnode hmoved ⊢
  generalize Term.canonicalNode p.table k bs n = y at hnode hmoved ⊢
  obtain ⟨node, moved⟩ := x
  obtain ⟨node', moved'⟩ := y
  obtain rfl : moved = moved' := hmoved
  refine agree_bind (agree_applyTop hp hQ hnode) fun r r' hr => ?_
  obtain ⟨result, node⟩ := r
  obtain ⟨result', node'⟩ := r'
  obtain ⟨hresult, hnode'⟩ := hr
  dsimp only at hresult hnode'
  rcases optionRel_cases hresult with ⟨rfl, rfl⟩ | ⟨u, u', rfl, rfl, hu⟩
  · refine agree_pure ?_
    split
    · exact .some hnode'
    · exact .none
  · exact agree_pure (.some hu)

end

/-! ## Passes -/

theorem agree_passAll {Q : Term → Prop} {as bs : List Term}
    (h : List.Forall₂ (fun a b => Term.Alike Q a b
      ∧ Agree (Option.Rel (Term.Alike Q)) (p.pass a) (p.pass b)) as bs) :
    Agree (Option.Rel (Term.AlikeAll Q)) (p.passAll as) (p.passAll bs) := by
  induction h with
  | nil => exact agree_pure .none
  | cons hab hrest ih =>
    have halike : Term.AlikeAll Q _ _ := hrest.imp fun _ _ h => h.1
    rw [passAll, passAll]
    refine agree_bind hab.2 fun new new' hnew => ?_
    refine agree_bind ih fun rest rest' hrest' => ?_
    exact agree_pure (alike_relisted? (fun h => .cons h .nil) hab.1 halike hnew hrest')

include hp

/-- A pass over two alike nodes, neither of which is skipped, agrees if it agrees on their parts. -/
theorem agree_pass_app {Q : Term → Prop} (hQ : Term.Robust Q) {j k : Term} {as bs : List Term}
    {m n : Marks} (hm : Q (.app j as m)) (hn : Q (.app k bs n)) (hhead : Term.Alike Q j k)
    (hargs : Term.AlikeAll Q as bs)
    (hs : (Term.app j as m).isNormalUnder p.generation = false)
    (ht : (Term.app k bs n).isNormalUnder p.generation = false)
    (hpassHead : Agree (Option.Rel (Term.Alike Q)) (p.pass j) (p.pass k))
    (hpassArgs : Agree (Option.Rel (Term.AlikeAll Q)) (p.passAll as) (p.passAll bs)) :
    Agree (Option.Rel (Term.Alike Q)) (p.pass (.app j as m)) (p.pass (.app k bs n)) := by
  rw [pass, pass, if_neg (Bool.eq_false_iff.mp hs), if_neg (Bool.eq_false_iff.mp ht)]
  refine agree_bind hpassHead fun newHead newHead' hnewHead => ?_
  refine agree_bind hpassArgs fun newArgs newArgs' hnewArgs => ?_
  -- where a part changed, the node is built anew on both sides and its old marks are gone
  have hrebuilt := agree_finishNode hp hQ (hQ.built _ _) (hQ.built _ _)
    (optionRel_getD hnewHead hhead) (optionRel_getD hnewArgs hargs) true
  rcases optionRel_cases hnewHead with ⟨rfl, rfl⟩ | ⟨u, u', rfl, rfl, hu⟩
  · rcases optionRel_cases hnewArgs with ⟨rfl, rfl⟩ | ⟨us, us', rfl, rfl, hus⟩
    · exact agree_finishNode hp hQ hm hn hhead hargs false
    · exact hrebuilt
  · cases newArgs <;> cases newArgs' <;> exact hrebuilt

/-- **A pass does the same to alike trusty terms.** -/
theorem agree_pass {s t : Term} (h : Term.Alike p.Trusty s t) :
    Agree (Option.Rel (Term.Alike p.Trusty)) (p.pass s) (p.pass t) := by
  have hQ := robust_trusty p
  induction s using Term.induct generalizing t with
  | atom a =>
    rcases h.cases with ⟨_, hs, rfl⟩ | ⟨j, as, m, k, bs, n, hs, _⟩
    · cases hs
      rw [pass]
      refine agree_bind (agree_applyTop hp hQ (Term.alike_atom a)) fun r r' hr => ?_
      exact agree_pure hr.1
    · cases hs
  | app j as m ihhead ihargs =>
    rcases h.cases with ⟨a, hs, _⟩ | ⟨j', as', m', k, bs, n, hs, rfl, hm, hn, hhead, hargs⟩
    · cases hs
    cases hs
    -- what is skipped on one side rests on the other
    have skipped : ∀ {u v : Term}, Term.Alike p.Trusty u v → p.Resting u →
        ∀ b, value (p.pass v) b = (none, b) := by
      intro u v huv hu b
      exact pass_of_resting hp (huv.right.coherent hQ) (resting_of_alike hQ hp huv hu) b
    cases hs : (Term.app j as m).isNormalUnder p.generation with
    | true =>
      intro b
      have hrests := resting_of_isNormalUnder hp h.left hs
      rw [pass_of_isNormalUnder hs, skipped h hrests]
      exact ⟨.none, rfl⟩
    | false =>
      cases ht : (Term.app k bs n).isNormalUnder p.generation with
      | true =>
        intro b
        have hrests := resting_of_isNormalUnder hp h.right ht
        rw [pass_of_isNormalUnder ht, skipped h.symm hrests]
        exact ⟨.none, rfl⟩
      | false =>
        have hparts := (List.forall₂_and_left as bs).mpr
          ⟨fun a ha t (hat : Term.Alike p.Trusty a t) => ihargs a ha hat, hargs⟩
        refine agree_pass_app hp hQ hm hn hhead hargs hs ht (ihhead hhead) (agree_passAll ?_)
        exact hparts.imp fun a b hab => ⟨hab.2, hab.1 b hab.2⟩

/-- **A pass leaves a robust property as it is, whether or not the marks are right:** what it makes
of a term has the property if the term has. -/
theorem every_of_pass {Q : Term → Prop} (hQ : Term.Robust Q) {t : Term} (ht : t.Every Q)
    {b : Budget} {new : Term} (h : (value (p.pass t) b).1 = some new) : new.Every Q := by
  -- a pass agrees with itself, since both sides skip the same nodes, right marks or not
  have hself : Agree (Option.Rel (Term.Alike Q)) (p.pass t) (p.pass t) := by
    clear h
    induction t using Term.induct with
    | atom a =>
      rw [pass]
      refine agree_bind (agree_applyTop hp hQ (Term.alike_atom a)) fun r r' hr => ?_
      exact agree_pure hr.1
    | app head args marks ihhead ihargs =>
      obtain ⟨hnode, hhead, hargs⟩ := Term.every_app.mp ht
      cases hnormal : (Term.app head args marks).isNormalUnder p.generation with
      | true =>
        intro b
        rw [pass_of_isNormalUnder hnormal]
        exact ⟨.none, rfl⟩
      | false =>
        refine agree_pass_app hp hQ hnode hnode (Term.alike_refl hhead) (Term.alikeAll_refl hargs)
          hnormal hnormal (ihhead hhead) (agree_passAll (List.forall₂_same.mpr ?_))
        exact fun a ha => ⟨Term.alike_refl (hargs a ha), ihargs a ha (hargs a ha)⟩
  have hnew := (hself b).1
  rw [h] at hnew
  rcases optionRel_cases hnew with ⟨hnone, _⟩ | ⟨u, _, hu, _, halike⟩
  · cases hnone
  · cases hu
    exact halike.left

/-! ## Repeated passes -/

omit hp in
/-- How a run goes on after a pass. -/
theorem value_passThen (limit : Nat) (free paid : Term → Rewriter Outcome) (t : Term) (b : Budget) :
    value (p.passThen limit free paid t) b
      = match value (p.pass t.askedThroughout) b with
        | (none, after) =>
          (if after.exhausted then overLimit limit else .ok t.askedThroughout, after)
        | (some new, after) =>
          if after.exhausted then (overLimit limit, after)
          else if b.used = after.used then value (free new) after
          else value (paid new) after := by
  have hasked : (if t.isAsked then t else t.askedThroughout) = t.askedThroughout := by
    split
    · next h => exact (Term.askedThroughout_of_isAsked t h).symm
    · rfl
  rw [passThen, hasked, value_bind, value_get, value_bind, value_bind, value_get]
  dsimp only
  generalize value (p.pass t.askedThroughout) b = r
  obtain ⟨new, after⟩ := r
  cases new with
  | none => rfl
  | some new =>
    dsimp only
    split
    · rfl
    · split
      · rfl
      · rfl

end Program

/-- One failure, or related terms. -/
inductive SameOutcome (P : Term → Term → Prop) : Program.Outcome → Program.Outcome → Prop where
  | error (e : Failure) : SameOutcome P (.error e) (.error e)
  | ok {s t : Term} : P s t → SameOutcome P (.ok s) (.ok t)

theorem SameOutcome.symm {Q : Term → Prop} {x y : Program.Outcome}
    (h : SameOutcome (Term.Alike Q) x y) : SameOutcome (Term.Alike Q) y x := by
  cases h with
  | error e => exact .error e
  | ok hst => exact .ok hst.symm

theorem SameOutcome.trans {Q : Term → Prop} {x y z : Program.Outcome}
    (h : SameOutcome (Term.Alike Q) x y) (h' : SameOutcome (Term.Alike Q) y z) :
    SameOutcome (Term.Alike Q) x z := by
  cases h with
  | error e => exact h'
  | ok hst =>
    cases h' with
    | ok htu => exact .ok (hst.trans htu)

namespace Term

theorem Alike.weight_eq {Q : Term → Prop} {s t : Term} (h : Alike Q s t) (around : Nat) :
    s.weight around = t.weight around :=
  weight_eq_of_unmarked_eq h.same around

theorem alike_askedThroughout {Q : Term → Prop} (hQ : Robust Q) {t : Term} (ht : t.Every Q) :
    Alike Q t t.askedThroughout :=
  ⟨(unmarked_askedThroughout t).symm, ht, ht.askedThroughout hQ⟩

theorem Alike.askedThroughout {Q : Term → Prop} (hQ : Robust Q) {s t : Term} (h : Alike Q s t) :
    Alike Q s.askedThroughout t.askedThroughout :=
  ⟨by rw [unmarked_askedThroughout, unmarked_askedThroughout, h.same],
    h.left.askedThroughout hQ, h.right.askedThroughout hQ⟩

end Term

namespace Program

variable {p : Program} (hp : p.Sound)

/-- Runs from alike trusty terms come to one failure or to alike terms, and leave the same budget.
-/
def SameRuns (p : Program) (run run' : Term → Rewriter Outcome) : Prop :=
  ∀ s t, Term.Alike p.Trusty s t → Agree (SameOutcome (Term.Alike p.Trusty)) (run s) (run' t)

theorem sameRuns_overLimit (limit : Nat) :
    p.SameRuns (fun _ => pure (overLimit limit)) (fun _ => pure (overLimit limit)) :=
  fun _ _ _ => agree_pure (.error _)

include hp

theorem sameRuns_passThen (limit : Nat) {free free' paid paid' : Term → Rewriter Outcome}
    (hfree : p.SameRuns free free') (hpaid : p.SameRuns paid paid') :
    p.SameRuns (p.passThen limit free paid) (p.passThen limit free' paid') := by
  intro s t h b
  have hasked := h.askedThroughout (robust_trusty p)
  obtain ⟨hnew, hafter⟩ := agree_pass hp hasked b
  rw [value_passThen, value_passThen]
  generalize value (p.pass s.askedThroughout) b = x at hnew hafter ⊢
  generalize value (p.pass t.askedThroughout) b = y at hnew hafter ⊢
  obtain ⟨new, after⟩ := x
  obtain ⟨new', after'⟩ := y
  obtain rfl : after = after' := hafter
  dsimp only at hnew
  rcases optionRel_cases hnew with ⟨rfl, rfl⟩ | ⟨u, u', rfl, rfl, hu⟩
  · refine ⟨?_, rfl⟩
    dsimp only
    split
    · exact .error _
    · exact .ok hasked
  · dsimp only
    split
    · exact ⟨.error _, rfl⟩
    · split
      · exact hfree u u' hu after
      · exact hpaid u u' hu after

theorem sameRuns_freePasses (limit : Nat) {paid : Term → Rewriter Outcome}
    (hpaid : p.SameRuns paid paid) (count : Nat) :
    p.SameRuns (p.freePasses limit paid count) (p.freePasses limit paid count) := by
  induction count with
  | zero => exact sameRuns_overLimit limit
  | succ count ih => exact sameRuns_passThen hp limit ih hpaid

/-- **Runs from alike trusty terms come to the same.** -/
theorem sameRuns_settle (limit rounds : Nat) :
    p.SameRuns (p.settle limit rounds) (p.settle limit rounds) := by
  induction rounds with
  | zero =>
    -- the number of free passes is counted by the weight, which alike terms share
    intro s t h
    rw [settle, settle, h.weight_eq]
    exact sameRuns_freePasses hp limit (sameRuns_overLimit limit) _ s t h
  | succ rounds ih =>
    refine sameRuns_passThen hp limit ?_ ih
    intro s t h
    dsimp only
    rw [h.weight_eq]
    exact sameRuns_freePasses hp limit ih _ s t h

end Program

end TermRewriting
