import TermRewriting.Proofs.Rewriting.Budget
import TermRewriting.Proofs.Rewriting.Rest

/-!
# One pass

A pass changes nothing in a term at rest and costs nothing there (`pass_of_resting`). Conversely, a
pass that answers that nothing changes, on a budget that is not exhausted afterwards, has found the
term at rest (`resting_of_pass`): an application that could not be paid also answers that nothing
changes, but leaves the budget exhausted, and nothing later makes up for that.

Both hold where the marks in the term are right. A node is trusty when its fingerprint is true and,
if it is marked as normal under the generation of the program, it rests. Nodes that are built anew
carry no such mark, so a pass over a trusty term leaves a trusty term, and over alike trusty terms
it does the same (`agree_pass`): where it skips a node on one side only, there was nothing to do on
the other.
-/

namespace TermRewriting

open Rewriter

namespace Program

variable {p : Program}

/-! ## Candidates -/

theorem value_applyCandidates_cons (key : DefinitionKey) (rules : RuleSet) (t : Term) (i : Nat)
    (numbers : List Nat) (b : Budget) :
    value (p.applyCandidates key rules t (i :: numbers)) b
      = match rules[i]?.bind fun rule => (rule.lhs.matches? p.table t).map fun c => (rule, c) with
        | none => value (p.applyCandidates key rules t numbers) b
        | some (rule, c) =>
          if b.charged.2 then (some (rule.rhs.instantiate c), b.charged.1)
          else (none, b.charged.1) := by
  rw [applyCandidates]
  cases rules[i]? with
  | none => rfl
  | some rule =>
    rw [value_bind, value_free, Term.value_tryMatch, Option.bind_some]
    cases rule.lhs.matches? p.table t with
    | none => rfl
    | some c =>
      dsimp only [Option.map_some]
      rw [value_bind, value_charge]
      cases b.charged.2 <;> rfl

/-- No rule with one of the numbers matches. -/
def NoneMatches (p : Program) (rules : RuleSet) (t : Term) (numbers : List Nat) : Prop :=
  ∀ i ∈ numbers, ∀ rule, rules[i]? = some rule → rule.lhs.matches? p.table t = none

theorem noneMatches_cons {rules : RuleSet} {t : Term} {i : Nat} {numbers : List Nat} :
    p.NoneMatches rules t (i :: numbers)
      ↔ (rules[i]?.bind fun rule => (rule.lhs.matches? p.table t).map fun c => (rule, c)) = none
        ∧ p.NoneMatches rules t numbers := by
  have hfirst : (rules[i]?.bind fun rule =>
        (rule.lhs.matches? p.table t).map fun c => (rule, c)) = none
      ↔ ∀ rule, rules[i]? = some rule → rule.lhs.matches? p.table t = none := by
    cases rules[i]? with
    | none => simp
    | some rule => simp
  rw [hfirst]
  exact List.forall_mem_cons

/-- Where no candidate matches, nothing happens. -/
theorem applyCandidates_of_noneMatches (key : DefinitionKey) {rules : RuleSet} {t : Term}
    {numbers : List Nat} (h : p.NoneMatches rules t numbers) (b : Budget) :
    value (p.applyCandidates key rules t numbers) b = (none, b) := by
  induction numbers with
  | nil => rfl
  | cons i numbers ih =>
    obtain ⟨hi, hrest⟩ := noneMatches_cons.mp h
    rw [value_applyCandidates_cons, hi]
    exact ih hrest

/-- Where nothing happens and the budget is not exhausted, no candidate matches. -/
theorem noneMatches_of_applyCandidates {key : DefinitionKey} {rules : RuleSet} {t : Term}
    {numbers : List Nat} {b : Budget}
    (h : (value (p.applyCandidates key rules t numbers) b).1 = none)
    (hb : (value (p.applyCandidates key rules t numbers) b).2.exhausted = false) :
    p.NoneMatches rules t numbers := by
  induction numbers with
  | nil =>
    intro i hi
    cases hi
  | cons i numbers ih =>
    rw [value_applyCandidates_cons] at h hb
    rw [noneMatches_cons]
    cases hi : rules[i]?.bind fun rule => (rule.lhs.matches? p.table t).map fun c => (rule, c) with
    | none =>
      rw [hi] at h hb
      exact ⟨rfl, ih h hb⟩
    | some found =>
      -- a match is either applied or leaves the budget exhausted
      obtain ⟨rule, c⟩ := found
      rw [hi] at h hb
      cases hcharge : b.charged.2 with
      | true =>
        simp [hcharge] at h
      | false =>
        have hexhausted := Budget.charged_eq_false hcharge
        simp [hcharge, hexhausted] at hb

theorem spending_applyCandidates (key : DefinitionKey) (rules : RuleSet) (t : Term)
    (numbers : List Nat) : Spending (p.applyCandidates key rules t numbers) := by
  induction numbers with
  | nil => exact spending_pure none
  | cons i numbers ih =>
    intro b
    rw [value_applyCandidates_cons]
    split
    · exact ih b
    · split
      · exact .charged b
      · exact .charged b

/-! ## Definitions of a node -/

theorem applyFirst_of_noneMatches {t : Term}
    {definitions : List (DefinitionKey × (RuleSet × RuleIndex))}
    (h : ∀ e ∈ definitions, p.NoneMatches e.2.1 t (e.2.2.candidates t)) (b : Budget) :
    value (p.applyFirst t definitions) b = (none, b) := by
  induction definitions with
  | nil => rfl
  | cons e rest ih =>
    obtain ⟨key, rules, index⟩ := e
    obtain ⟨he, hrest⟩ := List.forall_mem_cons.mp h
    rw [applyFirst, value_bind, applyCandidates_of_noneMatches key he b]
    exact ih hrest

theorem spending_applyFirst (t : Term) (definitions : List (DefinitionKey × (RuleSet × RuleIndex))) :
    Spending (p.applyFirst t definitions) := by
  induction definitions with
  | nil => exact spending_pure none
  | cons e rest ih =>
    obtain ⟨key, rules, index⟩ := e
    rw [applyFirst]
    refine spending_bind (spending_applyCandidates key rules t _) fun result => ?_
    cases result with
    | none => exact ih
    | some result => exact spending_pure _

theorem noneMatches_of_applyFirst {t : Term}
    {definitions : List (DefinitionKey × (RuleSet × RuleIndex))} {b : Budget}
    (h : (value (p.applyFirst t definitions) b).1 = none)
    (hb : (value (p.applyFirst t definitions) b).2.exhausted = false) :
    ∀ e ∈ definitions, p.NoneMatches e.2.1 t (e.2.2.candidates t) := by
  induction definitions generalizing b with
  | nil =>
    intro e he
    cases he
  | cons e rest ih =>
    obtain ⟨key, rules, index⟩ := e
    rw [applyFirst, value_bind] at h hb
    cases hfirst : (value (p.applyCandidates key rules t (index.candidates t)) b).1 with
    | some result =>
      rw [hfirst] at h
      cases h
    | none =>
      rw [hfirst] at h hb
      have hpaid := (spending_applyFirst t rest).lasting.not_exhausted hb
      exact List.forall_mem_cons.mpr ⟨noneMatches_of_applyCandidates hfirst hpaid, ih h hb⟩

/-- Definitions are applied to the node once its fingerprint is known. -/
theorem value_applyTop (t : Term) (b : Budget) :
    ∃ t', (t' = t ∨ t' = t.memoized) ∧ value (p.applyTop t) b
      = (((value (p.applyFirst t.memoized (p.definitionsFor t)) b).1, t'),
          (value (p.applyFirst t.memoized (p.definitionsFor t)) b).2) := by
  unfold applyTop
  split
  · next hnone =>
    refine ⟨t, .inl rfl, ?_⟩
    rw [hnone]
    rfl
  · exact ⟨t.memoized, .inr rfl, rfl⟩

/-- No candidate matches a node exactly if none matches it once its fingerprint is known. -/
theorem idle_iff (hp : p.Sound) {t : Term} (ht : t.Coherent) :
    p.Idle t ↔ ∀ e ∈ p.definitionsFor t,
      p.NoneMatches e.2.1 t.memoized (e.2.2.candidates t.memoized) := by
  have h : Term.Alike Term.Truthful t t.memoized :=
    ⟨(Term.unmarked_memoized t).symm, ht, ht.memoized Term.robust_truthful⟩
  rw [h.definitionsFor_eq]
  constructor
  · intro hidle
    exact idle_of_alike Term.robust_truthful hp h hidle
  · intro hidle
    exact idle_of_alike Term.robust_truthful hp h.symm hidle

theorem applyTop_of_idle (hp : p.Sound) {t : Term} (ht : t.Coherent) (h : p.Idle t) (b : Budget) :
    ∃ t', value (p.applyTop t) b = ((none, t'), b) := by
  obtain ⟨t', _, hvalue⟩ := value_applyTop (p := p) t b
  rw [applyFirst_of_noneMatches ((idle_iff hp ht).mp h) b] at hvalue
  exact ⟨t', hvalue⟩

theorem idle_of_applyTop (hp : p.Sound) {t : Term} (ht : t.Coherent) {b : Budget}
    (h : (value (p.applyTop t) b).1.1 = none)
    (hb : (value (p.applyTop t) b).2.exhausted = false) : p.Idle t := by
  obtain ⟨t', _, hvalue⟩ := value_applyTop (p := p) t b
  rw [hvalue] at h hb
  exact (idle_iff hp ht).mpr (noneMatches_of_applyFirst h hb)

theorem spending_applyTop (t : Term) : Spending (p.applyTop t) := by
  intro b
  obtain ⟨t', _, hvalue⟩ := value_applyTop (p := p) t b
  rw [hvalue]
  exact spending_applyFirst _ _ b

/-! ## Nodes -/

theorem finishNode_of_rests (hp : p.Sound) {head : Term} {args : List Term} {marks : Marks}
    (ht : (Term.app head args marks).Coherent) (h : p.Rests (.app head args marks)) (b : Budget) :
    value (p.finishNode head args marks false) b = (none, b) := by
  have hcanonical : Term.canonicalNode p.table head args marks = (.app head args marks, false) :=
    Term.canonicalNode_eq_self h.canonical
  obtain ⟨t', hvalue⟩ := applyTop_of_idle hp ht h.idle b
  rw [finishNode, hcanonical, value_bind, hvalue]
  rfl

/-- A node with a changed part is itself a change. -/
theorem finishNode_of_changed (head : Term) (args : List Term) (marks : Marks) (b : Budget) :
    (value (p.finishNode head args marks true) b).1 ≠ none := by
  rw [finishNode, value_bind]
  intro h
  split at h
  · cases h
  · cases h

theorem rests_of_finishNode (hp : p.Sound) {head : Term} {args : List Term} {marks : Marks}
    (ht : (Term.app head args marks).Coherent) {b : Budget}
    (h : (value (p.finishNode head args marks false) b).1 = none)
    (hb : (value (p.finishNode head args marks false) b).2.exhausted = false) :
    p.Rests (.app head args marks) := by
  rw [finishNode, value_bind] at h hb
  cases hmoved : (Term.canonicalNode p.table head args marks).2 with
  | true =>
    -- a node that moved is a change, whatever its definitions say
    rw [hmoved] at h
    split at h
    · cases h
    · cases h
  | false =>
    rw [Term.canonicalNode_eq_self hmoved] at h hb
    refine ⟨hmoved, ?_⟩
    cases hfirst : (value (p.applyTop (.app head args marks)) b).1 with
    | mk result node =>
      rw [hfirst] at h hb
      cases result with
      | some result => cases h
      | none => exact idle_of_applyTop hp ht (congrArg Prod.fst hfirst) hb

theorem spending_finishNode (head : Term) (args : List Term) (marks : Marks) (changed : Bool) :
    Spending (p.finishNode head args marks changed) := by
  rw [finishNode]
  refine spending_bind (spending_applyTop _) fun result => ?_
  obtain ⟨result, node⟩ := result
  cases result with
  | none => exact spending_pure _
  | some result => exact spending_pure _

/-! ## Terms -/

/-- Nodes that are marked as normal are left alone. -/
theorem pass_of_isNormalUnder {head : Term} {args : List Term} {marks : Marks}
    (h : (Term.app head args marks).isNormalUnder p.generation = true) (b : Budget) :
    value (p.pass (.app head args marks)) b = (none, b) := by
  rw [pass, if_pos h]
  rfl

theorem passAll_of_forall {args : List Term}
    (h : ∀ a ∈ args, ∀ b, value (p.pass a) b = (none, b)) (b : Budget) :
    value (p.passAll args) b = (none, b) := by
  induction args with
  | nil => rfl
  | cons a as ih =>
    obtain ⟨ha, has⟩ := List.forall_mem_cons.mp h
    rw [passAll, value_bind, ha, value_bind, ih has]
    rfl

theorem spending_passAll_of {args : List Term} (h : ∀ a ∈ args, Spending (p.pass a)) :
    Spending (p.passAll args) := by
  induction args with
  | nil => exact spending_pure none
  | cons a as ih =>
    obtain ⟨ha, has⟩ := List.forall_mem_cons.mp h
    rw [passAll]
    exact spending_bind ha fun _ => spending_bind (ih has) fun _ => spending_pure _

theorem spending_pass (t : Term) : Spending (p.pass t) := by
  induction t using Term.induct with
  | atom a =>
    rw [pass]
    exact spending_bind (spending_applyTop _) fun _ => spending_pure _
  | app head args marks ihhead ihargs =>
    rw [pass]
    split
    · exact spending_pure none
    · refine spending_bind ihhead fun newHead => ?_
      refine spending_bind (spending_passAll_of ihargs) fun newArgs => ?_
      split
      · exact spending_finishNode _ _ _ _
      · exact spending_finishNode _ _ _ _

theorem spending_passAll (args : List Term) : Spending (p.passAll args) :=
  spending_passAll_of fun a _ => spending_pass a

/-- No part of a list changes if the list does not. -/
theorem none_of_passAll {args : List Term} {b : Budget} (h : (value (p.passAll args) b).1 = none)
    (hb : (value (p.passAll args) b).2.exhausted = false) :
    ∀ a ∈ args, ∃ b, (value (p.pass a) b).1 = none ∧ (value (p.pass a) b).2.exhausted = false := by
  induction args generalizing b with
  | nil =>
    intro a ha
    cases ha
  | cons a as ih =>
    rw [passAll, value_bind, value_bind] at h hb
    have hpaid := (spending_passAll as).lasting.not_exhausted hb
    cases hnew : (value (p.pass a) b).1 with
    | some new =>
      rw [hnew] at h
      cases h
    | none =>
      cases hrest : (value (p.passAll as) (value (p.pass a) b).2).1 with
      | some rest =>
        rw [hnew, hrest] at h
        cases h
      | none => exact List.forall_mem_cons.mpr ⟨⟨b, hnew, hpaid⟩, ih hrest hb⟩

/-- **A pass over a term at rest changes nothing and costs nothing.** -/
theorem pass_of_resting (hp : p.Sound) {t : Term} (ht : t.Coherent) (h : p.Resting t) (b : Budget) :
    value (p.pass t) b = (none, b) := by
  induction t using Term.induct generalizing b with
  | atom a =>
    obtain ⟨t', hvalue⟩ := applyTop_of_idle hp ht (resting_atom a |>.mp h).idle b
    rw [pass, value_bind, hvalue]
    rfl
  | app head args marks ihhead ihargs =>
    obtain ⟨_, hhead, hargs⟩ := Term.every_app.mp ht
    obtain ⟨hnode, hrestHead, hrestArgs⟩ := resting_app.mp h
    have hall : ∀ a ∈ args, ∀ b, value (p.pass a) b = (none, b) :=
      fun a ha b => ihargs a ha (hargs a ha) (hrestArgs a ha) b
    cases hnormal : (Term.app head args marks).isNormalUnder p.generation with
    | true => exact pass_of_isNormalUnder hnormal b
    | false =>
      rw [pass, if_neg (Bool.eq_false_iff.mp hnormal), value_bind,
        ihhead hhead hrestHead b, value_bind, passAll_of_forall hall b]
      exact finishNode_of_rests hp ht hnode b

/-! ## Trusty marks -/

/-- What the node remembers is true: its fingerprint, and that it rests if it is marked as normal.
-/
def Trusty (p : Program) (t : Term) : Prop :=
  t.Truthful ∧ (t.MarkedNormal p.generation → p.Resting t.unmarked)

theorem robust_trusty (p : Program) : Term.Robust p.Trusty where
  truthful := And.left
  built := by
    intro head args
    refine ⟨Term.truthful_apply head args, fun h => ?_⟩
    cases h.1
  remembering := by
    rintro s t ⟨_, hs⟩ same heval hstamp ht
    refine ⟨ht, fun h => ?_⟩
    rw [same]
    refine hs ⟨heval ▸ h.1, ?_⟩
    rw [← hstamp, ← same]
    exact h.2

/-- A node that is marked as normal rests. -/
theorem resting_of_isNormalUnder (hp : p.Sound) {head : Term} {args : List Term} {marks : Marks}
    (ht : (Term.app head args marks).Every p.Trusty)
    (h : (Term.app head args marks).isNormalUnder p.generation = true) :
    p.Resting (.app head args marks) := by
  have hcoherent := ht.coherent (robust_trusty p)
  obtain ⟨hnode, _, _⟩ := Term.every_app.mp ht
  exact (resting_unmarked hp hcoherent).mp
    (hnode.2 ((Term.isNormalUnder_app hcoherent p.generation).mp h))

/-- **A pass that changes nothing and leaves a budget that is not exhausted found the term at
rest.** -/
theorem resting_of_pass (hp : p.Sound) {t : Term} (ht : t.Every p.Trusty) {b : Budget}
    (h : (value (p.pass t) b).1 = none) (hb : (value (p.pass t) b).2.exhausted = false) :
    p.Resting t := by
  induction t using Term.induct generalizing b with
  | atom a =>
    rw [pass, value_bind] at h hb
    rw [resting_atom]
    exact ⟨rfl, idle_of_applyTop hp (.atom a) h hb⟩
  | app head args marks ihhead ihargs =>
    obtain ⟨_, hhead, hargs⟩ := Term.every_app.mp ht
    cases hnormal : (Term.app head args marks).isNormalUnder p.generation with
    | true => exact resting_of_isNormalUnder hp ht hnormal
    | false =>
      rw [pass, if_neg (Bool.eq_false_iff.mp hnormal), value_bind, value_bind] at h hb
      cases hnewHead : (value (p.pass head) b).1 with
      | some newHead =>
        rw [hnewHead] at h
        exact (finishNode_of_changed _ _ _ _ h).elim
      | none =>
        cases hnewArgs : (value (p.passAll args) (value (p.pass head) b).2).1 with
        | some newArgs =>
          rw [hnewHead, hnewArgs] at h
          exact (finishNode_of_changed _ _ _ _ h).elim
        | none =>
          -- nothing exhausted the budget at the end, so nothing did before
          rw [hnewHead, hnewArgs] at h hb
          have hargsPaid := (spending_finishNode head args marks false).lasting.not_exhausted hb
          have hheadPaid := (spending_passAll args).lasting.not_exhausted hargsPaid
          refine resting_app.mpr ⟨?_, ihhead hhead hnewHead hheadPaid, fun a ha => ?_⟩
          · exact rests_of_finishNode hp (ht.coherent (robust_trusty p)) h hb
          · obtain ⟨b', hnew, hpaid⟩ := none_of_passAll hnewArgs hargsPaid a ha
            exact ihargs a ha (hargs a ha) hnew hpaid

end Program

end TermRewriting
