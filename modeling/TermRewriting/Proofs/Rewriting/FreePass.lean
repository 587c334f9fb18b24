import TermRewriting.Proofs.Rewriting.Pass
import TermRewriting.Proofs.Rewriting.Weight

/-!
# Passes that cost nothing

A pass is free if it leaves the budget as it was, so if no definition was applied and none could
have been. What a free pass makes of a term is lighter, or it weighs the same and is orderly: every
node in it is in canonical form or is left alone as normal (`eased_of_free_pass`). In an orderly term
a free pass changes nothing (`none_of_free_pass`).

Nothing is asked of the marks in the term here. They may be wrong; a node is left alone if it says
so.
-/

namespace TermRewriting

open Rewriter

namespace Program

variable {p : Program}

/-! ## Orderly terms -/

/-- Every node is in canonical form, down to those that are left alone as normal. -/
inductive Orderly (p : Program) : Term → Prop where
  | atom (a : Atom) : p.Orderly (.atom a)
  | marked {head : Term} {args : List Term} {marks : Marks} :
      (Term.app head args marks).isNormalUnder p.generation = true →
      p.Orderly (.app head args marks)
  | node {head : Term} {args : List Term} {marks : Marks} :
      Term.IsCanonical p.table (.app head args marks) → p.Orderly head →
      (∀ a ∈ args, p.Orderly a) → p.Orderly (.app head args marks)

theorem Orderly.memoized {t : Term} (h : p.Orderly t) : p.Orderly t.memoized := by
  induction h with
  | atom a => exact .atom a
  | @marked head args marks hnormal =>
    rw [← Term.isNormalUnder_memoized] at hnormal
    rw [Term.memoized] at hnormal ⊢
    cases hm : marks.fingerprint with
    | some f =>
      rw [hm] at hnormal
      exact .marked hnormal
    | none =>
      rw [hm] at hnormal
      exact .marked hnormal
  | @node head args marks hcanonical hhead hargs ihhead ihargs =>
    have same := Term.unmarked_memoized (Term.app head args marks)
    have hcanonical' := hcanonical.of_unmarked_eq same.symm
    rw [Term.memoized] at hcanonical' ⊢
    cases hm : marks.fingerprint with
    | some f => exact .node hcanonical hhead hargs
    | none =>
      rw [hm] at hcanonical'
      refine .node hcanonical' ihhead ?_
      rw [Term.memoizedAll_eq_map]
      exact List.forall_mem_map.mpr ihargs

/-- Asking whether nodes are normal leaves a term orderly. -/
theorem Orderly.askedThroughout {t : Term} (h : p.Orderly t) : p.Orderly t.askedThroughout := by
  induction h with
  | atom a => exact .atom a
  | @marked head args marks hnormal =>
    -- only nodes that need no evaluation are marked as normal
    have heval : ¬marks.needsEval = true := by
      intro heval
      simp [Term.isNormalUnder, heval] at hnormal
    rw [Term.askedThroughout, if_neg heval]
    exact (Orderly.marked hnormal).memoized
  | @node head args marks hcanonical hhead hargs ihhead ihargs =>
    have same := Term.unmarked_askedThroughout (Term.app head args marks)
    have hcanonical' := hcanonical.of_unmarked_eq same.symm
    rw [Term.askedThroughout] at hcanonical' ⊢
    split
    · next heval =>
      rw [if_pos heval] at hcanonical'
      refine .node hcanonical' ihhead ?_
      rw [Term.askedThroughoutAll_eq_map]
      exact List.forall_mem_map.mpr ihargs
    · exact (Orderly.node hcanonical hhead hargs).memoized

/-! ## Free computations at a node -/

section

variable {b : Budget} (hb : b.exhausted = false)

include hb

theorem free_applyCandidates {key : DefinitionKey} {rules : RuleSet} {t : Term}
    {numbers : List Nat} (h : (value (p.applyCandidates key rules t numbers) b).2 = b) :
    (value (p.applyCandidates key rules t numbers) b).1 = none := by
  induction numbers with
  | nil => rfl
  | cons i numbers ih =>
    rw [value_applyCandidates_cons] at h ⊢
    split at h
    · exact ih h
    · split at h
      · exact absurd h (Budget.charged_ne hb)
      · exact absurd h (Budget.charged_ne hb)

theorem free_applyFirst {t : Term} {definitions : List (DefinitionKey × (RuleSet × RuleIndex))}
    (h : (value (p.applyFirst t definitions) b).2 = b) :
    (value (p.applyFirst t definitions) b).1 = none := by
  induction definitions with
  | nil => rfl
  | cons e rest ih =>
    obtain ⟨key, rules, index⟩ := e
    rw [applyFirst] at h ⊢
    have hboth := (spending_applyCandidates key rules t _).free_of_bind ?spending hb h
    case spending =>
      intro result
      cases result with
      | none => exact spending_applyFirst t rest
      | some result => exact spending_pure _
    obtain ⟨hfirst, hrest⟩ := hboth
    have hnone := free_applyCandidates hb hfirst
    rw [value_bind, hfirst, hnone]
    rw [hnone] at hrest
    exact ih hrest

theorem free_applyTop {t : Term} (h : (value (p.applyTop t) b).2 = b) :
    ∃ t', (t' = t ∨ t' = t.memoized) ∧ (value (p.applyTop t) b).1 = (none, t') := by
  obtain ⟨t', ht', hvalue⟩ := value_applyTop (p := p) t b
  rw [hvalue] at h
  refine ⟨t', ht', ?_⟩
  rw [hvalue, free_applyFirst hb h]

theorem free_finishNode {head : Term} {args : List Term} {marks : Marks} {changed : Bool}
    (h : (value (p.finishNode head args marks changed) b).2 = b) :
    ∃ t', (t' = (Term.canonicalNode p.table head args marks).1
          ∨ t' = (Term.canonicalNode p.table head args marks).1.memoized)
      ∧ (value (p.finishNode head args marks changed) b).1
        = if changed || (Term.canonicalNode p.table head args marks).2 then some t' else none := by
  rw [finishNode] at h ⊢
  generalize Term.canonicalNode p.table head args marks = c at h ⊢
  obtain ⟨node, moved⟩ := c
  have hboth := (spending_applyTop node).free_of_bind ?spending hb h
  case spending =>
    rintro ⟨_ | result, node⟩
    · exact spending_pure _
    · exact spending_pure _
  obtain ⟨htop, _⟩ := hboth
  obtain ⟨t', ht', hvalue⟩ := free_applyTop hb htop
  refine ⟨t', ht', ?_⟩
  rw [value_bind, hvalue]
  rfl

end

/-! ## Free passes -/

/-- A pass over a node that is not left alone goes over its parts and finishes the node. -/
theorem value_pass_app {head : Term} {args : List Term} {marks : Marks}
    (hnormal : ¬(Term.app head args marks).isNormalUnder p.generation = true) (b : Budget) :
    value (p.pass (.app head args marks)) b
      = let newHead := value (p.pass head) b
        let newArgs := value (p.passAll args) newHead.2
        let unchanged := newHead.1.isNone && newArgs.1.isNone
        value (p.finishNode (keepOr head newHead.1) (keepOr args newArgs.1)
          (if unchanged then marks else .fresh) (!unchanged)) newArgs.2 := by
  rw [pass, if_neg hnormal, value_bind, value_bind]
  dsimp only
  generalize value (p.pass head) b = newHead
  generalize value (p.passAll args) newHead.2 = newArgs
  obtain ⟨_ | newHead, afterHead⟩ := newHead
  · obtain ⟨_ | newArgs, afterArgs⟩ := newArgs
    · rfl
    · rfl
  · rfl

/-- The second term is lighter, or it weighs the same and is orderly. -/
def Eased (p : Program) (old new : Term) : Prop :=
  new.Lighter old ∨ new.SameWeight old ∧ p.Orderly new

theorem Eased.memoized {old new : Term} (h : p.Eased old new) : p.Eased old new.memoized := by
  have hsame : new.memoized.SameWeight new :=
    Term.sameWeight_of_unmarked_eq (Term.unmarked_memoized new)
  rcases h with hlighter | ⟨hequal, hordered⟩
  · exact .inl (hsame.trans_lighter hlighter)
  · exact .inr ⟨hsame.trans hequal, hordered.memoized⟩

/-- The second list is lighter, or it weighs the same and its members are orderly. -/
def EasedAll (p : Program) (olds news : List Term) : Prop :=
  Term.LighterAll news olds ∨ Term.SameWeightAll news olds ∧ ∀ a ∈ news, p.Orderly a

theorem EasedAll.cons {a a' : Term} {as as' : List Term} (ha : p.Eased a a')
    (has : p.EasedAll as as') : p.EasedAll (a :: as) (a' :: as') := by
  rcases ha with ha | ⟨ha, hordered⟩
  · left
    intro around
    rcases has with has | ⟨has, _⟩
    · exact Nat.add_lt_add (ha around) (has around)
    · exact Nat.add_lt_add_of_lt_of_le (ha around) (Nat.le_of_eq (has around))
  · rcases has with has | ⟨has, hallOrdered⟩
    · exact .inl fun around =>
        Nat.add_lt_add_of_le_of_lt (Nat.le_of_eq (ha around)) (has around)
    · refine .inr ⟨fun around => ?_, List.forall_mem_cons.mpr ⟨hordered, hallOrdered⟩⟩
      rw [Term.weightAll, Term.weightAll, ha around, has around]

/-- Canonical form makes a node lighter or finishes it. -/
theorem eased_canonicalNode (head : Term) {args : List Term} {marks : Marks} (hhead : p.Orderly head)
    (hargs : ∀ a ∈ args, p.Orderly a) :
    p.Eased (.app head args marks) (Term.canonicalNode p.table head args marks).1 := by
  rcases Term.canonicalNode_cases p.table head args marks with
    ⟨hself, hcanonical⟩ | hlighter | ⟨hsorted, hcanonical⟩
  · rw [hself]
    exact .inr ⟨.refl _, .node hcanonical hhead hargs⟩
  · exact .inl hlighter
  · rw [hsorted]
    refine .inr ⟨?_, .node hcanonical hhead fun a ha => hargs a ?_⟩
    · exact Term.sameWeight_app rfl (.refl head) (Term.sameWeightAll_sortedArgs args) _ _
    · exact (Term.sortedArgs_perm args).mem_iff.mp ha

/-- Canonical form does not make a node heavier. -/
theorem canonicalNode_not_heavier (table : SymbolTable) (head : Term) (args : List Term)
    (marks : Marks) (around : Nat) :
    (Term.canonicalNode table head args marks).1.weight around
      ≤ (Term.app head args marks).weight around := by
  rcases Term.canonicalNode_cases table head args marks with ⟨hself, _⟩ | hlighter | ⟨hsorted, _⟩
  · rw [hself]
  · exact Nat.le_of_lt (hlighter around)
  · rw [hsorted, Term.sameWeight_app rfl (.refl head) (Term.sameWeightAll_sortedArgs args) _ marks]

/-- A node in canonical form that was made of eased parts is eased. -/
theorem eased_of_parts {j k : Term} {as bs : List Term} (hname : j.symbolName? = k.symbolName?)
    (hhead : p.Eased k j) (hargs : p.EasedAll bs as) (m n : Marks) :
    p.Eased (.app k bs n) (Term.canonicalNode p.table j as m).1 := by
  have hlighter : (∀ around, j.weight around + Term.weightAll around as
        < k.weight around + Term.weightAll around bs) →
      p.Eased (.app k bs n) (Term.canonicalNode p.table j as m).1 := fun h => .inl fun around =>
    Nat.lt_of_le_of_lt (canonicalNode_not_heavier p.table j as m around)
      (Term.lighter_app hname h m n around)
  rcases hhead with hhead | ⟨hhead, hordered⟩
  · rcases hargs with hargs | ⟨hargs, _⟩
    · exact hlighter fun around => Nat.add_lt_add (hhead around) (hargs around)
    · exact hlighter fun around =>
        Nat.add_lt_add_of_lt_of_le (hhead around) (Nat.le_of_eq (hargs around))
  · rcases hargs with hargs | ⟨hargs, hallOrdered⟩
    · exact hlighter fun around =>
        Nat.add_lt_add_of_le_of_lt (Nat.le_of_eq (hhead around)) (hargs around)
    · have hsame := Term.sameWeight_app hname hhead hargs m n
      rcases eased_canonicalNode j hordered hallOrdered with hless | ⟨hequal, hdone⟩
      · exact .inl (hless.trans_sameWeight hsame)
      · exact .inr ⟨hequal.trans hsame, hdone⟩

section

variable {b : Budget} (hb : b.exhausted = false)

include hb

theorem free_parts_passAll {a : Term} {as : List Term}
    (h : (value (p.passAll (a :: as)) b).2 = b) :
    (value (p.pass a) b).2 = b ∧ (value (p.passAll as) b).2 = b := by
  rw [passAll] at h
  obtain ⟨hfirst, hrest⟩ := (spending_pass a).free_of_bind
    (fun _ => spending_bind (spending_passAll as) fun _ => spending_pure _) hb h
  exact ⟨hfirst, ((spending_passAll as).free_of_bind (fun _ => spending_pure _) hb hrest).1⟩

theorem eased_of_free_passAll {args : List Term}
    (ih : ∀ a ∈ args, (value (p.pass a) b).2 = b →
      p.Eased a (keepOr a (value (p.pass a) b).1))
    (h : (value (p.passAll args) b).2 = b) :
    p.EasedAll args (keepOr args (value (p.passAll args) b).1) := by
  induction args with
  | nil => exact .inr ⟨.refl _, fun a ha => nomatch ha⟩
  | cons a as ihas =>
    obtain ⟨ha, has⟩ := List.forall_mem_cons.mp ih
    obtain ⟨hfirst, hrest⟩ := free_parts_passAll hb h
    rw [passAll, value_bind, hfirst, value_bind, value_pure, Term.keepOr_relisted?]
    exact .cons (ha hfirst) (ihas has hrest)

theorem none_of_free_passAll {args : List Term}
    (ih : ∀ a ∈ args, (value (p.pass a) b).2 = b → (value (p.pass a) b).1 = none)
    (h : (value (p.passAll args) b).2 = b) : (value (p.passAll args) b).1 = none := by
  induction args with
  | nil => rfl
  | cons a as ihas =>
    obtain ⟨ha, has⟩ := List.forall_mem_cons.mp ih
    obtain ⟨hfirst, hrest⟩ := free_parts_passAll hb h
    rw [passAll, value_bind, hfirst, value_bind, ha hfirst, ihas has hrest]
    rfl

theorem free_pass_atom {a : Atom} (h : (value (p.pass (.atom a)) b).2 = b) :
    (value (p.pass (.atom a)) b).1 = none := by
  rw [pass] at h ⊢
  obtain ⟨htop, _⟩ := (spending_applyTop _).free_of_bind (fun _ => spending_pure _) hb h
  obtain ⟨t', _, hvalue⟩ := free_applyTop hb htop
  rw [value_bind, hvalue]
  rfl

/-- What a free pass does to a node that is not marked as normal. -/
theorem free_pass_app {head : Term} {args : List Term} {marks : Marks}
    (hnormal : ¬(Term.app head args marks).isNormalUnder p.generation = true)
    (h : (value (p.pass (.app head args marks)) b).2 = b) :
    (value (p.pass head) b).2 = b ∧ (value (p.passAll args) b).2 = b
      ∧ ∃ m, ∃ node, node = Term.canonicalNode p.table (keepOr head (value (p.pass head) b).1)
            (keepOr args (value (p.passAll args) b).1) m
          ∧ (keepOr (.app head args marks) (value (p.pass (.app head args marks)) b).1 = node.1
            ∨ keepOr (.app head args marks) (value (p.pass (.app head args marks)) b).1
                = node.1.memoized)
          ∧ ((value (p.pass head) b).1 = none → (value (p.passAll args) b).1 = none →
              node.2 = false → (value (p.pass (.app head args marks)) b).1 = none) := by
  rw [value_pass_app hnormal] at h ⊢
  dsimp only at h ⊢
  -- the budget is the same before and after, so it is in between
  have hlast := (spending_finishNode _ _ _ _).before h
  have hrest := (spending_passAll args _).trans hlast
  have hhead := (spending_pass head b).eq_of_between hrest hb
  rw [hhead] at h hlast ⊢
  have hargs := (spending_passAll args b).eq_of_between hlast hb
  rw [hargs] at h ⊢
  refine ⟨rfl, rfl, ?_⟩
  generalize (value (p.pass head) b).1 = newHead at h ⊢
  generalize (value (p.passAll args) b).1 = newArgs at h ⊢
  obtain ⟨t', ht', hvalue⟩ := free_finishNode hb h
  rw [hvalue]
  by_cases hparts : newHead = none ∧ newArgs = none
  · obtain ⟨rfl, rfl⟩ := hparts
    refine ⟨marks, _, rfl, ?_, fun _ _ hmoved => ?_⟩
    · show keepOr _ (if (Term.canonicalNode p.table head args marks).2 then some t' else none)
        = _ ∨ keepOr _ (if (Term.canonicalNode p.table head args marks).2 then some t' else none) = _
      cases hmoved : (Term.canonicalNode p.table head args marks).2 with
      | false => exact .inl (congrArg Prod.fst (Term.canonicalNode_eq_self hmoved)).symm
      | true => exact ht'
    · exact if_neg (Bool.eq_false_iff.mp hmoved)
  · have hchanged : (newHead.isNone && newArgs.isNone) = false := by
      simpa [Bool.eq_false_iff] using hparts
    rw [hchanged] at ht' ⊢
    exact ⟨.fresh, _, rfl, ht', fun hnone hnone' _ => absurd ⟨hnone, hnone'⟩ hparts⟩

/-- The result is a symbol only if the term was one already. -/
theorem symbolName?_of_free_pass {t : Term} (h : (value (p.pass t) b).2 = b) :
    (keepOr t (value (p.pass t) b).1).symbolName? = t.symbolName? := by
  cases t with
  | atom a =>
    rw [free_pass_atom hb h]
    rfl
  | app head args marks =>
    cases hnormal : (Term.app head args marks).isNormalUnder p.generation with
    | true =>
      rw [pass_of_isNormalUnder hnormal]
      rfl
    | false =>
      obtain ⟨_, _, m, node, rfl, hresult, _⟩ :=
        free_pass_app hb (Bool.eq_false_iff.mp hnormal) h
      rcases hresult with hresult | hresult
      · rw [hresult, Term.symbolName?_canonicalNode]
        rfl
      · rw [hresult, ← Term.symbolName?_unmarked, Term.unmarked_memoized,
          Term.symbolName?_unmarked, Term.symbolName?_canonicalNode]
        rfl

/-- **A pass that costs nothing makes a term lighter, or leaves its weight and makes it orderly.** -/
theorem eased_of_free_pass {t : Term} (h : (value (p.pass t) b).2 = b) :
    p.Eased t (keepOr t (value (p.pass t) b).1) := by
  induction t using Term.induct with
  | atom a =>
    rw [free_pass_atom hb h]
    exact .inr ⟨.refl _, .atom a⟩
  | app head args marks ihhead ihargs =>
    cases hnormal : (Term.app head args marks).isNormalUnder p.generation with
    | true =>
      rw [pass_of_isNormalUnder hnormal]
      exact .inr ⟨.refl _, .marked hnormal⟩
    | false =>
      obtain ⟨hhead, hargs, m, node, rfl, hresult, _⟩ :=
        free_pass_app hb (Bool.eq_false_iff.mp hnormal) h
      have hname := symbolName?_of_free_pass hb hhead
      have heased := eased_of_parts hname (ihhead hhead)
        (eased_of_free_passAll hb ihargs hargs) m marks
      rcases hresult with hresult | hresult
      · rw [hresult]
        exact heased
      · rw [hresult]
        exact heased.memoized

/-- **In an orderly term a pass that costs nothing changes nothing.** -/
theorem none_of_free_pass {t : Term} (ht : p.Orderly t) (h : (value (p.pass t) b).2 = b) :
    (value (p.pass t) b).1 = none := by
  induction ht with
  | atom a => exact free_pass_atom hb h
  | marked hnormal => rw [pass_of_isNormalUnder hnormal]
  | @node head args marks hcanonical _ _ ihhead ihargs =>
    cases hnormal : (Term.app head args marks).isNormalUnder p.generation with
    | true => rw [pass_of_isNormalUnder hnormal]
    | false =>
      obtain ⟨hhead, hargs, m, node, rfl, _, hnone⟩ :=
        free_pass_app hb (Bool.eq_false_iff.mp hnormal) h
      have hnewHead := ihhead hhead
      have hnewArgs := none_of_free_passAll hb ihargs hargs
      refine hnone hnewHead hnewArgs ?_
      rw [hnewHead, hnewArgs]
      have hsame : Term.IsCanonical p.table (.app head args m) := hcanonical.of_unmarked_eq rfl
      exact Term.canonicalTop_eq_false_iff.mpr hsame

end

end Program

end TermRewriting
