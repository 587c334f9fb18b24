import TermRewriting.Proofs.Rewriting.Congruence
import TermRewriting.Proofs.Rewriting.FreePass

/-!
# Runs end

A pass that costs nothing makes a term lighter or orderly, and changes nothing in an orderly term. So
there are at most as many free changes in a row as the term has weight, and one more; between them
lie paid passes, of which the limit allows only finitely many.

A run counts its passes, so that it ends by its definition. `Ends` describes the same loop without
any count. A run is such a loop: it never ends because a count was used up (`ends_settle`).
-/

namespace TermRewriting

open Rewriter

namespace Program

variable {p : Program}

/-! ## Free changes -/

/-- One pass turns the first term into the second, and no definition is applied or could be. -/
def FreeChange (p : Program) (t new : Term) : Prop :=
  ∃ b : Budget, b.exhausted = false ∧ value (p.pass t.askedThroughout) b = (some new, b)

theorem FreeChange.eased {t new : Term} (h : p.FreeChange t new) : p.Eased t new := by
  obtain ⟨b, hb, hvalue⟩ := h
  have heased := eased_of_free_pass hb (congrArg Prod.snd hvalue)
  rw [hvalue] at heased
  have hsame : t.askedThroughout.SameWeight t :=
    Term.sameWeight_of_unmarked_eq (Term.unmarked_askedThroughout t)
  rcases heased with hlighter | ⟨hequal, hordered⟩
  · exact .inl (hlighter.trans_sameWeight hsame)
  · exact .inr ⟨hequal.trans hsame, hordered⟩

theorem FreeChange.not_orderly {t new : Term} (h : p.FreeChange t new) : ¬p.Orderly t := by
  obtain ⟨b, hb, hvalue⟩ := h
  intro ht
  have hnone := none_of_free_pass hb ht.askedThroughout (congrArg Prod.snd hvalue)
  rw [hvalue] at hnone
  cases hnone

/-- **There is no infinite sequence of free changes.** -/
theorem not_infinite_freeChange (p : Program) :
    ¬∃ f : Nat → Term, ∀ i, p.FreeChange (f i) (f (i + 1)) := by
  rintro ⟨f, hf⟩
  -- each term changes, so none is orderly and each is lighter than the one before
  have hlighter : ∀ i, (f (i + 1)).weight 0 < (f i).weight 0 := by
    intro i
    rcases (hf i).eased with hlighter | ⟨_, hordered⟩
    · exact hlighter 0
    · exact absurd hordered (hf (i + 1)).not_orderly
  have hsum : ∀ n, (f n).weight 0 + n ≤ (f 0).weight 0 := by
    intro n
    induction n with
    | zero => exact Nat.le_refl _
    | succ n ih =>
      have hstep := hlighter n
      omega
  have hlast := hsum ((f 0).weight 0 + 1)
  omega

/-! ## Runs without a count -/

/-- Passes until one changes nothing or the budget is exhausted, and what that comes to. -/
inductive Ends (p : Program) (limit : Nat) : Term → Budget → Outcome × Budget → Prop where
  | settled {t : Term} {b after : Budget} :
      value (p.pass t.askedThroughout) b = (none, after) → after.exhausted = false →
      Ends p limit t b (.ok t.askedThroughout, after)
  | stopped {t : Term} {b after : Budget} {new : Option Term} :
      value (p.pass t.askedThroughout) b = (new, after) → after.exhausted = true →
      Ends p limit t b (overLimit limit, after)
  | again {t new : Term} {b after : Budget} {result : Outcome × Budget} :
      value (p.pass t.askedThroughout) b = (some new, after) → after.exhausted = false →
      Ends p limit new after result → Ends p limit t b result

/-- The loop goes on from every term and budget to which a paid pass may lead. -/
def EndsPaid (p : Program) (limit : Nat) (b : Budget) (paid : Term → Rewriter Outcome) : Prop :=
  ∀ new after, b.Before after → after.exhausted = false → b.used < after.used →
    p.Ends limit new after (value (paid new) after)

theorem ends_passThen {limit : Nat} {free paid : Term → Rewriter Outcome} {t : Term} {b : Budget}
    (hfree : ∀ new, value (p.pass t.askedThroughout) b = (some new, b) →
      p.Ends limit new b (value (free new) b))
    (hpaid : p.EndsPaid limit b paid) :
    p.Ends limit t b (value (p.passThen limit free paid t) b) := by
  have hbefore := spending_pass (p := p) t.askedThroughout b
  rw [value_passThen]
  cases hpass : value (p.pass t.askedThroughout) b with
  | mk new after =>
    rw [hpass] at hbefore
    cases hexhausted : after.exhausted with
    | true =>
      cases new with
      | none => simpa [hexhausted] using Ends.stopped hpass hexhausted
      | some new => simpa [hexhausted] using Ends.stopped hpass hexhausted
    | false =>
      cases new with
      | none => simpa [hexhausted] using Ends.settled hpass hexhausted
      | some new =>
        refine .again hpass hexhausted ?_
        simp only [hexhausted, Bool.false_eq_true, if_false]
        split
        · next hused =>
          obtain rfl : after = b := hbefore.eq_of_used hused hexhausted
          exact hfree new hpass
        · next hused =>
          exact hpaid new after hbefore hexhausted (Nat.lt_of_le_of_ne hbefore.used hused)

/-- **Between two paid passes the weight allows as many passes as there can be.** -/
theorem ends_freePasses {limit : Nat} {paid : Term → Rewriter Outcome} {b : Budget}
    (hb : b.exhausted = false) (hpaid : p.EndsPaid limit b paid) {count : Nat} {t : Term}
    (hcount : t.weight 0 + 2 ≤ count ∨ 1 ≤ count ∧ p.Orderly t) :
    p.Ends limit t b (value (p.freePasses limit paid count t) b) := by
  induction count generalizing t with
  | zero => omega
  | succ count ih =>
    refine ends_passThen (fun new hpass => ih ?_) hpaid
    have hchange : p.FreeChange t new := ⟨b, hb, hpass⟩
    have hweight := hcount.resolve_right fun h => hchange.not_orderly h.2
    rcases hchange.eased with hlighter | ⟨_, hordered⟩
    · have hless := hlighter 0
      exact .inl (by omega)
    · exact .inr ⟨by omega, hordered⟩

/-- **A run never ends because its count was used up.** -/
theorem ends_settle {limit : Nat} (rounds : Nat) (t : Term) {b : Budget}
    (hb : b.exhausted = false) (hlimit : b.limit = some limit) (hrounds : limit ≤ b.used + rounds) :
    p.Ends limit t b (value (p.settle limit rounds t) b) := by
  induction rounds generalizing t b with
  | zero =>
    -- all is paid already
    refine ends_freePasses hb (fun new after hbefore _ hused => ?_) (.inl (Nat.le_refl _))
    have hwithin := hbefore.within limit hlimit
    omega
  | succ rounds ih =>
    have hpaid : p.EndsPaid limit b (p.settle limit rounds) := by
      intro new after hbefore hexhausted hused
      exact ih new hexhausted (hbefore.limit.trans hlimit) (by omega)
    exact ends_passThen (fun new _ => ends_freePasses hb hpaid (.inl (Nat.le_refl _))) hpaid

/-! ## Programs without definitions -/

theorem applyTop_of_rules_eq_nil (h : p.rules = []) (t : Term) (b : Budget) :
    value (p.applyTop t) b = ((none, t), b) := by
  have hnone : p.definitionsFor t = [] := by simp [definitionsFor, h]
  rw [applyTop, hnone]
  rfl

theorem finishNode_of_rules_eq_nil (h : p.rules = []) (head : Term) (args : List Term)
    (marks : Marks) (changed : Bool) (b : Budget) :
    (value (p.finishNode head args marks changed) b).2 = b := by
  rw [finishNode, value_bind, applyTop_of_rules_eq_nil h]
  rfl

/-- Without definitions nothing is paid. -/
theorem pass_of_rules_eq_nil (h : p.rules = []) (t : Term) (b : Budget) :
    (value (p.pass t) b).2 = b := by
  induction t using Term.induct generalizing b with
  | atom a =>
    rw [pass, value_bind, applyTop_of_rules_eq_nil h]
    rfl
  | app head args marks ihhead ihargs =>
    have hall : ∀ b, (value (p.passAll args) b).2 = b := by
      induction args with
      | nil => exact fun _ => rfl
      | cons a as ih =>
        obtain ⟨ha, has⟩ := List.forall_mem_cons.mp ihargs
        intro b
        rw [passAll, value_bind, ha, value_bind, ih has]
        rfl
    cases hnormal : (Term.app head args marks).isNormalUnder p.generation with
    | true => rw [pass_of_isNormalUnder hnormal]
    | false =>
      rw [value_pass_app (Bool.eq_false_iff.mp hnormal)]
      dsimp only
      rw [finishNode_of_rules_eq_nil h, hall, ihhead]

/-- Without definitions every run ends with a term. -/
theorem Ends.ok_of_rules_eq_nil {limit : Nat} {t : Term} {b : Budget} {result : Outcome × Budget}
    (hends : p.Ends limit t b result) (h : p.rules = []) (hb : b.exhausted = false) :
    ∃ out, result.1 = .ok out := by
  induction hends with
  | settled _ _ => exact ⟨_, rfl⟩
  | @stopped t b after new hpass hexhausted =>
    have hsame := pass_of_rules_eq_nil h t.askedThroughout b
    rw [hpass] at hsame
    dsimp only at hsame
    rw [hsame, hb] at hexhausted
    cases hexhausted
  | again _ hexhausted _ ih => exact ih hexhausted

end Program

namespace Session

theorem rules_eq_nil {s : Session} (h : ∀ e ∈ s.definitions.entries, e.2 = []) :
    s.program.rules = [] := by
  simp only [program, List.filter_eq_nil_iff, List.forall_mem_map]
  intro e he
  simp [h e he]

/-- **Rewriting ends.** No pass keeps changing a term without applying a definition; a run with a
limit is the loop of passes until one changes nothing or the limit is hit, which has an end; and
without definitions it ends with a term, whatever the limit. -/
theorem rewrite_ends (s : Session) (limit : Nat) (t : Term) :
    (¬∃ f : Nat → Term, ∀ i, s.program.FreeChange (f i) (f (i + 1)))
      ∧ (∃ result, s.program.Ends limit t ⟨some limit, 0, false⟩ result
          ∧ (s.rewrite limit t).value = (s.program.finishRun result).value)
      ∧ ((∀ e ∈ s.definitions.entries, e.2 = []) →
          ∃ out, (s.rewrite limit t).value = .ok out) := by
  have hends : s.program.Ends limit t ⟨some limit, 0, false⟩
      (value (s.program.settle limit limit t) ⟨some limit, 0, false⟩) :=
    Program.ends_settle limit t rfl rfl (Nat.le_add_left limit 0)
  refine ⟨s.program.not_infinite_freeChange, ⟨_, hends, rfl⟩, fun hnone => ?_⟩
  obtain ⟨out, hout⟩ := hends.ok_of_rules_eq_nil (rules_eq_nil hnone) rfl
  refine ⟨out.markNormal s.program.generation, ?_⟩
  show (s.program.finishRun
    (value (s.program.settle limit limit t) ⟨some limit, 0, false⟩)).value = _
  generalize value (s.program.settle limit limit t) ⟨some limit, 0, false⟩ = result at hout
  obtain ⟨outcome, budget⟩ := result
  obtain rfl := hout
  rfl

/-- Two conditions that are handed upwards into an `And` that is sorted only by the next pass, without
any application allowed. -/
theorem rewrite_ends_handing_up :
    (∀ e ∈ (({} : Session).setAttributes "And" .orderless).definitions.entries, e.2 = [])
      ∧ ∃ out, ((({} : Session).setAttributes "And" .orderless).rewrite 0
          (.call "f" [.call "ConditionalExpression" [.integer 1, .symbol "b"],
            .call "ConditionalExpression" [.integer 2, .symbol "a"]])).value = .ok out :=
  have hnone := fun _ he => absurd he List.not_mem_nil
  ⟨hnone, (rewrite_ends _ 0 _).2.2 hnone⟩

end Session

end TermRewriting
