import TermRewriting.Proofs.Rewriting.Congruence

/-!
# Runs end at rest

A run ends with a term only after a pass that changed nothing and left a budget that is not
exhausted. A robust property of all nodes is kept on the way, since passes build their nodes anew
(`endsWith_settle`). With right marks this says that by then the term rests (`settle_rests`). A term
that a pass leaves alone is left alone by any run, even by one that may not pay anything
(`settle_of_pass_none`).
-/

namespace TermRewriting

open Rewriter

namespace Program

variable {p : Program}

/-! ## What a run ends with -/

/-- From terms with the property `Q` of all applications the run ends only with such terms, and only
where `R` holds. -/
def EndsWith (Q R : Term → Prop) (run : Term → Rewriter Outcome) : Prop :=
  ∀ t, t.Every Q → ∀ b v, (value (run t) b).1 = .ok v → v.Every Q ∧ R v

theorem endsWith_overLimit (Q R : Term → Prop) (limit : Nat) :
    EndsWith Q R fun _ => pure (overLimit limit) := by
  intro t _ b v h
  cases h

section

variable (hp : p.Sound) {Q R : Term → Prop} (hQ : Term.Robust Q)
  (hlast : ∀ {t b}, t.Every Q → (value (p.pass t) b).1 = none →
    (value (p.pass t) b).2.exhausted = false → R t)

include hp hQ hlast

theorem endsWith_passThen (limit : Nat) {free paid : Term → Rewriter Outcome}
    (hfree : EndsWith Q R free) (hpaid : EndsWith Q R paid) :
    EndsWith Q R (p.passThen limit free paid) := by
  intro t ht b v h
  have hasked := ht.askedThroughout hQ
  rw [value_passThen] at h
  cases hpass : value (p.pass t.askedThroughout) b with
  | mk new after =>
    rw [hpass] at h
    cases new with
    | none =>
      -- this was the last pass, unless the budget stopped it
      dsimp only at h
      cases hexhausted : after.exhausted with
      | true =>
        rw [hexhausted] at h
        cases h
      | false =>
        rw [hexhausted] at h
        cases h
        refine ⟨hasked, hlast hasked (congrArg Prod.fst hpass) ?_⟩
        rw [hpass]
        exact hexhausted
    | some new =>
      have hnew := every_of_pass hp hQ hasked (congrArg Prod.fst hpass)
      dsimp only at h
      split at h
      · cases h
      · split at h
        · exact hfree new hnew after v h
        · exact hpaid new hnew after v h

theorem endsWith_freePasses (limit : Nat) {paid : Term → Rewriter Outcome}
    (hpaid : EndsWith Q R paid) (count : Nat) : EndsWith Q R (p.freePasses limit paid count) := by
  induction count with
  | zero => exact endsWith_overLimit Q R limit
  | succ count ih => exact endsWith_passThen hp hQ hlast limit ih hpaid

/-- **What holds after every pass that changes nothing holds at the end of a run.** -/
theorem endsWith_settle (limit rounds : Nat) : EndsWith Q R (p.settle limit rounds) := by
  induction rounds with
  | zero =>
    intro t
    rw [settle]
    exact endsWith_freePasses hp hQ hlast limit (endsWith_overLimit Q R limit) _ t
  | succ rounds ih =>
    refine endsWith_passThen hp hQ hlast limit ?_ ih
    intro t
    exact endsWith_freePasses hp hQ hlast limit ih _ t

end

/-- **A run from a trusty term ends only with a trusty term at rest.** -/
theorem settle_rests (hp : p.Sound) (limit rounds : Nat) :
    EndsWith p.Trusty p.Resting (p.settle limit rounds) :=
  endsWith_settle hp (robust_trusty p) (fun ht h hb => resting_of_pass hp ht h hb) limit rounds

/-- A run from a coherent term ends only with a coherent term, even if marks are wrong. -/
theorem settle_coherent (hp : p.Sound) (limit rounds : Nat) :
    EndsWith Term.Truthful (fun _ => True) (p.settle limit rounds) :=
  endsWith_settle hp Term.robust_truthful (fun _ _ _ => trivial) limit rounds

/-! ## Terms that are left alone -/

theorem passThen_of_pass_none (limit : Nat) (free paid : Term → Rewriter Outcome) {t : Term}
    {b : Budget} (h : value (p.pass t.askedThroughout) b = (none, b)) (hb : b.exhausted = false) :
    value (p.passThen limit free paid t) b = (.ok t.askedThroughout, b) := by
  rw [value_passThen, h]
  simp only [hb]
  rfl

/-- **A run leaves a term as it is if a pass does, whatever it may pay.** -/
theorem settle_of_pass_none (limit rounds : Nat) {t : Term} {b : Budget}
    (h : value (p.pass t.askedThroughout) b = (none, b)) (hb : b.exhausted = false) :
    value (p.settle limit rounds t) b = (.ok t.askedThroughout, b) := by
  cases rounds with
  | zero => exact passThen_of_pass_none limit _ _ h hb
  | succ rounds => exact passThen_of_pass_none limit _ _ h hb

/-- A run leaves a term at rest as it is. -/
theorem settle_of_resting (hp : p.Sound) (limit rounds : Nat) {t : Term} (ht : t.Coherent)
    (h : p.Resting t) {b : Budget} (hb : b.exhausted = false) :
    value (p.settle limit rounds t) b = (.ok t.askedThroughout, b) := by
  have hQ := Term.robust_truthful
  have hasked := Term.alike_askedThroughout hQ ht
  have hrests := resting_of_alike hQ hp hasked h
  exact settle_of_pass_none limit rounds (pass_of_resting hp hasked.right hrests b) hb

end Program

end TermRewriting
