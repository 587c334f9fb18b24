import TermRewriting.Proofs.Rewriting.Settling
import TermRewriting.Proofs.Rewriting.Termination

/-!
# Loops of passes

A run is a loop of passes, whatever counts it (`Program.ends_settle`). What a loop comes to is fixed
by its term and its budget, and alike terms come to the same (`Ends.sameOutcome`). A loop may as
well be entered after its first pass, if that did not exhaust the budget (`Ends.exists_afterPass`).
-/

namespace TermRewriting

open Rewriter

namespace Program

variable {p : Program}

/-- How a loop of passes goes on after the first one. -/
theorem Ends.afterPass {limit : Nat} {t : Term} {b : Budget} {result : Outcome × Budget}
    (h : p.Ends limit t b result) {new : Option Term} {after : Budget}
    (hpass : value (p.pass t.askedThroughout) b = (new, after)) :
    (after.exhausted = true ∧ result = (overLimit limit, after))
      ∨ after.exhausted = false ∧ match new with
        | none => result = (.ok t.askedThroughout, after)
        | some new => p.Ends limit new after result := by
  cases h with
  | settled hvalue hpaid =>
    rw [hvalue] at hpass
    cases hpass
    exact .inr ⟨hpaid, rfl⟩
  | stopped hvalue hexhausted =>
    rw [hvalue] at hpass
    cases hpass
    exact .inl ⟨hexhausted, rfl⟩
  | again hvalue hpaid hrest =>
    rw [hvalue] at hpass
    cases hpass
    exact .inr ⟨hpaid, hrest⟩

theorem Ends.ok_or_overLimit {limit : Nat} {t : Term} {b : Budget} {result : Outcome × Budget}
    (h : p.Ends limit t b result) : (∃ v, result.1 = .ok v) ∨ result.1 = overLimit limit := by
  induction h with
  | settled _ _ => exact .inl ⟨_, rfl⟩
  | stopped _ _ => exact .inr rfl
  | again _ _ _ ih => exact ih

/-- The first pass of a loop over a term, from that of a loop over an alike one. -/
theorem exists_pass_of_alike (hp : p.Sound) {t t' : Term} (h : Term.Alike p.Trusty t t')
    {b after : Budget} {new : Option Term}
    (hpass : value (p.pass t.askedThroughout) b = (new, after)) :
    ∃ new', value (p.pass t'.askedThroughout) b = (new', after)
      ∧ Option.Rel (Term.Alike p.Trusty) new new' := by
  obtain ⟨hnew, hafter⟩ := agree_pass hp (h.askedThroughout (robust_trusty p)) b
  rw [hpass] at hnew hafter
  exact ⟨_, Prod.ext rfl hafter.symm, hnew⟩

/-- Loops from alike trusty terms come to the same. -/
theorem Ends.sameOutcome (hp : p.Sound) {limit : Nat} {t t' : Term} {b : Budget}
    {result result' : Outcome × Budget} (h : p.Ends limit t b result)
    (halike : Term.Alike p.Trusty t t') (h' : p.Ends limit t' b result') :
    SameOutcome (Term.Alike p.Trusty) result.1 result'.1 := by
  induction h generalizing t' result' with
  | settled hpass hpaid =>
    obtain ⟨new', hpass', hnew⟩ := exists_pass_of_alike hp halike hpass
    cases hnew
    rcases h'.afterPass hpass' with ⟨hexhausted, _⟩ | ⟨_, rfl⟩
    · exact absurd (hpaid.symm.trans hexhausted) Bool.false_ne_true
    · exact .ok (halike.askedThroughout (robust_trusty p))
  | stopped hpass hexhausted =>
    obtain ⟨new', hpass', _⟩ := exists_pass_of_alike hp halike hpass
    rcases h'.afterPass hpass' with ⟨_, rfl⟩ | ⟨hpaid, _⟩
    · exact .error _
    · exact absurd (hpaid.symm.trans hexhausted) Bool.false_ne_true
  | again hpass hpaid _ ih =>
    obtain ⟨new', hpass', hnew⟩ := exists_pass_of_alike hp halike hpass
    rcases optionRel_cases hnew with ⟨hnone, _⟩ | ⟨u, u', hu, rfl, huu'⟩
    · cases hnone
    · cases hu
      rcases h'.afterPass hpass' with ⟨hexhausted, _⟩ | ⟨_, hrest'⟩
      · exact absurd (hpaid.symm.trans hexhausted) Bool.false_ne_true
      · exact ih huu' hrest'

/-- **A loop may as well start after its first pass**, if that did not exhaust the budget: a term in
which it changed nothing is at rest. -/
theorem Ends.exists_afterPass (hp : p.Sound) {limit : Nat} {t : Term} {b : Budget}
    {result : Outcome × Budget} (h : p.Ends limit t b result) (ht : t.Every p.Trusty)
    {new : Option Term} {after : Budget}
    (hpass : value (p.pass t.askedThroughout) b = (new, after)) (hpaid : after.exhausted = false) :
    ∃ result', p.Ends limit (keepOr t.askedThroughout new) after result'
      ∧ SameOutcome (Term.Alike p.Trusty) result.1 result'.1 := by
  have hQ := robust_trusty p
  have hasked := ht.askedThroughout hQ
  rcases h.afterPass hpass with ⟨hexhausted, _⟩ | ⟨_, hrest⟩
  · exact absurd (hpaid.symm.trans hexhausted) Bool.false_ne_true
  · cases new with
    | none =>
      obtain rfl := hrest
      have hrests : p.Resting t.askedThroughout := by
        refine resting_of_pass hp hasked (congrArg Prod.fst hpass) ?_
        rw [hpass]
        exact hpaid
      have hagain := Term.alike_askedThroughout hQ hasked
      have hrests' := resting_of_alike hQ hp hagain hrests
      exact ⟨_, .settled (pass_of_resting hp (hagain.right.coherent hQ) hrests' after) hpaid,
        .ok hagain⟩
    | some new =>
      have hnew := every_of_pass hp hQ hasked (congrArg Prod.fst hpass)
      exact ⟨result, hrest, Ends.sameOutcome hp hrest (Term.alike_refl hnew) hrest⟩

end Program

end TermRewriting
