import TermRewriting.Proofs.Rewriting.NormalForms
import TermRewriting.Proofs.Term.Generations

/-!
# What the marks of one session do in another

A result is marked at all its nodes with the generation of the session that found it. Another
session takes such a mark for its own if the stamp is right for its own generation, and then skips
the node.

A session is right about a term when the nodes that it takes for normal rest in it. Then it does the
same to the term as to the term without marks (`sameResults_of_rightAbout`). Stamps of different
generations differ, but for the one word that stands for a digest of zero (`evaluationStamp_eq`), so
a session is right about the results of sessions at other generations. A session at the same
generation takes all nodes for normal. Nothing but the counter tells the two sessions apart, and
what it does to the marked term is what it does to the unmarked one only if it is right about it.
-/

namespace TermRewriting

open Rewriter

/-! ## Stamps -/

/-- **Under two generations a node has one stamp only if they are one generation, or the stamp is
the word that stands for zero.** -/
theorem evaluationStamp_eq {fingerprint generation other : UInt64}
    (h : evaluationStamp fingerprint generation = evaluationStamp fingerprint other) :
    generation = other ∨ evaluationStamp fingerprint generation = 0x9e3779b97f4a7c15 := by
  refine (evaluationStamp_eq_evaluationStamp_iff.mp h).imp_right fun hclash => ?_
  rw [evaluationStamp_eq_nonzero]
  rcases hclash with ⟨hzero, -⟩ | ⟨hword, -⟩
  · rw [hzero]
    rfl
  · rw [hword]
    rfl

/-! ## Marks that are kept -/

/-- Asking a node that is marked as normal leaves it marked. -/
theorem Term.isNormalUnder_askedThroughout {generation : UInt64} {head : Term} {args : List Term}
    {marks : Marks} (ht : (Term.app head args marks).Coherent)
    (h : (Term.app head args marks).isNormalUnder generation = true) :
    ∃ head' args' marks', (Term.app head args marks).askedThroughout = .app head' args' marks'
      ∧ (Term.app head' args' marks').isNormalUnder generation = true := by
  obtain ⟨heval, hstamp⟩ := (Term.isNormalUnder_app ht generation).mp h
  have hasked : (Term.app head args marks).askedThroughout.Coherent :=
    ht.askedThroughout Term.robust_truthful
  have same := Term.unmarked_askedThroughout (Term.app head args marks)
  have heval' : marks.needsEval = false := heval
  have hnode : (Term.app head args marks).askedThroughout
      = (Term.app head args marks).memoized := by
    rw [Term.askedThroughout, if_neg (by simp [heval'])]
  rw [hnode] at same hasked ⊢
  cases hm : marks.fingerprint with
  | some f =>
    refine ⟨head, args, marks, ?_, h⟩
    rw [Term.memoized, hm]
  | none =>
    rw [Term.memoized, hm] at same hasked ⊢
    dsimp only at same hasked ⊢
    refine ⟨_, _, _, rfl, (Term.isNormalUnder_app hasked generation).mpr ⟨heval', ?_⟩⟩
    rw [same]
    exact hstamp

namespace Session

variable {s : Session}

/-- A node that is marked as normal is its own result. -/
theorem rewrite_of_isNormalUnder {head : Term} {args : List Term} {marks : Marks}
    (ht : (Term.app head args marks).Coherent)
    (h : (Term.app head args marks).isNormalUnder s.generation = true) (limit : Nat) :
    ∃ out, (s.rewrite limit (.app head args marks)).value = .ok out ∧ out.Coherent
      ∧ out.unmarked = (Term.app head args marks).unmarked := by
  have hgeneration : s.program.generation = s.generation := rfl
  rw [← hgeneration] at h
  obtain ⟨head', args', marks', hasked, hnormal⟩ := Term.isNormalUnder_askedThroughout ht h
  have hpass : value (s.program.pass (Term.app head args marks).askedThroughout)
      ⟨some limit, 0, false⟩ = (none, ⟨some limit, 0, false⟩) := by
    rw [hasked]
    exact Program.pass_of_isNormalUnder hnormal _
  refine ⟨(Term.app head args marks).askedThroughout.markNormal s.generation, ?_, ?_, ?_⟩
  · rw [value_rewrite, Program.settle_of_pass_none limit limit hpass rfl]
  · exact Term.coherent_markNormal _ (ht.askedThroughout Term.robust_truthful)
  · rw [Term.unmarked_markNormal, Term.unmarked_askedThroughout]

/-- **Every node of a result is marked as normal under the generation of the session.** -/
theorem marked_of_rewrite (hs : s.Reachable) {t : Term} (ht : t.Coherent) {limit : Nat}
    {out : Term} (h : (s.rewrite limit t).value = .ok out) :
    out.Every fun u => u.Truthful ∧ u.MarkedNormal s.generation := by
  rw [value_rewrite] at h
  split at h
  · next v hv =>
    cases h
    have hp := program_sound hs.wellFiled
    exact Term.every_markNormal s.generation (Program.settle_coherent hp limit limit t ht _ v hv).1
  · cases h

/-! ## Rewriting with and without marks -/

/-- The nodes that the session takes for normal rest in it. -/
def RightAbout (s : Session) (t : Term) : Prop :=
  ∀ path head args marks, t.at? path = some (.app head args marks) →
    (Term.app head args marks).isNormalUnder s.generation = true →
      s.program.Resting (.app head args marks)

/-- Rewriting the term comes to one failure with and without its marks, or to identical terms. -/
def SameResults (s : Session) (limit : Nat) (t : Term) : Prop :=
  SameOutcome (fun u v => u.identical v = true) (s.rewrite limit t).value
    (s.rewrite limit t.unmarked).value

theorem SameResults.exists_of_ok {limit : Nat} {t out : Term} (h : s.SameResults limit t)
    (hout : (s.rewrite limit t).value = .ok out) :
    ∃ out', (s.rewrite limit t.unmarked).value = .ok out' ∧ out.identical out' = true := by
  unfold SameResults at h
  rw [hout] at h
  generalize (s.rewrite limit t.unmarked).value = x at h
  cases h with
  | ok hidentical => exact ⟨_, rfl, hidentical⟩

theorem trusty_of_rightAbout (hs : s.Reachable) {t : Term} (ht : t.Coherent)
    (h : s.RightAbout t) : t.Every s.program.Trusty := by
  refine Term.every_of_at? fun path head args marks hnode => ?_
  have hcoherent := ht.at? hnode
  obtain ⟨htruthful, _, _⟩ := Term.every_app.mp hcoherent
  refine ⟨htruthful, fun hmarked => ?_⟩
  have hnormal := (Term.isNormalUnder_app hcoherent s.generation).mpr hmarked
  have hp := program_sound hs.wellFiled
  exact (Program.resting_unmarked hp hcoherent).mpr (h path head args marks hnode hnormal)

/-- Rewriting alike trusty terms comes to one failure or to identical terms. -/
theorem sameOutcome_rewrite (hs : s.Reachable) {t t' : Term}
    (h : Term.Alike s.program.Trusty t t') (limit : Nat) :
    SameOutcome (fun u v => u.identical v = true) (s.rewrite limit t).value
      (s.rewrite limit t').value := by
  have hp := program_sound hs.wellFiled
  have hQ := Program.robust_trusty s.program
  have hruns := (Program.sameRuns_settle hp limit limit t t' h ⟨some limit, 0, false⟩).1
  rw [value_rewrite, value_rewrite]
  generalize (value (s.program.settle limit limit t) ⟨some limit, 0, false⟩).1 = x at hruns
  generalize (value (s.program.settle limit limit t') ⟨some limit, 0, false⟩).1 = y at hruns
  cases hruns with
  | error e => exact .error e
  | @ok v v' hv =>
    have hleft := Term.coherent_markNormal s.generation (hv.left.coherent hQ)
    have hright := Term.coherent_markNormal s.generation (hv.right.coherent hQ)
    refine .ok ((Term.identical_iff hleft hright).mpr ?_)
    rw [Term.unmarked_markNormal, Term.unmarked_markNormal, hv.same]

/-- **A session that is right about a term does the same to it with and without its marks.** -/
theorem sameResults_of_rightAbout (hs : s.Reachable) {t : Term} (ht : t.Coherent)
    (h : s.RightAbout t) (limit : Nat) : s.SameResults limit t := by
  have hunmarked := (Term.unstamped_unmarked t).trusty (Term.coherent_unmarked t) s.program
  exact sameOutcome_rewrite hs
    ⟨(Term.unmarked_unmarked t).symm, trusty_of_rightAbout hs ht h, hunmarked⟩ limit

/-- **A session is right about marks of another generation**, if no stamp is the word that stands
for zero: it takes none of them for its own. -/
theorem rightAbout_of_generation_ne {r : Term} {generation : UInt64}
    (hmarked : r.Every fun u => u.Truthful ∧ u.MarkedNormal generation)
    (hne : generation ≠ s.generation)
    (hstamps : r.Every fun u => u.stamp? ≠ some 0x9e3779b97f4a7c15) : s.RightAbout r := by
  have hr : r.Coherent := hmarked.mono fun _ => And.left
  intro path head args marks hnode hnormal
  -- the node carries the stamp of the one generation and would need that of the other
  obtain ⟨⟨_, _, hstamp⟩, _, _⟩ := Term.every_app.mp (hmarked.at? hnode)
  obtain ⟨_, hother⟩ := (Term.isNormalUnder_app (hr.at? hnode) s.generation).mp hnormal
  have hsame := Option.some.inj (hstamp.symm.trans hother)
  rcases evaluationStamp_eq hsame with heq | hword
  · exact absurd heq hne
  · rw [hword] at hstamp
    exact absurd hstamp (Term.every_app.mp (hstamps.at? hnode)).1

/-- **A session that does the same with and without marks of its own generation is right about
them.** -/
theorem rightAbout_of_sameResults (hs : s.Reachable) {r : Term}
    (hmarked : r.Every fun u => u.Truthful ∧ u.MarkedNormal s.generation) {n : Nat}
    (hsame : s.SameResults n r) : s.RightAbout r := by
  have hr : r.Coherent := hmarked.mono fun _ => And.left
  intro path head args marks hnode _
  refine Program.Resting.at? ?_ hnode
  cases r with
  | atom x =>
    cases path <;> cases hnode
  | app head' args' marks' =>
    -- the root is skipped for its mark, so the result without marks is the term itself, and rests
    have hnormal : (Term.app head' args' marks').isNormalUnder s.generation = true := by
      obtain ⟨⟨_, hroot⟩, _, _⟩ := Term.every_app.mp hmarked
      exact (Term.isNormalUnder_app hr s.generation).mpr hroot
    obtain ⟨out, hout, hcoherent, hunmarked⟩ := rewrite_of_isNormalUnder hr hnormal n
    obtain ⟨out', hout', hidentical⟩ := hsame.exists_of_ok hout
    have hfresh := (Term.unstamped_unmarked (.app head' args' marks')).trusty
      (Term.coherent_unmarked _) s.program
    obtain ⟨hcoherent', hrests⟩ := resting_of_rewrite hs hfresh hout'
    have hstructure := (Term.identical_iff hcoherent hcoherent').mp hidentical
    have halike : Term.Alike Term.Truthful out' (.app head' args' marks') :=
      ⟨hstructure.symm.trans hunmarked, hcoherent', hr⟩
    have hp := program_sound hs.wellFiled
    exact Program.resting_of_alike Term.robust_truthful hp halike hrests

/-- **Results of one session in another.** A session that is right about the result of another one
does the same to it with and without its marks. It is right about every result of a session at
another generation in which no stamp is the word that stands for zero. At the same generation it
does the same with and without marks only if it is right. -/
theorem sameResults_iff_rightAbout {a b : Session} (ha : a.Reachable) (hb : b.Reachable)
    {t r : Term} (ht : t.Coherent) {m : Nat} (h : (a.rewrite m t).value = .ok r) :
    (b.RightAbout r → ∀ n, b.SameResults n r)
      ∧ (a.generation ≠ b.generation →
          (r.Every fun u => u.stamp? ≠ some 0x9e3779b97f4a7c15) → b.RightAbout r)
      ∧ (a.generation = b.generation → ∀ n, b.SameResults n r ↔ b.RightAbout r) := by
  have hmarked := marked_of_rewrite ha ht h
  have hr : r.Coherent := hmarked.mono fun _ => And.left
  have hsufficient : b.RightAbout r → ∀ n, b.SameResults n r :=
    fun hright n => sameResults_of_rightAbout hb hr hright n
  refine ⟨hsufficient, fun hne hstamps => rightAbout_of_generation_ne hmarked hne hstamps, ?_⟩
  intro heq n
  rw [heq] at hmarked
  exact ⟨rightAbout_of_sameResults hb hmarked, fun hright => hsufficient hright n⟩

/-- What a session without definitions leaves as it is, one with a definition rewrites, marked or
not. -/
theorem sameResults_iff_rightAbout_newer :
    ∃ a b r, Reachable a ∧ Reachable b ∧ a.generation ≠ b.generation
      ∧ (a.rewrite 5 (.call "f" [.integer 1])).value = .ok r
      ∧ (b.rewrite 5 r.unmarked).value = .ok (.integer 2) ∧ ∀ n, b.SameResults n r := by
  have hb := @Reachable.define _ _ ⟨.call "f" [.call "Blank" []], .integer 2, false⟩ .start
    (Term.coherent_of_unmarked_eq rfl) rfl
  refine ⟨_, _, _, .start, hb, by decide, rfl, rfl, ?_⟩
  have ht : (Term.call "f" [.integer 1]).Coherent := Term.coherent_of_unmarked_eq rfl
  have h := @sameResults_iff_rightAbout _ _ .start hb _ _ ht 5 rfl
  refine h.1 (h.2.1 (by decide) (.app (by decide +kernel) (.atom _) ?_))
  intro x hx
  rw [List.mem_singleton.mp hx]
  exact .atom _

/-- Two sessions with one definition each are at the same generation. What the one left as it is,
the other leaves as it is for the mark on it, although its own definition applies. -/
theorem marks_hold_in_other_session :
    ∃ a b r out, Reachable a ∧ Reachable b ∧ (Term.call "f" [.integer 1]).Coherent
      ∧ (a.rewrite 5 (.call "f" [.integer 1])).value = .ok r
      ∧ (b.rewrite 5 r).value = .ok out ∧ out.unmarked = .call "f" [.integer 1]
      ∧ (b.rewrite 5 r.unmarked).value = .ok (.integer 2) ∧ ¬ b.SameResults 5 r := by
  have ha := @Reachable.define _ _ ⟨.symbol "z", .integer 1, false⟩ .start (.atom _) rfl
  obtain ⟨b, hb, hgeneration, hvalue⟩ : ∃ b, Reachable b ∧ b.generation = 1
      ∧ (b.rewrite 5 (.call "f" [.integer 1])).value = .ok (.integer 2) := by
    have hb := @Reachable.define _ _ ⟨.call "f" [.call "Blank" []], .integer 2, false⟩ .start
      (Term.coherent_of_unmarked_eq rfl) rfl
    exact ⟨_, hb, rfl, rfl⟩
  have ht : (Term.call "f" [.integer 1]).Coherent := Term.coherent_of_unmarked_eq rfl
  have hmarked := @marked_of_rewrite _ ha _ ht 5 _ rfl
  have hr := hmarked.mono fun _ => And.left
  have hnormal := (Term.isNormalUnder_app hr 1).mpr (Term.every_app.mp hmarked).1.2
  rw [← hgeneration] at hnormal
  obtain ⟨out, hout, hcoherent, hunmarked⟩ := rewrite_of_isNormalUnder hr hnormal 5
  refine ⟨_, b, _, out, ha, hb, ht, rfl, hout, hunmarked, hvalue, ?_⟩
  intro hsame
  obtain ⟨out', hout', hidentical⟩ := hsame.exists_of_ok hout
  have hout'' : Except.ok (Term.integer 2) = Except.ok out' := hvalue.symm.trans hout'
  cases hout''
  have hstructure := (Term.identical_iff hcoherent (.atom _)).mp hidentical
  rw [hunmarked] at hstructure
  cases hstructure

end Session

end TermRewriting
