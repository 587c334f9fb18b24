import Mathlib.Algebra.Ring.Nat
import Mathlib.Data.Set.Function
import TermRewriting.Proofs.Rewriting.Isolation
import TermRewriting.Proofs.Term.Stamps

/-!
# Marks through the life of a session

A session is used on terms that are new, or that were made from results of earlier uses, while its
definitions and attributes change. `Run` follows it: the generations it has had, the session as it is
now, and all terms made so far. Only rewriting marks terms.

The invariant of a run is that every stamp in one of its terms was put there under one of its
generations, for the structure that the node still has, and that the node rests if that was the
generation of now (`StampFrom`). A change of the session ages all stamps at once, because fewer than
`2 ^ 64` changes never come back to a generation (`not_mem_generations`). So where stamps of
different generations differ, the session is right about all marks on all its terms.
-/

namespace TermRewriting

open Rewriter

namespace Session

variable {s s' : Session}

/-! ## Changes -/

/-- The session after one change of its definitions or attributes. -/
inductive Changed (s : Session) : Session → Prop where
  | setAttributes (symbol : String) (attributes : Attributes) :
      Changed s (s.setAttributes symbol attributes)
  | addAttributes (symbol : String) (attributes : Attributes) :
      Changed s (s.addAttributes symbol attributes)
  | define {s' : Session} {rule : Rule} : rule.lhs.Coherent → (s.define rule).value = .ok s' →
      Changed s s'
  | defineUp {s' : Session} {rule : Rule} (symbol : String) : rule.lhs.Coherent →
      (s.defineUp symbol rule).value = .ok s' → Changed s s'
  | clearDefinitions (symbol : String) : Changed s (s.clearDefinitions symbol)

theorem Changed.reachable (h : s.Changed s') (hs : s.Reachable) : s'.Reachable := by
  cases h with
  | setAttributes symbol attributes => exact .setAttributes symbol attributes hs
  | addAttributes symbol attributes => exact .addAttributes symbol attributes hs
  | define hlhs h => exact .define hs hlhs h
  | defineUp symbol hlhs h => exact .defineUp symbol hs hlhs h
  | clearDefinitions symbol => exact .clearDefinitions symbol hs

theorem generation_of_attach {kind : ValueKind} {symbol : String} {rule : Rule}
    (h : (s.attach kind symbol rule).value = .ok s') : s'.generation = s.generation + 1 := by
  rw [of_attach h]
  rfl

/-- **Every change leads to the next generation.** -/
theorem Changed.generation_eq (h : s.Changed s') : s'.generation = s.generation + 1 := by
  cases h with
  | setAttributes symbol attributes => rfl
  | addAttributes symbol attributes => rfl
  | define _ h =>
    unfold Session.define at h
    split at h
    · exact generation_of_attach h
    · cases h
  | defineUp symbol _ h => exact generation_of_attach h
  | clearDefinitions symbol => rfl

/-! ## Runs -/

/-- The generations that a session has had, the last one first, the session, and the terms that it
was used on or that were made on the way. -/
inductive Run : List UInt64 → Session → List Term → Prop where
  | start {s : Session} : s.Reachable → Run [s.generation] s []
  | change {generations : List UInt64} {s s' : Session} {pool : List Term} :
      Run generations s pool → s.Changed s' → Run (s'.generation :: generations) s' pool
  | recombine {generations : List UInt64} {s : Session} {pool : List Term} {t : Term} :
      Run generations s pool → t.Recombined pool → Run generations s (t :: pool)
  | rewrite {generations : List UInt64} {s : Session} {pool : List Term} {t out : Term}
      {limit : Nat} : Run generations s pool → t ∈ pool → (s.rewrite limit t).value = .ok out →
      Run generations s (out :: pool)

variable {generations : List UInt64} {pool : List Term}

theorem Run.reachable (h : Run generations s pool) : s.Reachable := by
  induction h with
  | start hs => exact hs
  | change _ hchange ih => exact hchange.reachable ih
  | recombine _ _ ih => exact ih
  | rewrite _ _ _ ih => exact ih

/-- Every generation is some number of changes ago. -/
theorem Run.exists_age (h : Run generations s pool) {generation : UInt64}
    (hmem : generation ∈ generations) :
    ∃ age < generations.length, generation + UInt64.ofNat age = s.generation := by
  induction h with
  | start hs =>
    obtain rfl := List.mem_singleton.mp hmem
    exact ⟨0, by simp, by simp⟩
  | change _ hchange ih =>
    rcases List.mem_cons.mp hmem with rfl | hmem
    · exact ⟨0, by simp, by simp⟩
    · obtain ⟨age, hage, hsum⟩ := ih hmem
      refine ⟨age + 1, Nat.succ_lt_succ hage, ?_⟩
      rw [hchange.generation_eq, ← hsum, UInt64.ofNat_add, ← UInt64.add_assoc]
      rfl
  | recombine _ _ ih => exact ih hmem
  | rewrite _ _ _ ih => exact ih hmem

/-- **Fewer than `2 ^ 64` changes do not come back to a generation.** -/
theorem Run.not_mem_generations (h : Run generations s pool) (hchange : s.Changed s')
    (hcount : generations.length < 2 ^ 64) : s'.generation ∉ generations := by
  intro hmem
  obtain ⟨age, hage, hsum⟩ := h.exists_age hmem
  rw [hchange.generation_eq] at hsum
  have hwords := congrArg UInt64.toNat hsum
  simp only [UInt64.toNat_add, UInt64.toNat_ofNat', UInt64.toNat_one] at hwords
  have hbound := UInt64.toNat_lt s.generation
  omega

theorem Run.generation_mem (h : Run generations s pool) : s.generation ∈ generations := by
  induction h with
  | start _ => exact List.mem_cons_self
  | change _ _ _ => exact List.mem_cons_self
  | recombine _ _ ih => exact ih
  | rewrite _ _ _ ih => exact ih

/-! ## The invariant -/

/-- The stamp is that of the structure under one of the generations, and the structure rests if that
is the generation of now. -/
def StampFrom (s : Session) (generations : List UInt64) (stamp : UInt64) (t : Term) : Prop :=
  ∃ generation ∈ generations, stamp = evaluationStamp t.fingerprint generation
    ∧ (generation = s.generation → s.program.Resting t)

/-- At the fingerprints of the nodes of the terms, different generations give different stamps. -/
def StampsDiffer (generations : List UInt64) (pool : List Term) : Prop :=
  ∀ t ∈ pool, t.Every fun u =>
    Set.InjOn (evaluationStamp u.unmarked.fingerprint) {g | g ∈ generations}

theorem StampsDiffer.of_cons_generation {generation : UInt64}
    (h : StampsDiffer (generation :: generations) pool) : StampsDiffer generations pool :=
  fun t ht => (h t ht).mono fun _ hu => hu.mono fun _ hg => List.mem_cons_of_mem _ hg

theorem StampsDiffer.of_cons_term {t : Term} (h : StampsDiffer generations (t :: pool)) :
    StampsDiffer generations pool := fun s hs => h s (List.mem_cons_of_mem _ hs)

/-- Right stamps that differ by generation are trusty marks. -/
theorem trusty_of_stampFrom (hmem : s.generation ∈ generations) {t : Term}
    (ht : t.Every (Term.StampedBy (s.StampFrom generations)))
    (hstamps : t.Every fun u =>
      Set.InjOn (evaluationStamp u.unmarked.fingerprint) {g | g ∈ generations}) :
    t.Every s.program.Trusty := by
  refine (ht.and hstamps).mono ?_
  rintro u ⟨⟨htruthful, hstamped⟩, hdiffer⟩
  refine ⟨htruthful, fun hmarked => ?_⟩
  obtain ⟨generation, hgeneration, hstamp, hrests⟩ := hstamped _ hmarked.2
  exact hrests (hdiffer hgeneration hmem hstamp.symm)

/-- A result is stamped under the generation of now, and rests. -/
theorem stampFrom_of_rewrite (hs : s.Reachable) (hmem : s.generation ∈ generations) {t out : Term}
    (ht : t.Every s.program.Trusty) {limit : Nat} (h : (s.rewrite limit t).value = .ok out) :
    out.Every (Term.StampedBy (s.StampFrom generations)) := by
  have hp := program_sound hs.wellFiled
  have hcoherent := ht.coherent (Program.robust_trusty s.program)
  have hmarked := marked_of_rewrite hs hcoherent h
  obtain ⟨hout, hrests⟩ := resting_of_rewrite hs ht h
  refine Term.every_of_at? fun path head args marks hnode => ?_
  obtain ⟨⟨htruthful, _, hstamp⟩, _, _⟩ := Term.every_app.mp (hmarked.at? hnode)
  refine ⟨htruthful, fun stamp h => ⟨s.generation, hmem, ?_, fun _ => ?_⟩⟩
  · exact Option.some.inj (h.symm.trans hstamp)
  · exact (Program.resting_unmarked hp (hout.at? hnode)).mpr (hrests.at? hnode)

/-- **All stamps in the terms of a run are right.** -/
theorem Run.stampFrom (h : Run generations s pool) (hcount : generations.length ≤ 2 ^ 64)
    (hstamps : StampsDiffer generations pool) :
    ∀ t ∈ pool, t.Every (Term.StampedBy (s.StampFrom generations)) := by
  induction h with
  | start _ =>
    intro t ht
    cases ht
  | change hrun hchange ih =>
    -- no stamp is of the new generation, so nothing is asked of the new rules
    have hnew := hrun.not_mem_generations hchange hcount
    intro t ht
    have hold := ih (Nat.le_of_lt hcount) hstamps.of_cons_generation t ht
    refine hold.mono fun u hu => hu.mono ?_
    rintro stamp shape ⟨generation, hmem, hstamp, _⟩
    refine ⟨generation, List.mem_cons_of_mem _ hmem, hstamp, fun heq => ?_⟩
    exact absurd (heq ▸ hmem) hnew
  | recombine _ hmade ih =>
    have hold := ih hcount hstamps.of_cons_term
    exact List.forall_mem_cons.mpr ⟨Term.every_of_recombined hold hmade, hold⟩
  | rewrite hrun ht hvalue ih =>
    have hold := ih hcount hstamps.of_cons_term
    have htrusty := trusty_of_stampFrom hrun.generation_mem (hold _ ht)
      (hstamps.of_cons_term _ ht)
    have hnew := stampFrom_of_rewrite hrun.reachable hrun.generation_mem htrusty hvalue
    exact List.forall_mem_cons.mpr ⟨hnew, hold⟩

/-! ## What marks amount to -/

theorem value_rewriteOnce (s : Session) (t : Term) :
    (s.rewriteOnce t).value
      = keepOr t.askedThroughout (value (s.program.pass t.askedThroughout) ⟨none, 0, false⟩).1 :=
  rfl

/-- A pass leaves a term at rest as it is. -/
theorem rewriteOnce_of_resting (hs : s.Reachable) {t : Term} (ht : t.Coherent)
    (h : s.program.Resting t) : (s.rewriteOnce t).value = t.askedThroughout := by
  have hp := program_sound hs.wellFiled
  have hasked := ht.askedThroughout Term.robust_truthful
  have halike : Term.Alike Term.Truthful t t.askedThroughout :=
    ⟨(Term.unmarked_askedThroughout t).symm, ht, hasked⟩
  have hrests := Program.resting_of_alike Term.robust_truthful hp halike h
  rw [value_rewriteOnce, Program.pass_of_resting hp hasked hrests]
  rfl

/-- **Marks are sound through the life of a session.** After fewer than `2 ^ 64` changes, and as long
as its generations give different stamps at the nodes of its terms, a pass leaves the unmarked copy
of every node that is marked as normal as it is, and rewriting a term comes to one failure with and
without its marks, or to identical terms. -/
theorem marks_sound (h : Run generations s pool) (hcount : generations.length ≤ 2 ^ 64)
    (hstamps : StampsDiffer generations pool) {t : Term} (ht : t ∈ pool) :
    (∀ path head args marks, t.at? path = some (.app head args marks) →
      (Term.app head args marks).isNormalUnder s.generation = true →
        (s.rewriteOnce (Term.app head args marks).unmarked).value.identical
          (Term.app head args marks).unmarked = true)
      ∧ ∀ limit, s.SameResults limit t := by
  have hs := h.reachable
  have hright := h.stampFrom hcount hstamps t ht
  have htrusty := trusty_of_stampFrom h.generation_mem hright (hstamps t ht)
  have hcoherent := htrusty.coherent (Program.robust_trusty s.program)
  constructor
  · intro path head args marks hnode hnormal
    have hp := program_sound hs.wellFiled
    have hrests := Program.resting_of_isNormalUnder hp (htrusty.at? hnode) hnormal
    have hunmarked := (Program.resting_unmarked hp (hcoherent.at? hnode)).mpr hrests
    have hfresh := Term.coherent_unmarked (.app head args marks)
    rw [rewriteOnce_of_resting hs hfresh hunmarked]
    refine (Term.identical_iff (hfresh.askedThroughout Term.robust_truthful) hfresh).mpr ?_
    exact Term.unmarked_askedThroughout _
  · have hfresh := (Term.unstamped_unmarked t).trusty (Term.coherent_unmarked t) s.program
    exact sameOutcome_rewrite hs ⟨(Term.unmarked_unmarked t).symm, htrusty, hfresh⟩

/-- A result that was marked before a definition was added: the mark on it is of an older generation,
so the new definition applies to it. -/
theorem marks_sound_outdated :
    ∃ s pool t, Run [1, 0] s pool ∧ StampsDiffer [1, 0] pool ∧ t ∈ pool
      ∧ t.isNormalUnder 0 = true ∧ (s.rewrite 5 t.unmarked).value = .ok (.integer 2)
      ∧ ∀ limit, s.SameResults limit t := by
  have parts := ((Run.start .start).recombine (.atom (.integer 1))).recombine (.atom (.symbol "f"))
  have node := parts.recombine (.built List.mem_cons_self
    (List.forall_mem_singleton.mpr (List.mem_cons_of_mem _ List.mem_cons_self)))
  have result := @Run.rewrite _ _ _ _ _ 5 node List.mem_cons_self rfl
  have run := result.change (@Changed.define _ _
    ⟨.call "f" [.call "Blank" []], .integer 2, false⟩ (Term.coherent_of_unmarked_eq rfl) rfl)
  have hsound := fun hstamps => marks_sound run (by simp) hstamps List.mem_cons_self
  refine ⟨_, _, _, run, ?stamps, List.mem_cons_self, by decide +kernel, rfl, (hsound ?stamps).2⟩
  have hne : evaluationStamp (Term.call "f" [.integer 1]).fingerprint 1
      ≠ evaluationStamp (Term.call "f" [.integer 1]).fingerprint 0 := by decide +kernel
  have differ : ∀ x ∈ [(1 : UInt64), 0], ∀ y ∈ [(1 : UInt64), 0],
      evaluationStamp (Term.call "f" [.integer 1]).fingerprint x
        = evaluationStamp (Term.call "f" [.integer 1]).fingerprint y → x = y := by
    intro x hx y hy heq
    obtain rfl | rfl : x = 1 ∨ x = 0 := by simpa using hx
    · obtain rfl | rfl : y = 1 ∨ y = 0 := by simpa using hy
      · rfl
      · exact absurd heq hne
    · obtain rfl | rfl : y = 1 ∨ y = 0 := by simpa using hy
      · exact absurd heq.symm hne
      · rfl
  refine List.forall_mem_cons.mpr ⟨?_, List.forall_mem_cons.mpr ⟨?_, by simp⟩⟩
  · exact .app (fun x hx y hy => differ x hx y hy) (.atom _)
      (List.forall_mem_singleton.mpr (.atom _))
  · exact .app (fun x hx y hy => differ x hx y hy) (.atom _)
      (List.forall_mem_singleton.mpr (.atom _))

end Session

end TermRewriting
