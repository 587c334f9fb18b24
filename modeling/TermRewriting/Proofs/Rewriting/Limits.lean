import TermRewriting.Proofs.Rewriting.Applications
import TermRewriting.Proofs.Rewriting.Loops
import TermRewriting.Proofs.Rewriting.Marks
import TermRewriting.Proofs.Rewriting.Price

/-!
# What a limit decides

Without a limit, passes over a term settle after some of them, and after some applications, or they
never settle (`Program.Settles`). A limit does not change what they settle on: it only decides
whether the applications that this needs are allowed (`Session.rewrite_eq_ok_iff`). If they are not,
nothing of a pass that was cut short is returned, for the budget that it leaves is exhausted.

The passes are those of `Session.rewriteOnce`, so what they settle on is the first of the terms that
such passes lead to that one more leaves as it is (`Session.first_unchanged`). This is where right
marks are asked for: of two alike terms with wrong marks one could settle and the other not.
-/

namespace TermRewriting

open Rewriter

namespace Program

variable {p : Program}

/-! ## Passes without a limit -/

/-- The term after one pass without a limit. -/
def onePass (p : Program) (t : Term) : Term := p.stepped t.askedThroughout

/-- Without a limit, the passes over a term settle after `passes` that change something and
`applications` of definitions in all. -/
inductive Settles (p : Program) : Term → Nat → Nat → Term → Prop where
  | rest {t : Term} : outcome (p.pass t.askedThroughout) = none →
      Settles p t 0 (p.cost t.askedThroughout) t.askedThroughout
  | change {t new v : Term} {passes applications : Nat} :
      outcome (p.pass t.askedThroughout) = some new → Settles p new passes applications v →
      Settles p t (passes + 1) (p.cost t.askedThroughout + applications) v

theorem Settles.unique {t v v' : Term} {passes applications passes' applications' : Nat}
    (h : p.Settles t passes applications v) (h' : p.Settles t passes' applications' v') :
    passes = passes' ∧ applications = applications' ∧ v = v' := by
  induction h generalizing passes' applications' with
  | rest hnone =>
    cases h' with
    | rest _ => exact ⟨rfl, rfl, rfl⟩
    | change hsome _ =>
      rw [hnone] at hsome
      cases hsome
  | change hsome _ ih =>
    cases h' with
    | rest hnone =>
      rw [hnone] at hsome
      cases hsome
    | change hsome' hrest' =>
      obtain rfl := Option.some.inj (hsome.symm.trans hsome')
      obtain ⟨rfl, rfl, rfl⟩ := ih hrest'
      exact ⟨rfl, rfl, rfl⟩

/-! ## Loops on a budget -/

/-- A pass that leaves a budget that is not exhausted did what it does without a limit. -/
theorem paid_of_pass {t : Term} {b after : Budget} {new : Option Term} (hb : b.exhausted = false)
    (h : value (p.pass t) b = (new, after)) (hafter : after.exhausted = false) :
    b.Affords (p.cost t) ∧ outcome (p.pass t) = new ∧ after = b.spent (p.cost t) := by
  by_cases hcost : b.Affords (p.cost t)
  · rw [pass_of_affords hb hcost] at h
    obtain ⟨hnew, hspent⟩ := Prod.mk.inj h
    exact ⟨hcost, hnew, hspent.symm⟩
  · have hexhausted := pass_of_not_affords hb hcost
    rw [h, hafter] at hexhausted
    cases hexhausted

/-- **A loop that ends with a term settled on it**, for what it paid. -/
theorem Ends.settles {limit : Nat} {t v : Term} {b : Budget} {result : Outcome × Budget}
    (h : p.Ends limit t b result) (hb : b.exhausted = false) (hv : result.1 = .ok v) :
    ∃ passes applications, p.Settles t passes applications v ∧ b.Affords applications
      ∧ result.2 = b.spent applications := by
  induction h with
  | settled hpass hafter =>
    obtain ⟨hcost, hnone, hspent⟩ := paid_of_pass hb hpass hafter
    obtain rfl := Except.ok.inj hv
    exact ⟨0, _, .rest hnone, hcost, hspent⟩
  | stopped _ _ => cases hv
  | again hpass hafter _ ih =>
    obtain ⟨hcost, hsome, rfl⟩ := paid_of_pass hb hpass hafter
    obtain ⟨passes, applications, hsettles, hafford, hresult⟩ := ih hb hv
    refine ⟨passes + 1, _, .change hsome hsettles, Budget.affords_add.mpr ⟨hcost, hafford⟩, ?_⟩
    rw [hresult, Budget.spent_spent]

/-- **A loop that can pay for it ends with the term that passes settle on.** -/
theorem Settles.ends {limit : Nat} {t v : Term} {passes applications : Nat} {b : Budget}
    {result : Outcome × Budget} (h : p.Settles t passes applications v) (hb : b.exhausted = false)
    (hafford : b.Affords applications) (hends : p.Ends limit t b result) :
    result = (.ok v, b.spent applications) := by
  induction h generalizing b with
  | rest hnone =>
    have hpass := pass_of_affords hb hafford
    rw [hnone] at hpass
    rcases hends.afterPass hpass with ⟨hexhausted, _⟩ | ⟨_, hresult⟩
    · exact absurd (hb.symm.trans hexhausted) Bool.false_ne_true
    · exact hresult
  | @change t new v passes applications hsome _ ih =>
    obtain ⟨hcost, hrest⟩ := Budget.affords_add.mp hafford
    have hpass := pass_of_affords hb hcost
    rw [hsome] at hpass
    rcases hends.afterPass hpass with ⟨hexhausted, _⟩ | ⟨_, hagain⟩
    · exact absurd (hb.symm.trans hexhausted) Bool.false_ne_true
    · have hleft : (b.spent (p.cost t.askedThroughout)).exhausted = false := hb
      rw [ih hleft hrest hagain, Budget.spent_spent]

/-! ## Iterated passes -/

theorem onePass_of_some {t new : Term} (h : outcome (p.pass t.askedThroughout) = some new) :
    p.onePass t = new := by
  rw [onePass, stepped, h]
  rfl

theorem onePass_of_none {t : Term} (h : outcome (p.pass t.askedThroughout) = none) :
    p.onePass t = t.askedThroughout := by
  rw [onePass, stepped, h]
  rfl

/-- What passes settle on is what iterated passes lead to, and one more pass changes nothing. -/
theorem Settles.iterate {t v : Term} {passes applications : Nat}
    (h : p.Settles t passes applications v) :
    v = (p.onePass^[passes] t).askedThroughout ∧ p.onePass (p.onePass^[passes] t) = v := by
  induction h with
  | rest hnone => exact ⟨rfl, onePass_of_none hnone⟩
  | change hsome _ ih =>
    rw [Function.iterate_succ_apply, onePass_of_some hsome]
    exact ih

theorem every_onePass (hp : p.Sound) {Q : Term → Prop} (hQ : Term.Robust Q) {t : Term}
    (ht : t.Every Q) : (p.onePass t).Every Q := every_stepped hp hQ (ht.askedThroughout hQ)

theorem every_iterate_onePass (hp : p.Sound) {Q : Term → Prop} (hQ : Term.Robust Q) (n : Nat)
    {t : Term} (ht : t.Every Q) : (p.onePass^[n] t).Every Q := by
  induction n generalizing t with
  | zero => exact ht
  | succ n ih =>
    rw [Function.iterate_succ_apply]
    exact ih (every_onePass hp hQ ht)

/-- Passes over alike trusty terms come to alike terms, for the same price. -/
theorem pass_of_alike (hp : p.Sound) {t t' : Term} (h : Term.Alike p.Trusty t t') :
    Option.Rel (Term.Alike p.Trusty) (outcome (p.pass t.askedThroughout))
        (outcome (p.pass t'.askedThroughout))
      ∧ p.cost t.askedThroughout = p.cost t'.askedThroughout := by
  obtain ⟨hnew, hafter⟩ := agree_pass hp (h.askedThroughout (robust_trusty p)) .boundless
  exact ⟨hnew, congrArg Budget.used hafter⟩

/-- Alike trusty terms settle after the same passes and applications. -/
theorem Settles.of_alike (hp : p.Sound) {t t' v : Term} {passes applications : Nat}
    (h : p.Settles t passes applications v) (halike : Term.Alike p.Trusty t t') :
    ∃ v', p.Settles t' passes applications v' := by
  induction h generalizing t' with
  | rest hnone =>
    obtain ⟨hnew, hcost⟩ := pass_of_alike hp halike
    rw [hnone] at hnew
    rcases optionRel_cases hnew with ⟨_, hnone'⟩ | ⟨_, _, hsome, _⟩
    · rw [hcost]
      exact ⟨_, .rest hnone'⟩
    · cases hsome
  | change hsome _ ih =>
    obtain ⟨hnew, hcost⟩ := pass_of_alike hp halike
    rw [hsome] at hnew
    rcases optionRel_cases hnew with ⟨hnone, _⟩ | ⟨u, u', hu, hsome', huu'⟩
    · cases hnone
    · obtain rfl := Option.some.inj hu
      obtain ⟨v', hrest⟩ := ih huu'
      rw [hcost]
      exact ⟨v', .change hsome' hrest⟩

/-- **Every pass before passes settle changes the structure.** -/
theorem Settles.changes (hp : p.Sound) {t v : Term} {passes applications : Nat}
    (h : p.Settles t passes applications v) (ht : t.Every p.Trusty) :
    ∀ i < passes, (p.onePass (p.onePass^[i] t)).unmarked ≠ (p.onePass^[i] t).unmarked := by
  induction h with
  | rest _ =>
    intro i hi
    exact absurd hi (Nat.not_lt_zero i)
  | @change t new v passes applications hsome hrest ih =>
    have hstep : p.onePass t = new := onePass_of_some hsome
    have hnew : new.Every p.Trusty := hstep ▸ every_onePass hp (robust_trusty p) ht
    intro i hi
    cases i with
    | zero =>
      intro hsame
      rw [Function.iterate_zero_apply, hstep] at hsame
      -- the new term would settle as the old one does, but it has one pass less to go
      obtain ⟨v', hsettles⟩ := hrest.of_alike hp ⟨hsame, hnew, ht⟩
      have hcount := (hsettles.unique (.change hsome hrest)).1
      omega
    | succ i =>
      rw [Function.iterate_succ_apply, hstep]
      exact ih hnew i (Nat.lt_of_succ_lt_succ hi)

end Program

namespace Session

variable {s : Session} {t : Term}

theorem ends_rewrite (s : Session) (limit : Nat) (t : Term) :
    s.program.Ends limit t ⟨some limit, 0, false⟩
      (value (s.program.settle limit limit t) ⟨some limit, 0, false⟩) :=
  Program.ends_settle limit t rfl rfl (Nat.le_add_left limit 0)

theorem affords_limit (limit n : Nat) : (Budget.mk (some limit) 0 false).Affords n ↔ n ≤ limit := by
  constructor
  · intro h
    exact h limit rfl
  · intro h limit' hlimit
    obtain rfl := Option.some.inj hlimit
    exact h

/-- **A limit decides between success and failure.** Rewriting succeeds if passes settle and the
applications that this needs are allowed, and gives what they settle on. -/
theorem rewrite_eq_ok_iff {limit : Nat} {out : Term} :
    (s.rewrite limit t).value = .ok out ↔ ∃ passes applications v,
      s.program.Settles t passes applications v ∧ applications ≤ limit
        ∧ out = v.markNormal s.generation := by
  have hends := ends_rewrite s limit t
  rw [value_rewrite]
  constructor
  · intro h
    split at h
    · next v hv =>
      obtain ⟨passes, applications, hsettles, hafford, _⟩ := hends.settles rfl hv
      exact ⟨passes, applications, v, hsettles, (affords_limit limit _).mp hafford,
        (Except.ok.inj h).symm⟩
    · cases h
  · rintro ⟨passes, applications, v, hsettles, hlimit, rfl⟩
    rw [hsettles.ends rfl ((affords_limit limit _).mpr hlimit) hends]

/-- There is one way to fail. -/
theorem rewrite_error {limit : Nat} {failure : Failure}
    (h : (s.rewrite limit t).value = .error failure) : failure = .iterationLimit limit := by
  rw [value_rewrite] at h
  rcases (ends_rewrite s limit t).ok_or_overLimit with ⟨v, hv⟩ | hover
  · rw [hv] at h
    cases h
  · rw [hover] at h
    exact (Except.error.inj h).symm

theorem rewrite_ok_or_error (s : Session) (limit : Nat) (t : Term) :
    (∃ out, (s.rewrite limit t).value = .ok out)
      ∨ (s.rewrite limit t).value = .error (.iterationLimit limit) := by
  cases h : (s.rewrite limit t).value with
  | ok out => exact .inl ⟨out, rfl⟩
  | error failure => exact .inr (congrArg Except.error (rewrite_error h))

/-- A run that succeeds applies as many definitions as passes without a limit do. -/
theorem applications_of_rewrite_ok {limit applications passes : Nat} {v : Term}
    (hsettles : s.program.Settles t passes applications v) (h : applications ≤ limit) :
    TermRewriting.applications (s.rewrite limit t).events = applications := by
  rw [applications_rewrite, hsettles.ends rfl ((affords_limit limit _).mpr h)
    (ends_rewrite s limit t)]
  exact Nat.zero_add applications

/-- The passes of a term without marks settle on the first term that one of them leaves as it is. -/
theorem first_unchanged (hs : s.Reachable) (ht : t.Coherent) (hfresh : t.Unstamped)
    {v : Term} {passes applications : Nat} (h : s.program.Settles t passes applications v) :
    let once := fun u => (s.rewriteOnce u).value
    (v.markNormal s.generation).identical (once^[passes] t) = true
      ∧ (once (once^[passes] t)).identical (once^[passes] t) = true
      ∧ ∀ i < passes, (once (once^[i] t)).identical (once^[i] t) = false := by
  intro once
  have hp := program_sound hs.wellFiled
  have honce : s.program.onePass = once := rfl
  have hcoherent : ∀ n, (once^[n] t).Coherent := fun n =>
    Program.every_iterate_onePass hp Term.robust_truthful n ht
  obtain ⟨hv, hrest⟩ := h.iterate
  rw [honce] at hv hrest
  have hlast : v.Coherent := hv ▸ (hcoherent passes).askedThroughout Term.robust_truthful
  have hsame : v.unmarked = (once^[passes] t).unmarked := by
    rw [hv, Term.unmarked_askedThroughout]
  refine ⟨?_, ?_, fun i hi => ?_⟩
  · rw [Term.identical_iff (Term.coherent_markNormal _ hlast) (hcoherent passes),
      Term.unmarked_markNormal, hsame]
  · rw [hrest, Term.identical_iff hlast (hcoherent passes), hsame]
  · have hchanged := h.changes hp (hfresh.trusty ht s.program) i hi
    rw [honce] at hchanged
    have hnext : (once (once^[i] t)).Coherent :=
      Function.iterate_succ_apply' once i t ▸ hcoherent (i + 1)
    rw [Bool.eq_false_iff, ne_eq, Term.identical_iff hnext (hcoherent i)]
    exact hchanged

/-- **The limit only decides between success and failure.** A result under one limit is the result
under every larger one, so failures go the other way. A run that succeeds applies as many
definitions as the passes need to settle, which is within its limit, and one that would need more,
or would never settle, fails with its own limit. Of a term without marks the result is the first
term, of those that single passes lead to, that a single pass leaves as it is. -/
theorem limit_decides (s : Session) (t : Term) :
    (∀ m n out, m ≤ n → (s.rewrite m t).value = .ok out → (s.rewrite n t).value = .ok out)
      ∧ (∀ m n failure, m ≤ n → (s.rewrite n t).value = .error failure →
        failure = .iterationLimit n ∧ (s.rewrite m t).value = .error (.iterationLimit m))
      ∧ (∀ limit out, (s.rewrite limit t).value = .ok out → ∃ passes needed v,
        s.program.Settles t passes needed v ∧ applications (s.rewrite limit t).events = needed
          ∧ needed ≤ limit ∧ out = v.markNormal s.generation)
      ∧ (∀ limit, (∀ passes needed v, s.program.Settles t passes needed v → limit < needed) →
        (s.rewrite limit t).value = .error (.iterationLimit limit))
      ∧ (s.Reachable → t.Coherent → t.Unstamped → ∀ limit out,
        (s.rewrite limit t).value = .ok out → ∃ passes,
          let once := fun u => (s.rewriteOnce u).value
          out.identical (once^[passes] t) = true
            ∧ (once (once^[passes] t)).identical (once^[passes] t) = true
            ∧ ∀ i < passes, (once (once^[i] t)).identical (once^[i] t) = false) := by
  have hmore : ∀ m n out, m ≤ n → (s.rewrite m t).value = .ok out →
      (s.rewrite n t).value = .ok out := by
    intro m n out hmn h
    obtain ⟨passes, needed, v, hsettles, hneeded, hout⟩ := rewrite_eq_ok_iff.mp h
    exact rewrite_eq_ok_iff.mpr ⟨passes, needed, v, hsettles, Nat.le_trans hneeded hmn, hout⟩
  refine ⟨hmore, fun m n failure hmn h => ⟨rewrite_error h, ?_⟩, fun limit out h => ?_,
    fun limit hneeds => ?_, fun hs ht hfresh limit out h => ?_⟩
  · rcases rewrite_ok_or_error s m t with ⟨out, hok⟩ | herror
    · have hagain := hmore m n out hmn hok
      rw [h] at hagain
      cases hagain
    · exact herror
  · obtain ⟨passes, needed, v, hsettles, hneeded, hout⟩ := rewrite_eq_ok_iff.mp h
    exact ⟨passes, needed, v, hsettles, applications_of_rewrite_ok hsettles hneeded, hneeded, hout⟩
  · rcases rewrite_ok_or_error s limit t with ⟨out, hok⟩ | herror
    · obtain ⟨passes, needed, v, hsettles, hneeded, _⟩ := rewrite_eq_ok_iff.mp hok
      exact absurd (hneeds passes needed v hsettles) (Nat.not_lt.mpr hneeded)
    · exact herror
  · obtain ⟨passes, needed, v, hsettles, _, rfl⟩ := rewrite_eq_ok_iff.mp h
    exact ⟨passes, first_unchanged hs ht hfresh hsettles⟩

/-- Two applications in one pass: one is not enough, nor is none, and two are as good as seven. -/
theorem limit_decides_nested :
    ∃ s out, Reachable s ∧ (s.rewrite 1 (.call "f" [.call "f" [.integer 1]])).value
        = .error (.iterationLimit 1)
      ∧ (s.rewrite 0 (.call "f" [.call "f" [.integer 1]])).value = .error (.iterationLimit 0)
      ∧ (s.rewrite 2 (.call "f" [.call "f" [.integer 1]])).value = .ok out
      ∧ (s.rewrite 7 (.call "f" [.call "f" [.integer 1]])).value = .ok out
      ∧ ∃ passes,
        let once := fun u => (s.rewriteOnce u).value
        out.identical (once^[passes] (.call "f" [.call "f" [.integer 1]])) = true := by
  have hs := @Reachable.define _ _
    ⟨.call "f" [.call "NamedBlank" [.symbol "x"]], .symbol "x", false⟩ .start
    (Term.coherent_of_unmarked_eq rfl) rfl
  have hunmarked : (Term.call "f" [.call "f" [.integer 1]]).unmarked
      = .call "f" [.call "f" [.integer 1]] := rfl
  obtain ⟨hmore, hless, -, -, hfirst⟩ := limit_decides _ (.call "f" [.call "f" [.integer 1]])
  refine ⟨_, _, hs, rfl, (hless 0 1 _ (by decide) rfl).2, rfl, hmore 2 7 _ (by decide) rfl, ?_⟩
  obtain ⟨passes, hout, -⟩ := hfirst hs (Term.coherent_of_unmarked_eq hunmarked)
    (hunmarked ▸ Term.unstamped_unmarked _) 2 _ rfl
  exact ⟨passes, hout⟩

end Session

end TermRewriting
