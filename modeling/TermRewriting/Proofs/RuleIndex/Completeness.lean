import TermRewriting.Proofs.Pattern.Shape
import TermRewriting.Proofs.Term.Coherence

/-!
# When the index finds every rule that matches

A bucket is right about a left-hand side when it covers every term that the left-hand side matches.
The buckets of atoms, of literal patterns and of compound patterns are, because a match fixes the
fingerprint, or the head, or the head and the number of arguments (`Proofs/Pattern/Shape.lean`).

One kind of left-hand side is filed wrongly: a pattern head that is flat, or has a run among its
arguments, goes into the bucket of its own name, as if it were a compound pattern, although it
stands for other terms. `Term.isMisfiled` recognises these. A rule that matches is a candidate
exactly if its left-hand side is not one of them, or the term happens to be an application of that
pattern head: `Bucket.covers_iff` says this of one left-hand side, `mem_candidates_iff` of a list of
rules. Candidates are tried in the order of the rules, so the first match among them is the first
match of all exactly if that one is not missed.
-/

namespace TermRewriting

/-! ## Misfiled left-hand sides -/

namespace Term

/-- A core with a pattern head that is filed under the name of this head, because it is flat or has
an argument that stands for a varying number of arguments. -/
def isMisfiled (table : SymbolTable) : Term → Bool
  | .atom _ => false
  | .app head args _ =>
    head.symbolName?.any fun name =>
      isPatternHead name && (table.isFlat name || args.any isVariadic)

/-- Whether the index passes over a left-hand side for a term, whether or not it matches. -/
def isMissed (table : SymbolTable) (lhs t : Term) : Bool :=
  lhs.core.isMisfiled table && (t.isAtom || t.headName? != lhs.core.headName?)

theorem coherent_core {lhs : Term} (h : lhs.Coherent) : lhs.core.Coherent := by
  fun_induction core lhs with
  | case1 p marks ih => exact ih ((every_app.mp h).2.2 p List.mem_cons_self)
  | case2 p proviso marks ih => exact ih ((every_app.mp h).2.2 p List.mem_cons_self)
  | case3 => exact h

end Term

namespace Bucket

variable {table : SymbolTable} {core t : Term}

/-- The bucket of a misfiled core is the one of its head. -/
theorem ofCore_of_isMisfiled (h : core.isMisfiled table = true) :
    ∃ name, core.headName? = some name ∧ ofCore table core = .head name := by
  cases core with
  | atom a => cases h
  | app head args marks =>
    obtain ⟨name, hname, h⟩ := (Option.any_eq_true _ _).mp h
    rw [Bool.and_eq_true] at h
    refine ⟨name, hname, ?_⟩
    have hfree : (Term.app head args marks).isLiteral table = false := by
      rw [Term.isLiteral, Term.isPatternFree, hname, Option.any_some, h.1]
      rfl
    simp only [ofCore, hname, hfree, h.2]
    rfl

/-- A compound core is covered where it matches. -/
theorem covers_of_compound {name : String} {args : List Term} {marks : Marks}
    (hname : isPatternHead name = false) {c : MatchContext} {b b' : Bindings}
    (h : ((Term.app (.symbol name) args marks).searchMatch c t b).result = some b') :
    covers t (.head name) = true
      ∧ (c.table.isFlat name = false → args.any Term.isVariadic = false →
          covers t (.arity name args.length) = true) := by
  obtain ⟨items, n, rfl, hcount⟩ := Term.eq_app_of_searchMatch hname h
  refine ⟨?_, fun hflat hvariadic => ?_⟩
  · simp [covers, Term.isAtom, Term.headName?, Term.symbolName?]
  · simp [covers, Term.isAtom, Term.headName?, Term.symbolName?, Term.args,
      hcount hvariadic hflat]

/-- **The bucket of a core that is not misfiled covers every term that the core matches.** -/
theorem covers_of_matches {c : MatchContext} (hcore : core.Coherent) (ht : t.Coherent)
    (hfiled : core.isMisfiled c.table = false) {b b' : Bindings}
    (h : (core.searchMatch c t b).result = some b') : (ofCore c.table core).covers t = true := by
  -- a literal core is matched by its own structure, which fixes the fingerprint
  have literal : core.isLiteral c.table = true → covers t (.literal core.fingerprint) = true := by
    intro hliteral
    rw [Term.isLiteral, Bool.and_eq_true] at hliteral
    obtain ⟨same, _⟩ := Term.unmarked_eq_of_literal hliteral.1 hliteral.2 h
    rw [covers, Term.fingerprint_unmarked ht, same, ← Term.fingerprint_unmarked hcore]
    exact beq_self_eq_true _
  cases core with
  | atom a => exact literal rfl
  | app head args marks =>
    cases hsymbol : head.symbolName? with
    | none =>
      simp only [ofCore, hsymbol]
      rfl
    | some name =>
      simp only [ofCore, hsymbol]
      rw [Term.isMisfiled, hsymbol, Option.any_some] at hfiled
      obtain rfl := Term.symbolName?_eq_some.mp hsymbol
      split
      · next hliteral => exact literal hliteral
      · split
        · next hvaries =>
          rw [hvaries, Bool.and_true] at hfiled
          exact (covers_of_compound hfiled h).1
        · next hvaries =>
          split
          · rfl
          · next hname =>
            rw [Bool.not_eq_true, Bool.or_eq_false_iff] at hvaries
            exact (covers_of_compound (by simpa using hname) h).2 hvaries.1 hvaries.2

/-- **A left-hand side that matches is covered exactly if it is not missed.** -/
theorem covers_iff {lhs : Term} (hlhs : lhs.Coherent) (ht : t.Coherent)
    (h : (lhs.matches? table t).isSome = true) :
    (ofLhs table lhs).covers t = true ↔ lhs.isMissed table t = false := by
  obtain ⟨b', h⟩ := Option.isSome_iff_exists.mp h
  have h : (lhs.searchMatch ⟨table, {}⟩ t []).result = some b' := h
  obtain ⟨b₁, hcore⟩ := Term.searchMatch_core lhs h
  unfold Term.isMissed
  cases hfiled : lhs.core.isMisfiled table with
  | false =>
    have hcovers : (ofLhs table lhs).covers t = true :=
      @covers_of_matches _ _ ⟨table, {}⟩ (Term.coherent_core hlhs) ht hfiled _ _ hcore
    simp [hcovers]
  | true =>
    obtain ⟨name, hname, hbucket⟩ := ofCore_of_isMisfiled hfiled
    rw [ofLhs, hbucket, covers, hname]
    cases t.isAtom <;> simp

end Bucket

/-! ## Candidates -/

namespace RuleIndex

variable {table : SymbolTable} {rules : List Rule} {t : Term}

/-- A number is a candidate if the bucket of its rule covers the term. -/
theorem mem_candidates_ofRules {k : Nat} :
    k ∈ (ofRules table rules).candidates t
      ↔ ∃ rule, rules[k]? = some rule ∧ (Bucket.ofLhs table rule.lhs).covers t = true := by
  rw [mem_candidates]
  constructor
  · rintro ⟨b, hmem, hcovers⟩
    obtain ⟨⟨rule, i⟩, hrule, heq⟩ := List.mem_map.mp hmem
    cases heq
    exact ⟨rule, List.mem_zipIdx_iff_getElem?.mp hrule, hcovers⟩
  · rintro ⟨rule, hrule, hcovers⟩
    refine ⟨_, List.mem_map.mpr ⟨(rule, k), ?_, rfl⟩, hcovers⟩
    exact List.mem_zipIdx_iff_getElem?.mpr hrule

/-- **A rule that matches is a candidate exactly if it is not missed.** -/
theorem mem_candidates_iff {k : Nat} {rule : Rule} (hrule : rules[k]? = some rule)
    (hlhs : rule.lhs.Coherent) (ht : t.Coherent)
    (h : (rule.lhs.matches? table t).isSome = true) :
    k ∈ (ofRules table rules).candidates t ↔ rule.lhs.isMissed table t = false := by
  rw [mem_candidates_ofRules, ← Bucket.covers_iff hlhs ht h]
  constructor
  · rintro ⟨rule', hrule', hcovers⟩
    rw [hrule] at hrule'
    cases hrule'
    exact hcovers
  · intro hcovers
    exact ⟨rule, hrule, hcovers⟩

theorem pairwise_insertAscending {id : Nat} {l : List Nat} (h : l.Pairwise (· < ·)) :
    (insertAscending id l).Pairwise (· < ·) := by
  induction l with
  | nil => exact List.pairwise_singleton _ id
  | cons other rest ih =>
    obtain ⟨hother, hrest⟩ := List.pairwise_cons.mp h
    unfold insertAscending
    split
    · next hlt =>
      refine List.pairwise_cons.mpr ⟨fun k hk => ?_, h⟩
      rcases List.mem_cons.mp hk with rfl | hk
      · exact hlt
      · have := hother k hk
        omega
    · split
      · exact h
      · refine List.pairwise_cons.mpr ⟨fun k hk => ?_, ih hrest⟩
        rcases mem_insertAscending.mp hk with rfl | hk
        · omega
        · exact hother k hk

/-- Candidates are tried in the order of the rules. -/
theorem pairwise_candidates (index : RuleIndex) : (index.candidates t).Pairwise (· < ·) := by
  unfold candidates
  induction (index.entries.filter fun e => e.1.covers t).map Prod.snd with
  | nil => exact List.Pairwise.nil
  | cons id ids ih => exact pairwise_insertAscending ih

/-! ## First matches -/

/-- The number of the first rule that matches, among given numbers in their order. -/
def firstMatch (table : SymbolTable) (rules : List Rule) (t : Term) (numbers : List Nat) :
    Option Nat :=
  numbers.find? fun k => rules[k]?.any fun rule => (rule.lhs.matches? table t).isSome

/-- What is found in an ascending list is the least that can be found. -/
theorem find?_eq_some_of_ascending {p : Nat → Bool} {l : List Nat} (hl : l.Pairwise (· < ·))
    {k : Nat} :
    l.find? p = some k ↔ k ∈ l ∧ p k = true ∧ ∀ j ∈ l, j < k → p j = false := by
  induction l with
  | nil => simp
  | cons i is ih =>
    obtain ⟨hi, his⟩ := List.pairwise_cons.mp hl
    rw [List.find?_cons]
    cases hp : p i with
    | true =>
      constructor
      · intro h
        cases h
        refine ⟨List.mem_cons_self, hp, fun j hj hlt => ?_⟩
        rcases List.mem_cons.mp hj with rfl | hj
        · omega
        · have := hi j hj
          omega
      · rintro ⟨hk, _, hleast⟩
        rcases List.mem_cons.mp hk with rfl | hk
        · rfl
        · have := hleast i List.mem_cons_self (hi k hk)
          rw [hp] at this
          cases this
    | false =>
      show is.find? p = some k ↔ _
      rw [ih his]
      constructor
      · rintro ⟨hk, hpk, hleast⟩
        refine ⟨List.mem_cons_of_mem _ hk, hpk, fun j hj hlt => ?_⟩
        rcases List.mem_cons.mp hj with rfl | hj
        · exact hp
        · exact hleast j hj hlt
      · rintro ⟨hk, hpk, hleast⟩
        rcases List.mem_cons.mp hk with rfl | hk
        · rw [hp] at hpk
          cases hpk
        · exact ⟨hk, hpk, fun j hj => hleast j (List.mem_cons_of_mem _ hj)⟩

/-- What the first match is, whatever ascending numbers are tried. -/
theorem firstMatch_eq_some {numbers : List Nat} (hnumbers : numbers.Pairwise (· < ·)) {k : Nat} :
    firstMatch table rules t numbers = some k
      ↔ k ∈ numbers ∧ (∃ rule, rules[k]? = some rule ∧ (rule.lhs.matches? table t).isSome = true)
        ∧ ∀ j ∈ numbers, j < k → ∀ rule, rules[j]? = some rule →
            (rule.lhs.matches? table t).isSome = false := by
  rw [firstMatch, find?_eq_some_of_ascending hnumbers, Option.any_eq_true]
  simp only [Option.any_eq_false]

/-- A number that is matched first among all and is a candidate is matched first among these. -/
theorem firstMatch_of_mem {k : Nat}
    (hall : firstMatch table rules t (List.range rules.length) = some k)
    (hk : k ∈ (ofRules table rules).candidates t) :
    firstMatch table rules t ((ofRules table rules).candidates t) = some k := by
  obtain ⟨_, hmatch, hleast⟩ := (firstMatch_eq_some List.pairwise_lt_range).mp hall
  refine (firstMatch_eq_some (pairwise_candidates _)).mpr ⟨hk, hmatch, fun j _ hlt rule hrule => ?_⟩
  obtain ⟨hj, _⟩ := List.getElem?_eq_some_iff.mp hrule
  exact hleast j (List.mem_range.mpr hj) hlt rule hrule

/-- **The index finds a rule that matches exactly if the rule is not missed, which rules are whose
left-hand side is, behind its conditions, a flat pattern head or one with a run among its arguments.
Trying the candidates finds the first rule of all that matches exactly if that rule is not missed.**
-/
theorem candidates_complete_iff (hrules : ∀ rule ∈ rules, rule.lhs.Coherent) (ht : t.Coherent) :
    (∀ k rule, rules[k]? = some rule → (rule.lhs.matches? table t).isSome = true →
      (k ∈ (ofRules table rules).candidates t ↔ rule.lhs.isMissed table t = false))
      ∧ (firstMatch table rules t ((ofRules table rules).candidates t)
            = firstMatch table rules t (List.range rules.length)
          ↔ ∀ k rule, firstMatch table rules t (List.range rules.length) = some k →
              rules[k]? = some rule → rule.lhs.isMissed table t = false) := by
  have key : ∀ k rule, rules[k]? = some rule → (rule.lhs.matches? table t).isSome = true →
      (k ∈ (ofRules table rules).candidates t ↔ rule.lhs.isMissed table t = false) :=
    fun k rule hrule => mem_candidates_iff hrule (hrules rule (List.mem_of_getElem? hrule)) ht
  refine ⟨key, ?_⟩
  constructor
  · intro heq k rule hall hrule
    obtain ⟨_, ⟨rule', hrule', hmatch⟩, _⟩ :=
      (firstMatch_eq_some List.pairwise_lt_range).mp hall
    rw [hrule] at hrule'
    cases hrule'
    rw [hall] at heq
    exact (key k rule hrule hmatch).mp ((firstMatch_eq_some (pairwise_candidates _)).mp heq).1
  · intro hfound
    cases hall : firstMatch table rules t (List.range rules.length) with
    | some k =>
      obtain ⟨_, ⟨rule, hrule, hmatch⟩, _⟩ :=
        (firstMatch_eq_some List.pairwise_lt_range).mp hall
      exact firstMatch_of_mem hall ((key k rule hrule hmatch).mpr (hfound k rule hall hrule))
    | none =>
      -- what no rule matches, no candidate matches
      refine List.find?_eq_none.mpr fun k hk => ?_
      obtain ⟨rule, hrule, _⟩ := mem_candidates_ofRules.mp hk
      obtain ⟨hlt, _⟩ := List.getElem?_eq_some_iff.mp hrule
      exact List.find?_eq_none.mp hall k (List.mem_range.mpr hlt)

/-- A condition on an application of a symbol does not hide it from the index. -/
theorem candidates_complete_iff_guarded :
    let rule : Rule := ⟨.call "Condition" [.call "f" [.call "NamedBlank" [.symbol "x"]],
      .call "IntegerQ" [.symbol "x"]], .symbol "x", false⟩
    (∀ r ∈ [rule], r.lhs.Coherent) ∧ (Term.call "f" [.integer 7]).Coherent
      ∧ (rule.lhs.matches? .empty (.call "f" [.integer 7])).isSome = true
      ∧ 0 ∈ (ofRules .empty [rule]).candidates (.call "f" [.integer 7]) := by
  intro rule
  have hrules : ∀ r ∈ [rule], r.lhs.Coherent := by
    intro r hr
    rw [List.mem_singleton.mp hr]
    exact Term.coherent_of_unmarked_eq rfl
  have ht : (Term.call "f" [.integer 7]).Coherent := Term.coherent_of_unmarked_eq rfl
  have hmatch : (rule.lhs.matches? .empty (.call "f" [.integer 7])).isSome = true := by decide
  exact ⟨hrules, ht, hmatch, ((candidates_complete_iff hrules ht).1 0 rule rfl hmatch).mpr rfl⟩

/-- The index misses a named run that stands for one term: the pattern matches every term, but is
looked for only among the applications of its own head. -/
theorem candidates_incomplete_named_run :
    let rule : Rule := ⟨.call "Pattern" [.symbol "x", .call "BlankSequence" []], .symbol "x", false⟩
    rule.lhs.Coherent ∧ (Term.integer 7).Coherent
      ∧ (rule.lhs.matches? .empty (.integer 7)).isSome = true
      ∧ 0 ∉ (ofRules .empty [rule]).candidates (.integer 7)
      ∧ firstMatch .empty [rule] (.integer 7) (List.range 1) = some 0
      ∧ firstMatch .empty [rule] (.integer 7)
          ((ofRules .empty [rule]).candidates (.integer 7)) = none := by
  refine ⟨Term.coherent_of_unmarked_eq rfl, .atom _, by decide, by decide, by decide, by decide⟩

end RuleIndex

end TermRewriting
