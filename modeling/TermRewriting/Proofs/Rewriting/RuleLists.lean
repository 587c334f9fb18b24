import Mathlib.Logic.Function.Iterate
import TermRewriting.Proofs.Canonical.Throughout
import TermRewriting.Rewriting

/-!
# Rewriting with a list of rules

A round replaces wherever a rule applies and puts the result into canonical form. Rewriting ends
with the first term in which no rule applies at any node; if that takes more rounds than the limit
allows, it fails (`value_replaceRounds`). So a result is exhausted and is the result under every
higher limit.

Two things are not looked at. Whether a round changed the term: a rule that gives back what it
matched applies in every round, and rewriting fails under every limit although the term has long
come to rest (`reducible_rounds_of_identical`). And whether the canonical form of the last round has
a canonical form of its own (`Tidy`, `HandedUpInOrder`).
-/

namespace TermRewriting

namespace Term

variable {table : SymbolTable} {rules : List Rule}

/-! ## Rounds -/

/-- What `n` rounds make of a term, before the last one puts it into canonical form. -/
def replacedRounds (table : SymbolTable) (rules : List Rule) (t : Term) (n : Nat) : Term :=
  (fun u => ((u.canonical table).replaceAll table rules).value)^[n] t

/-- What `n` rounds make of a term. -/
def rounds (table : SymbolTable) (rules : List Rule) (t : Term) (n : Nat) : Term :=
  (t.replacedRounds table rules n).canonical table

/-- One round more. -/
theorem rounds_succ (t : Term) (n : Nat) :
    t.rounds table rules (n + 1)
      = ((t.rounds table rules n).replaceAll table rules).value.canonical table := by
  rw [rounds, replacedRounds, Function.iterate_succ_apply']
  rfl

/-- One round first. -/
theorem rounds_succ_apply (t : Term) (n : Nat) :
    t.rounds table rules (n + 1)
      = ((t.canonical table).replaceAll table rules).value.rounds table rules n := by
  rw [rounds, replacedRounds, Function.iterate_succ_apply]
  rfl

/-- A rule applies after every round before the given one, and none after that. -/
structure StopsAt (table : SymbolTable) (rules : List Rule) (t : Term) (n : Nat) : Prop where
  before : ∀ m < n, (t.rounds table rules m).Reducible table rules
  stops : ¬(t.rounds table rules n).Reducible table rules

theorem StopsAt.unique {t : Term} {n n' : Nat} (h : t.StopsAt table rules n)
    (h' : t.StopsAt table rules n') : n = n' := by
  rcases Nat.lt_trichotomy n n' with hlt | heq | hlt
  · exact absurd (h'.before n hlt) h.stops
  · exact heq
  · exact absurd (h.before n' hlt) h'.stops

theorem stopsAt_zero {t : Term} (h : ((t.canonical table).replaced? table rules).value = none) :
    t.StopsAt table rules 0 :=
  ⟨fun m hm => absurd hm m.not_lt_zero, replaced?_eq_none_iff.mp h⟩

theorem stopsAt_succ {t : Term} {n : Nat} (ht : (t.rounds table rules 0).Reducible table rules)
    (h : ((t.canonical table).replaceAll table rules).value.StopsAt table rules n) :
    t.StopsAt table rules (n + 1) := by
  refine ⟨fun m hm => ?_, ?_⟩
  · cases m with
    | zero => exact ht
    | succ m =>
      rw [rounds_succ_apply]
      exact h.before m (Nat.lt_of_succ_lt_succ hm)
  · rw [rounds_succ_apply]
    exact h.stops

end Term

open Term

variable {table : SymbolTable} {rules : List Rule}

/-- **Rounds go on to the first term in which no rule applies**, if they are allowed to. -/
theorem value_replaceRounds (limit count : Nat) (t : Term) :
    (∃ n ≤ count, t.StopsAt table rules n
        ∧ (replaceRounds table rules limit count (t.canonical table)).value
          = .ok (t.rounds table rules n))
      ∨ (∀ n ≤ count, (t.rounds table rules n).Reducible table rules)
        ∧ (replaceRounds table rules limit count (t.canonical table)).value
          = .error (.iterationLimit limit) := by
  induction count generalizing t with
  | zero =>
    rw [replaceRounds, Traced.value_bind]
    cases hnew : ((t.canonical table).replaced? table rules).value with
    | none => exact .inl ⟨0, Nat.le_refl 0, stopsAt_zero hnew, rfl⟩
    | some new =>
      refine .inr ⟨fun n hn => ?_, rfl⟩
      rw [Nat.le_zero.mp hn]
      exact reducible_of_replaced? hnew
  | succ count ih =>
    rw [replaceRounds, Traced.value_bind]
    cases hnew : ((t.canonical table).replaced? table rules).value with
    | none => exact .inl ⟨0, Nat.zero_le _, stopsAt_zero hnew, rfl⟩
    | some new =>
      have hreducible : (t.rounds table rules 0).Reducible table rules :=
        reducible_of_replaced? hnew
      have hround : ((t.canonical table).replaceAll table rules).value = new := by
        show keepOr _ ((t.canonical table).replaced? table rules).value = new
        rw [hnew]
        rfl
      have hnext := @rounds_succ_apply table rules t
      rw [hround] at hnext
      rcases ih new with ⟨n, hn, hstop, hvalue⟩ | ⟨hall, hvalue⟩
      · rw [← hround] at hstop
        refine .inl ⟨n + 1, Nat.succ_le_succ hn, stopsAt_succ hreducible hstop, ?_⟩
        rw [hnext]
        exact hvalue
      · refine .inr ⟨fun n hn => ?_, hvalue⟩
        cases n with
        | zero => exact hreducible
        | succ n =>
          rw [hnext]
          exact hall n (Nat.le_of_succ_le_succ hn)

namespace Session

variable {s : Session} {t : Term}

theorem rewriteRules_eq_ok_iff {limit : Nat} {out : Term} :
    (s.rewriteRules rules limit t).value = .ok out
      ↔ ∃ n ≤ limit, t.StopsAt s.table rules n ∧ out = t.rounds s.table rules n := by
  unfold rewriteRules
  rcases @value_replaceRounds s.table rules limit limit t with
    ⟨n, hn, hstop, hvalue⟩ | ⟨hall, hvalue⟩
  · rw [hvalue]
    constructor
    · rintro ⟨⟩
      exact ⟨n, hn, hstop, rfl⟩
    · rintro ⟨n', _, hstop', rfl⟩
      rw [hstop.unique hstop']
  · rw [hvalue]
    constructor
    · rintro ⟨⟩
    · rintro ⟨n, hn, hstop, _⟩
      exact absurd (hall n hn) hstop.stops

theorem rewriteRules_eq_error_iff {limit : Nat} {e : Failure} :
    (s.rewriteRules rules limit t).value = .error e
      ↔ e = .iterationLimit limit
        ∧ ∀ n ≤ limit, (t.rounds s.table rules n).Reducible s.table rules := by
  unfold rewriteRules
  rcases @value_replaceRounds s.table rules limit limit t with
    ⟨n, hn, hstop, hvalue⟩ | ⟨hall, hvalue⟩
  · rw [hvalue]
    constructor
    · rintro ⟨⟩
    · rintro ⟨_, hall⟩
      exact absurd (hall n hn) hstop.stops
  · rw [hvalue]
    constructor
    · rintro ⟨⟩
      exact ⟨rfl, hall⟩
    · rintro ⟨rfl, _⟩
      rfl

/-! ## Exhausted results -/

/-- **A result is exhausted, and every higher limit gives it too.** At no node of it does a rule
match, and at no orderless one does a rule for fewer arguments fit some of them. -/
theorem rewriteRules_exhaustive {limit : Nat} {out : Term}
    (h : (s.rewriteRules rules limit t).value = .ok out) :
    (∀ path u, out.at? path = some u →
      (∀ rule ∈ rules, rule.lhs.matches? s.table u = none)
        ∧ ∀ name args marks, u = .app (.symbol name) args marks → s.table.isOrderless name = true →
            ∀ rule ∈ rules, ¬rule.FitsSome s.table name args)
      ∧ ∀ limit', limit ≤ limit' → (s.rewriteRules rules limit' t).value = .ok out := by
  obtain ⟨n, hn, hstop, rfl⟩ := rewriteRules_eq_ok_iff.mp h
  constructor
  · intro path u hu
    have hnone := not_reducible_iff.mp hstop.stops path u hu
    refine ⟨fun rule hrule => (Rule.not_applies_iff.mp (hnone rule hrule)).1, ?_⟩
    exact fun name args marks hsymbol horderless rule hrule =>
      (Rule.not_applies_iff.mp (hnone rule hrule)).2 name args marks hsymbol horderless
  · intro limit' hle
    exact rewriteRules_eq_ok_iff.mpr ⟨n, hn.trans hle, hstop, rfl⟩

/-- A rule for two of the arguments of an orderless symbol leaves one of them and its own result; no
rule fits any of these. -/
theorem rewriteRules_exhaustive_some :
    ∃ (s : Session) (rule : Rule) (out : Term),
      (s.rewriteRules [rule] 1
          (.call "f" [.integer 1, .integer 2, .integer 4])).value = .ok out
        ∧ out.unmarked = .call "f" [.integer 2, .integer 5]
        ∧ (∀ path u, out.at? path = some u → rule.lhs.matches? s.table u = none)
        ∧ ¬rule.FitsSome s.table "f" [.integer 2, .integer 5]
        ∧ ∀ limit, 1 ≤ limit → (s.rewriteRules [rule] limit
            (.call "f" [.integer 1, .integer 2, .integer 4])).value = .ok out := by
  have h := @rewriteRules_exhaustive
    [⟨.call "f" [.integer 4, .integer 1], .integer 5, false⟩]
    (({} : Session).setAttributes "f" .orderless)
    (.call "f" [.integer 1, .integer 2, .integer 4]) 1 _ rfl
  refine ⟨_, _, _, rfl, rfl, fun path u hu => (h.1 path u hu).1 _ List.mem_cons_self, ?_, h.2⟩
  exact (h.1 [] _ rfl).2 "f" _ _ rfl rfl _ List.mem_cons_self

end Session

/-! ## Rounds that change nothing -/

namespace Term

section

variable (table) {Q : Term → Prop} (hQ : Robust Q) (hrules : ∀ rule ∈ rules, rule.lhs.Coherent)

include hQ hrules

theorem Alike.nextRound {s t : Term} (h : Alike Q s t) :
    Alike Q ((s.replaceAll table rules).value.canonical table)
      ((t.replaceAll table rules).value.canonical table) :=
  (h.replaceAll table hQ hrules).canonical hQ table

theorem every_rounds {t : Term} (ht : t.Every Q) (n : Nat) : (t.rounds table rules n).Every Q := by
  induction n with
  | zero => exact ((alike_refl ht).canonical hQ table).left
  | succ n ih =>
    rw [rounds_succ]
    exact ((alike_refl ih).nextRound table hQ hrules).left

/-- A round that gives back what it started from is followed by rounds that do the same. -/
theorem alike_rounds_of_le {t : Term} {n m : Nat} (hle : n ≤ m)
    (h : Alike Q (t.rounds table rules n) (t.rounds table rules (n + 1))) :
    Alike Q (t.rounds table rules n) (t.rounds table rules m) := by
  induction m, hle using Nat.le_induction with
  | base => exact alike_refl h.left
  | succ m _ ih =>
    rw [rounds_succ] at h ⊢
    exact h.trans (ih.nextRound table hQ hrules)

end

/-- **Where a rule applies and the round leaves the term as it was, rules apply for ever.** -/
theorem reducible_rounds_of_identical (hrules : ∀ rule ∈ rules, rule.lhs.Coherent) {t : Term}
    (ht : t.Coherent) {n m : Nat} (hle : n ≤ m)
    (hreducible : (t.rounds table rules n).Reducible table rules)
    (hsame : (t.rounds table rules (n + 1)).identical (t.rounds table rules n) = true) :
    (t.rounds table rules m).Reducible table rules
      ∧ (t.rounds table rules (m + 1)).identical (t.rounds table rules m) = true := by
  have hcoherent : ∀ k, (t.rounds table rules k).Coherent :=
    every_rounds table robust_truthful hrules ht
  have hstep : Alike Truthful (t.rounds table rules n) (t.rounds table rules (n + 1)) :=
    ⟨(unmarked_eq_of_identical hsame).symm, hcoherent n, hcoherent (n + 1)⟩
  have hkept := fun k (hk : n ≤ k) => alike_rounds_of_le table robust_truthful hrules hk hstep
  refine ⟨((hkept m hle).reducible_iff table robust_truthful hrules).mp hreducible, ?_⟩
  refine (identical_iff (hcoherent (m + 1)) (hcoherent m)).mpr ?_
  exact (hkept (m + 1) (Nat.le_succ_of_le hle)).same.symm.trans (hkept m hle).same

end Term

namespace Session

variable {s : Session} {t : Term}

/-- **Rewriting stops where no rule applies**, not where nothing changes. It gives the first term of
the rounds in which no rule applies, and fails exactly if there is none within the limit. A round
that applies a rule and leaves the term as it was makes it fail under every limit. So that a failure
means that one more round would still change the term is true under a limit exactly if no such round
comes before one in which no rule applies. -/
theorem rewriteRules_stops (hrules : ∀ rule ∈ rules, rule.lhs.Coherent) (ht : t.Coherent)
    (limit : Nat) :
    (∀ out, (s.rewriteRules rules limit t).value = .ok out
        ↔ ∃ n ≤ limit, (∀ m < n, (t.rounds s.table rules m).Reducible s.table rules)
          ∧ ¬(t.rounds s.table rules n).Reducible s.table rules
          ∧ out = t.rounds s.table rules n)
      ∧ (∀ e, (s.rewriteRules rules limit t).value = .error e
        ↔ e = .iterationLimit limit
          ∧ ∀ n ≤ limit, (t.rounds s.table rules n).Reducible s.table rules)
      ∧ (∀ n, (∀ m ≤ n, (t.rounds s.table rules m).Reducible s.table rules) →
          (t.rounds s.table rules (n + 1)).identical (t.rounds s.table rules n) = true →
          ∀ limit', (s.rewriteRules rules limit' t).value = .error (.iterationLimit limit'))
      ∧ (((s.rewriteRules rules limit t).value = .error (.iterationLimit limit) →
            (t.rounds s.table rules (limit + 1)).identical (t.rounds s.table rules limit) = false)
        ↔ ∀ n ≤ limit, (∀ m ≤ n, (t.rounds s.table rules m).Reducible s.table rules) →
            (t.rounds s.table rules (n + 1)).identical (t.rounds s.table rules n) = false) := by
  have hidle : ∀ n, (∀ m ≤ n, (t.rounds s.table rules m).Reducible s.table rules) →
      (t.rounds s.table rules (n + 1)).identical (t.rounds s.table rules n) = true →
      ∀ limit', (s.rewriteRules rules limit' t).value = .error (.iterationLimit limit') := by
    intro n hbefore hsame limit'
    refine rewriteRules_eq_error_iff.mpr ⟨rfl, fun k _ => ?_⟩
    rcases Nat.le_total k n with hk | hk
    · exact hbefore k hk
    · exact (reducible_rounds_of_identical hrules ht hk (hbefore n (Nat.le_refl n)) hsame).1
  refine ⟨fun out => ?_, fun e => rewriteRules_eq_error_iff, hidle, ?_, ?_⟩
  · rw [rewriteRules_eq_ok_iff]
    refine exists_congr fun n => and_congr Iff.rfl ?_
    exact ⟨fun ⟨hstop, hout⟩ => ⟨hstop.before, hstop.stops, hout⟩,
      fun ⟨hbefore, hstops, hout⟩ => ⟨⟨hbefore, hstops⟩, hout⟩⟩
  · intro h n hn hbefore
    by_contra hsame
    rw [Bool.not_eq_false] at hsame
    -- a round that changes nothing is still there when the limit is reached
    have hchanged := h (hidle n hbefore hsame limit)
    have hlast := reducible_rounds_of_identical hrules ht hn (hbefore n (Nat.le_refl n)) hsame
    rw [hlast.2] at hchanged
    cases hchanged
  · intro h herror
    exact h limit (Nat.le_refl limit) (rewriteRules_eq_error_iff.mp herror).2

/-- A rule that gives back what it matched applies after every round, under every limit. -/
theorem rewriteRules_stops_same :
    ∃ rule : Rule, rule.lhs.Coherent ∧ (Term.symbol "a").Coherent
      ∧ (∀ n ≤ 3, ((Term.symbol "a").rounds .empty [rule] n).Reducible .empty [rule])
      ∧ ∀ limit, (({} : Session).rewriteRules [rule] limit (.symbol "a")).value
          = .error (.iterationLimit limit) := by
  have hrules : ∀ rule ∈ [(⟨.symbol "a", .symbol "a", false⟩ : Rule)], rule.lhs.Coherent :=
    List.forall_mem_singleton.mpr (.atom _)
  obtain ⟨_, herror, hidle, _⟩ := @rewriteRules_stops _ {} (.symbol "a") hrules (.atom _) 3
  have hreducible := ((herror _).mp rfl).2
  refine ⟨⟨.symbol "a", .symbol "a", false⟩, .atom _, .atom _, hreducible, ?_⟩
  exact hidle 0 (fun m hm => hreducible m (hm.trans (by decide))) rfl

/-- The limit is reached although one more round would leave the term as it is. -/
theorem rewriteRules_fails_at_rest :
    let rules : List Rule := [⟨.symbol "a", .symbol "a", false⟩]
    (({} : Session).rewriteRules rules 3 (.symbol "a")).value = .error (.iterationLimit 3)
      ∧ ((Term.symbol "a").rounds ({} : Session).table rules 4).identical
          ((Term.symbol "a").rounds ({} : Session).table rules 3) = true :=
  ⟨rfl, rfl⟩

/-! ## Canonical results -/

/-- **The result is the canonical form of what the last round left**, put together in one go from
the bottom up. So every node of it is canonical that is not part of a conditional expression, and
all nodes are if what was handed upwards in that go is; unless `ConditionalExpression` is orderless,
only then. -/
theorem rewriteRules_canonical {limit : Nat} {out : Term}
    (h : (s.rewriteRules rules limit t).value = .ok out) :
    ∃ n ≤ limit, out = (t.replacedRounds s.table rules n).canonical s.table
      ∧ (∀ path u, out.at? path = some u →
          (∀ above v, above <+: path → out.at? above = some v →
            v.isCall "ConditionalExpression" = false) → u.IsCanonical s.table)
      ∧ (HandedUpInOrder s.table (t.replacedRounds s.table rules n) →
          ∀ path u, out.at? path = some u → u.IsCanonical s.table)
      ∧ (s.table.isOrderless "ConditionalExpression" = false →
          (∀ path u, out.at? path = some u → u.IsCanonical s.table) →
          HandedUpInOrder s.table (t.replacedRounds s.table rules n)) := by
  obtain ⟨n, hn, _, rfl⟩ := rewriteRules_eq_ok_iff.mp h
  refine ⟨n, hn, rfl, ?_, ?_, ?_⟩
  · exact fun path u hu habove => (tidy_canonical _).isCanonical hu habove
  · exact fun hup => every_isCanonical_iff.mp (every_canonical hup)
  · exact fun hordered hall => handedUpInOrder_of_every hordered (every_isCanonical_iff.mpr hall)

/-- A condition that a rule brings in is handed up to the root, past a flat node that is flattened
beside it; all nodes are canonical, and so was what was handed up. -/
theorem rewriteRules_canonical_beside :
    ∃ (s : Session) (rule : Rule) (t out : Term),
      (s.rewriteRules [rule] 1 t).value = .ok out
        ∧ out = .call "ConditionalExpression"
            [.call "f" [.integer 1, .call "g" [.integer 2, .integer 3]], .call "And" [.symbol "c"]]
        ∧ ∃ n ≤ 1, HandedUpInOrder s.table (t.replacedRounds s.table [rule] n) := by
  obtain ⟨n, hn, _, _, _, hback⟩ := @rewriteRules_canonical
    [⟨.symbol "a", .call "ConditionalExpression" [.integer 1, .symbol "c"], false⟩]
    (({} : Session).setAttributes "g" .flat)
    (.call "f" [.symbol "a", .call "g" [.integer 2, .call "g" [.integer 3]]]) 1 _ rfl
  refine ⟨_, _, _, _, rfl, rfl, n, hn, hback rfl (every_isCanonical_iff.mp ?_)⟩
  refine .app (canonicalTop_eq_false_iff.mp rfl) (.atom _) (forall_mem_pair.mpr ⟨?_, ?_⟩)
  · refine .app (canonicalTop_eq_false_iff.mp rfl) (.atom _) (forall_mem_pair.mpr ⟨.atom _, ?_⟩)
    exact .app (canonicalTop_eq_false_iff.mp rfl) (.atom _)
      (forall_mem_pair.mpr ⟨.atom _, .atom _⟩)
  · exact .app (canonicalTop_eq_false_iff.mp rfl) (.atom _)
      (List.forall_mem_singleton.mpr (.atom _))

/-- The value that comes out of its conditional expression has the flat head of the node that it is
put into, and nothing flattens that node any more. -/
theorem rewriteRules_not_canonical :
    ∃ out, ((({} : Session).setAttributes "Plus" (.union .flat .orderless)).rewriteRules [] 4
          (.call "Plus" [.symbol "d", .call "ConditionalExpression"
            [.call "Plus" [.symbol "a", .symbol "b"], .symbol "c"]])).value = .ok out
      ∧ out = .call "ConditionalExpression"
          [.call "Plus" [.symbol "d", .call "Plus" [.symbol "a", .symbol "b"]],
            .call "And" [.symbol "c"]]
      ∧ ¬∀ path u, out.at? path = some u →
          u.IsCanonical (({} : Session).setAttributes "Plus" (.union .flat .orderless)).table := by
  refine ⟨_, rfl, rfl, fun h => ?_⟩
  have hflat := (h [.toArg 0] _ rfl).flat "Plus" rfl rfl
    (.call "Plus" [.symbol "a", .symbol "b"]) (List.mem_cons_of_mem _ List.mem_cons_self)
  cases hflat

end Session

end TermRewriting
