import TermRewriting.Proofs.Rewriting.Settling
import TermRewriting.Proofs.Session

/-!
# Results are normal forms

The program of a session tries the candidates of its indices. A rule that is kept at the symbol, the
head or the head of the head of a node is never missed by its index, so at a node that rests no such
rule matches at all (`noRule_of_idle`). Together with the fact that runs end at rest this says that
a result is in normal form at each of its nodes, and that rewriting it again, without its marks,
gives it back.

All terms here are coherent, as are those that operations on terms lead to
(`Proofs/Term/Operations.lean`), and all sessions are reachable ones.
-/

namespace TermRewriting

open Rewriter

namespace Session

variable {s : Session}

/-! ## The program of a session -/

theorem program_sound (hs : s.WellFiled) : s.program.Sound := by
  intro e he rule hrule
  obtain ⟨e', he', rfl⟩ := List.mem_map.mp (List.mem_filter.mp he).1
  exact (hs e' he' rule hrule).1

theorem lookup_indexed {table : SymbolTable} {key : DefinitionKey} {rules : RuleSet}
    (hrules : rules ≠ []) {entries : List (DefinitionKey × RuleSet)}
    (h : entries.lookup key = some rules) :
    ((entries.map fun e => (e.1, e.2, RuleIndex.ofRules table e.2)).filter
        fun e => !e.2.1.isEmpty).lookup key
      = some (rules, RuleIndex.ofRules table rules) := by
  obtain ⟨l₁, l₂, rfl, hfirst⟩ := List.lookup_eq_some_iff.mp h
  -- leaving out entries keeps the one that is found first
  have hkept : (!rules.isEmpty) = true := by simpa using hrules
  simp only [List.map_append, List.map_cons, List.filter_append, List.filter_cons, hkept, if_true]
  refine List.lookup_eq_some_iff.mpr ⟨_, _, rfl, fun e he => ?_⟩
  obtain ⟨e', he', rfl⟩ := List.mem_map.mp (List.mem_filter.mp he).1
  exact hfirst e' he'

/-- The rules at a key are found in the program, with their index. -/
theorem lookup_program {kind : ValueKind} {symbol : String} {rule : Rule}
    (h : rule ∈ s.definitions.ruleSet kind symbol) :
    s.program.rules.lookup (kind, symbol)
      = some (s.definitions.ruleSet kind symbol,
          RuleIndex.ofRules s.table (s.definitions.ruleSet kind symbol)) := by
  unfold Definitions.ruleSet at h ⊢
  cases hlookup : s.definitions.entries.lookup (kind, symbol) with
  | none =>
    rw [hlookup] at h
    cases h
  | some rules =>
    rw [hlookup] at h
    exact lookup_indexed (List.ne_nil_of_mem h) hlookup

/-- No rule that the session keeps at the key matches the term. -/
def NoRule (s : Session) (kind : ValueKind) (symbol : String) (t : Term) : Prop :=
  ∀ rule ∈ s.definitions.ruleSet kind symbol, rule.lhs.matches? s.table t = none

/-- **Where no candidate matches, no rule matches, other than at the symbols of arguments.** -/
theorem noRule_of_idle (hs : s.WellFiled) {t : Term} (ht : t.Coherent)
    (hidle : s.program.Idle t) {kind : ValueKind} {symbol : String} (hkind : kind ≠ .up)
    (hkey : (kind, symbol) ∈ t.definitionKeys) : s.NoRule kind symbol t := by
  intro rule hrule
  cases hmatch : rule.lhs.matches? s.table t with
  | none => rfl
  | some c =>
    have hlookup := lookup_program hrule
    obtain ⟨rules, hentry, hmem⟩ := Definitions.entry_of_mem_ruleSet hrule
    obtain ⟨hlhs, hkept⟩ := hs _ hentry rule hmem
    obtain ⟨i, hi⟩ := List.getElem?_of_mem hrule
    -- the rule is not misfiled, so it is a candidate
    have hfiled : rule.lhs.isMissed s.table t = false := by
      unfold Term.isMissed
      rw [isMisfiled_of_definitionKey? s.table (hkept hkind)]
      rfl
    have hcandidate : i ∈ (RuleIndex.ofRules s.table
        (s.definitions.ruleSet kind symbol)).candidates t := by
      have hsome : (rule.lhs.matches? s.table t).isSome = true := by rw [hmatch]; rfl
      exact (RuleIndex.mem_candidates_iff hi hlhs ht hsome).mpr hfiled
    have hdefinitions : ((kind, symbol), (s.definitions.ruleSet kind symbol,
        RuleIndex.ofRules s.table (s.definitions.ruleSet kind symbol)))
          ∈ s.program.definitionsFor t := by
      refine List.mem_filterMap.mpr ⟨(kind, symbol), hkey, ?_⟩
      rw [hlookup]
      rfl
    have hnone := hidle _ hdefinitions i hcandidate rule hi
    exact hmatch.symm.trans hnone

/-! ## Normal nodes -/

/-- The node is as the session wants it: putting it into canonical form reports no change, and no
rule that the session keeps at the symbol, at the head or at the head of the head matches. -/
structure IsNormal (s : Session) (t : Term) : Prop where
  unchanged : t.canonicalTop s.table = (t, false)
  canonical : t.IsCanonical s.table
  own : ∀ name, t = .symbol name → s.NoRule .own name t
  down : ∀ name args marks, t = .app (.symbol name) args marks → s.NoRule .down name t
  sub : ∀ name inner n args marks, t = .app (.app (.symbol name) inner n) args marks →
    s.NoRule .sub name t

theorem isNormal_of_rests (hs : s.WellFiled) {t : Term} (ht : t.Coherent)
    (h : s.program.Rests t) : s.IsNormal t where
  unchanged := Term.canonicalTop_eq_self h.canonical
  canonical := Term.canonicalTop_eq_false_iff.mp h.canonical
  own := by
    rintro name rfl
    exact noRule_of_idle hs ht h.idle (by decide) List.mem_cons_self
  down := by
    rintro name args marks rfl
    refine noRule_of_idle hs ht h.idle (by decide) ?_
    simp [Term.definitionKeys]
  sub := by
    rintro name inner n args marks rfl
    refine noRule_of_idle hs ht h.idle (by decide) ?_
    simp [Term.definitionKeys, Term.symbolName?]

/-! ## Results -/

/-- What rewriting comes to, from what its passes come to. -/
theorem value_rewrite (s : Session) (limit : Nat) (t : Term) :
    (s.rewrite limit t).value
      = match (value (s.program.settle limit limit t) ⟨some limit, 0, false⟩).1 with
        | .ok v => .ok (v.markNormal s.generation)
        | .error e => .error e := by
  show (s.program.finishRun
    (value (s.program.settle limit limit t) ⟨some limit, 0, false⟩)).value = _
  generalize value (s.program.settle limit limit t) ⟨some limit, 0, false⟩ = run
  obtain ⟨outcome, budget⟩ := run
  cases outcome with
  | ok v => rfl
  | error e => rfl

theorem resting_of_sound (hp : s.program.Sound) {t : Term} (ht : t.Every s.program.Trusty)
    {limit : Nat} {out : Term} (h : (s.rewrite limit t).value = .ok out) :
    out.Coherent ∧ s.program.Resting out := by
  rw [value_rewrite] at h
  split at h
  · next v hv =>
    cases h
    obtain ⟨hv', hrests⟩ := Program.settle_rests hp limit limit t ht _ v hv
    have hcoherent := hv'.coherent (Program.robust_trusty s.program)
    have hmarked := Term.coherent_markNormal s.generation hcoherent
    refine ⟨hmarked, ?_⟩
    have halike : Term.Alike Term.Truthful v (v.markNormal s.generation) :=
      ⟨(Term.unmarked_markNormal s.generation v).symm, hcoherent, hmarked⟩
    exact Program.resting_of_alike Term.robust_truthful hp halike hrests
  · cases h

/-- **A result is a coherent term at rest.** -/
theorem resting_of_rewrite (hs : s.Reachable) {t : Term} (ht : t.Every s.program.Trusty)
    {limit : Nat} {out : Term} (h : (s.rewrite limit t).value = .ok out) :
    out.Coherent ∧ s.program.Resting out :=
  resting_of_sound (program_sound hs.wellFiled) ht h

/-- **A term at rest is its own result, whatever the limit.** -/
theorem rewrite_of_resting (hs : s.Reachable) {t : Term} (ht : t.Coherent)
    (h : s.program.Resting t) (limit : Nat) :
    ∃ out, (s.rewrite limit t).value = .ok out ∧ out.Coherent ∧ out.unmarked = t.unmarked := by
  have hp := program_sound hs.wellFiled
  refine ⟨t.askedThroughout.markNormal s.generation, ?_, ?_, ?_⟩
  · rw [value_rewrite, Program.settle_of_resting hp limit limit ht h rfl]
  · exact Term.coherent_markNormal _ (ht.askedThroughout Term.robust_truthful)
  · rw [Term.unmarked_markNormal, Term.unmarked_askedThroughout]

end Session

/-- No node is marked as normal: each one needs evaluation or carries no stamp. -/
def Term.Unstamped (t : Term) : Prop := t.Every fun u => u.needsEval = true ∨ u.stamp? = none

theorem Term.unstamped_unmarked (t : Term) : t.unmarked.Unstamped := by
  induction t using Term.induct with
  | atom a => exact .atom a
  | app head args marks ihhead ihargs =>
    rw [Term.unmarked_app]
    exact .app (.inl rfl) ihhead (List.forall_mem_map.mpr ihargs)

/-- Where nothing is marked as normal, no mark can be wrong. -/
theorem Term.Unstamped.trusty {t : Term} (h : t.Unstamped) (ht : t.Coherent) (p : Program) :
    t.Every p.Trusty := by
  refine (Term.Every.and ht h).mono ?_
  rintro u ⟨htruthful, hunstamped⟩
  refine ⟨htruthful, fun hmarked => ?_⟩
  rcases hunstamped with heval | hstamp
  · rw [hmarked.1] at heval
    cases heval
  · rw [hmarked.2] at hstamp
    cases hstamp

/-- An unstamped term is not left alone by a pass. -/
theorem Term.Unstamped.not_isNormalUnder {head : Term} {args : List Term} {marks : Marks}
    (ht : (Term.app head args marks).Coherent) (h : (Term.app head args marks).Unstamped)
    (generation : UInt64) : ¬(Term.app head args marks).isNormalUnder generation = true := by
  intro hnormal
  obtain ⟨heval, hstamp⟩ := (Term.isNormalUnder_app ht generation).mp hnormal
  rcases (Term.every_app.mp h).1 with hnode | hnode
  · rw [heval] at hnode
    cases hnode
  · rw [hstamp] at hnode
    cases hnode

namespace Session

variable {s : Session}

/-- **Normal forms are normal.** If rewriting a term without normal-form marks succeeds, every node
of the result is normal, and rewriting a copy of the result, such as the one without any marks,
succeeds under every limit and gives an identical term. -/
theorem rewrite_isNormal (hs : s.Reachable) {t : Term} (ht : t.Coherent) (hfresh : t.Unstamped)
    {limit : Nat} {out : Term} (h : (s.rewrite limit t).value = .ok out) :
    (∀ path u, out.at? path = some u → s.IsNormal u)
      ∧ ∀ copy : Term, copy.Coherent → copy.unmarked = out.unmarked →
          ∀ limit', ∃ again, (s.rewrite limit' copy).value = .ok again
            ∧ again.identical out = true := by
  have hp := program_sound hs.wellFiled
  obtain ⟨hout, hrests⟩ := resting_of_rewrite hs (hfresh.trusty ht s.program) h
  constructor
  · intro path u hu
    exact isNormal_of_rests hs.wellFiled (hout.at? hu) (hrests path u hu)
  · intro copy hcopy same limit'
    have halike : Term.Alike Term.Truthful out copy := ⟨same.symm, hout, hcopy⟩
    have hcopyRests := Program.resting_of_alike Term.robust_truthful hp halike hrests
    obtain ⟨again, hagain, hcoherent, hsame⟩ := rewrite_of_resting hs hcopy hcopyRests limit'
    exact ⟨again, hagain, (Term.identical_iff hcoherent hout).mpr (hsame.trans same)⟩

/-- What a rule gives breaks the canonical form of the flat node around it, and a later pass that
costs nothing repairs this. -/
theorem rewrite_isNormal_flattened :
    ∃ s out, Reachable s
      ∧ (s.rewrite 1 (.call "g" [.integer 1, .call "f" [.call "g" [.integer 2]]])).value = .ok out
      ∧ out.unmarked = .call "g" [.integer 1, .integer 2]
      ∧ (∀ path u, out.at? path = some u → s.IsNormal u)
      ∧ ∃ again, (s.rewrite 0 out.unmarked).value = .ok again ∧ again.identical out = true := by
  have hstart : Reachable (({} : Session).setAttributes "g" .flat) := .setAttributes _ _ .start
  have hs := @Reachable.define _ _
    ⟨.call "f" [.call "NamedBlank" [.symbol "x"]], .symbol "x", false⟩ hstart
    (Term.coherent_of_unmarked_eq rfl) rfl
  refine ⟨_, _, hs, rfl, rfl, ?_⟩
  have hunmarked : (Term.call "g" [.integer 1, .call "f" [.call "g" [.integer 2]]]).unmarked
      = .call "g" [.integer 1, .call "f" [.call "g" [.integer 2]]] := rfl
  have ht := Term.coherent_of_unmarked_eq hunmarked
  have hfresh := hunmarked ▸ Term.unstamped_unmarked _
  have h := @rewrite_isNormal _ hs _ ht hfresh 1 _ rfl
  exact ⟨h.1, h.2 _ (Term.coherent_unmarked _) (Term.unmarked_unmarked _) 0⟩

end Session

end TermRewriting
