import TermRewriting.Proofs.Rewriting.NormalForms

/-!
# Rules are found where they are kept

The key at which a rule is stored is read off its left-hand side, the keys at which definitions are
looked up are read off the term, and the candidates among the rules at a key are read off the two
once more. That the three readings agree is shown in two steps. A term that a left-hand side matches
consults the key of the left-hand side, after the symbols of its arguments (`consults_of_matches`).
And trying the candidates of the index does at a key what trying all rules in their order does
(`value_applyCandidates_ofRules`), since a match is never missed there.
-/

namespace TermRewriting

open Rewriter

/-! ## Where a term looks -/

namespace Term

/-- The term looks for definitions at the key, after the symbols of its arguments and after nothing
else. -/
def Consults (t : Term) (ups : List DefinitionKey) (key : DefinitionKey) : Prop :=
  t.definitionKeys = ups ++ [key] ∧ ∀ up ∈ ups, up.1 = .up

theorem consults_symbol (name : String) : (Term.symbol name).Consults [] (.own, name) :=
  ⟨rfl, fun up h => by cases h⟩

/-- The keys of the symbols of arguments. -/
def upKeys (args : List Term) : List DefinitionKey :=
  args.filterMap fun a => a.upName?.map (ValueKind.up, ·)

theorem kind_of_mem_upKeys {args : List Term} {up : DefinitionKey} (h : up ∈ upKeys args) :
    up.1 = .up := by
  obtain ⟨a, _, ha⟩ := List.mem_filterMap.mp h
  obtain ⟨name, _, rfl⟩ := Option.map_eq_some_iff.mp ha
  rfl

theorem consults_down (name : String) (args : List Term) (marks : Marks) :
    (Term.app (.symbol name) args marks).Consults (upKeys args) (.down, name) :=
  ⟨rfl, fun _ => kind_of_mem_upKeys⟩

theorem consults_sub (name : String) (inner : List Term) (n : Marks) (args : List Term)
    (marks : Marks) :
    (Term.app (.app (.symbol name) inner n) args marks).Consults (upKeys args) (.sub, name) :=
  ⟨rfl, fun _ => kind_of_mem_upKeys⟩

/-- **A term that matches looks where the rule is kept.** -/
theorem consults_of_matches {lhs t : Term} {key : DefinitionKey} {table : SymbolTable}
    (hkey : lhs.definitionKey? = some key) (h : (lhs.matches? table t).isSome = true) :
    ∃ ups, t.Consults ups key := by
  obtain ⟨b', h⟩ := Option.isSome_iff_exists.mp h
  have h : (lhs.searchMatch ⟨table, {}⟩ t []).result = some b' := h
  obtain ⟨b₁, hcore⟩ := searchMatch_core lhs h
  unfold definitionKey? at hkey
  split at hkey
  · next name hlhs =>
    cases hkey
    rw [hlhs] at hcore
    rw [(eq_of_searchMatch_atom hcore).1]
    exact ⟨_, consults_symbol name⟩
  · next name args marks hlhs =>
    split at hkey
    · cases hkey
    · next hname =>
      cases hkey
      rw [hlhs] at hcore
      obtain ⟨items, n, rfl, _⟩ := eq_app_of_searchMatch (Bool.eq_false_iff.mpr hname) hcore
      exact ⟨_, consults_down name items n⟩
  · next name inner m args marks hlhs =>
    split at hkey
    · cases hkey
    · next hname =>
      cases hkey
      rw [hlhs, searchMatch_app_of_not_patternHead rfl] at hcore
      obtain ⟨k, items, n, b₂, rfl, hhead, _⟩ := of_matchCompound hcore
      obtain ⟨inner', n', rfl, _⟩ := eq_app_of_searchMatch (Bool.eq_false_iff.mpr hname) hhead
      exact ⟨_, consults_sub name inner' n' items n⟩
  · cases hkey

end Term

/-! ## Candidates of a list of rules -/

namespace RuleIndex

theorem foldr_insertAscending {l : List Nat} (h : l.Pairwise (· < ·)) :
    l.foldr insertAscending [] = l := by
  induction l with
  | nil => rfl
  | cons i is ih =>
    obtain ⟨hi, his⟩ := List.pairwise_cons.mp h
    rw [List.foldr_cons, ih his]
    cases is with
    | nil => rfl
    | cons j js => rw [insertAscending, if_pos (hi j List.mem_cons_self)]

/-- The candidates are the rules whose buckets cover the term, in the order of the rules. -/
theorem candidates_ofRules (table : SymbolTable) (rules : List Rule) (t : Term) :
    (ofRules table rules).candidates t
      = (rules.zipIdx.filter fun r => (Bucket.ofLhs table r.1.lhs).covers t).map Prod.snd := by
  have hentries : ((ofRules table rules).entries.filter fun e => e.1.covers t).map Prod.snd
      = (rules.zipIdx.filter fun r => (Bucket.ofLhs table r.1.lhs).covers t).map Prod.snd := by
    rw [ofRules, List.filter_map, List.map_map]
    rfl
  have hascending : (rules.zipIdx.map Prod.snd).Pairwise (· < ·) := by
    rw [List.zipIdx_map_snd]
    exact List.pairwise_lt_range' 1
  rw [candidates, hentries]
  exact foldr_insertAscending (hascending.sublist (List.filter_sublist.map Prod.snd))

end RuleIndex

/-! ## Trying rules in their order -/

/-- The first rule that matches, with what the match binds. -/
def RuleSet.firstMatch? (table : SymbolTable) (t : Term) (rules : RuleSet) :
    Option (Rule × Bindings) :=
  rules.findSome? fun rule => (rule.lhs.matches? table t).map (rule, ·)

/-- Applies a rule that was found to match, if it can be paid. -/
def Budget.applied (b : Budget) : Option (Rule × Bindings) → Option Term × Budget
  | none => (none, b)
  | some (rule, found) =>
    if b.charged.2 then (some (rule.rhs.instantiate found), b.charged.1) else (none, b.charged.1)

namespace Program

variable {p : Program}

theorem value_applyCandidates (key : DefinitionKey) (rules : RuleSet) (t : Term)
    (numbers : List Nat) (b : Budget) :
    value (p.applyCandidates key rules t numbers) b
      = b.applied (numbers.findSome? fun i => rules[i]?.bind fun rule =>
          (rule.lhs.matches? p.table t).map (rule, ·)) := by
  induction numbers with
  | nil => rfl
  | cons i numbers ih =>
    rw [value_applyCandidates_cons, List.findSome?_cons]
    cases rules[i]?.bind fun rule => (rule.lhs.matches? p.table t).map (rule, ·) with
    | none => exact ih
    | some found => rfl

/-- **Where no match is missed, the candidates give the first match of all rules.** -/
theorem value_applyCandidates_ofRules (key : DefinitionKey) {rules : RuleSet} {t : Term}
    (hcovers : ∀ rule ∈ rules, (rule.lhs.matches? p.table t).isSome = true →
      (Bucket.ofLhs p.table rule.lhs).covers t = true) (b : Budget) :
    value (p.applyCandidates key rules t ((RuleIndex.ofRules p.table rules).candidates t)) b
      = b.applied (rules.firstMatch? p.table t) := by
  rw [value_applyCandidates, RuleIndex.candidates_ofRules, RuleSet.firstMatch?]
  congr 1
  rw [← List.head?_filterMap, ← List.head?_filterMap, List.filterMap_map, List.filterMap_filter]
  conv_rhs => rw [← List.zipIdx_map_fst 0 rules, List.filterMap_map]
  congr 1
  refine List.filterMap_congr fun r hr => ?_
  have hrule : rules[r.2]? = some r.1 := List.mem_zipIdx_iff_getElem?.mp hr
  split
  · simp [hrule]
  · next hnot =>
    -- what is not covered does not match
    cases hmatch : r.1.lhs.matches? p.table t with
    | none => simp [hmatch]
    | some found =>
      exact absurd (hcovers r.1 (List.mem_of_getElem? hrule) (by simp [hmatch])) hnot

/-- The definitions at the given keys. -/
def definitionsAt (p : Program) (keys : List DefinitionKey) :
    List (DefinitionKey × (RuleSet × RuleIndex)) :=
  keys.filterMap fun key => (p.rules.lookup key).map (key, ·)

theorem value_applyFirst_append (t : Term)
    (xs ys : List (DefinitionKey × (RuleSet × RuleIndex))) (b : Budget) :
    value (p.applyFirst t (xs ++ ys)) b
      = if (value (p.applyFirst t xs) b).1.isSome then value (p.applyFirst t xs) b
        else value (p.applyFirst t ys) (value (p.applyFirst t xs) b).2 := by
  induction xs generalizing b with
  | nil => rfl
  | cons x xs ih =>
    obtain ⟨key, rules, index⟩ := x
    rw [List.cons_append, applyFirst, applyFirst, value_bind, value_bind]
    cases (value (p.applyCandidates key rules t (index.candidates t)) b).1 with
    | some result => rfl
    | none => exact ih _

theorem value_applyFirst_singleton (key : DefinitionKey) (rules : RuleSet) (index : RuleIndex)
    (t : Term) (b : Budget) :
    value (p.applyFirst t [(key, rules, index)]) b
      = value (p.applyCandidates key rules t (index.candidates t)) b := by
  rw [applyFirst, value_bind]
  rcases value (p.applyCandidates key rules t (index.candidates t)) b with ⟨_ | result, b'⟩
  · rfl
  · rfl

end Program

namespace Session

variable {s : Session}

/-! ## The program of a session -/

/-- The program has the rules of the session at every key, each list with its index. -/
theorem lookup_program_eq (hs : s.Reachable) (key : DefinitionKey) :
    s.program.rules.lookup key
      = (s.definitions.entries.lookup key).map fun rules =>
          (rules, RuleIndex.ofRules s.table rules) := by
  cases hlookup : s.definitions.entries.lookup key with
  | some rules => exact lookup_indexed (hs.rules_ne_nil _ (mem_of_lookup_eq_some hlookup)) hlookup
  | none =>
    rw [Option.map_none, List.lookup_eq_none_iff]
    intro e he
    obtain ⟨e', he', rfl⟩ := List.mem_map.mp (List.mem_filter.mp he).1
    exact List.lookup_eq_none_iff.mp hlookup e' he'

/-- The result of trying all rules at a key in their order, and paying for the first that
matches. -/
def scan (s : Session) (kind : ValueKind) (symbol : String) (t : Term) (b : Budget) :
    Option Term × Budget :=
  b.applied ((s.definitions.ruleSet kind symbol).firstMatch? s.table t)

/-- A rule that is kept at its own key is covered where it matches. -/
theorem covers_of_mem_ruleSet (hs : s.Reachable) {kind : ValueKind} {symbol : String}
    (hkind : kind ≠ .up) {rule : Rule} (hrule : rule ∈ s.definitions.ruleSet kind symbol) {t : Term}
    (ht : t.Coherent) (h : (rule.lhs.matches? s.table t).isSome = true) :
    (Bucket.ofLhs s.table rule.lhs).covers t = true := by
  obtain ⟨rules, hentry, hmem⟩ := Definitions.entry_of_mem_ruleSet hrule
  obtain ⟨hlhs, hkept⟩ := hs.wellFiled _ hentry rule hmem
  refine (Bucket.covers_iff hlhs ht h).mpr ?_
  unfold Term.isMissed
  rw [isMisfiled_of_definitionKey? s.table (hkept hkind)]
  rfl

/-- **At a key the engine does what a scan of its rules does.** -/
theorem value_applyFirst_key (hs : s.Reachable) {kind : ValueKind} (hkind : kind ≠ .up)
    (symbol : String) {t : Term} (ht : t.Coherent) (b : Budget) :
    value (s.program.applyFirst t (s.program.definitionsAt [(kind, symbol)])) b
      = s.scan kind symbol t b := by
  unfold scan Program.definitionsAt Definitions.ruleSet
  rw [List.filterMap_cons, lookup_program_eq hs]
  cases hlookup : s.definitions.entries.lookup (kind, symbol) with
  | none => rfl
  | some rules =>
    refine (Program.value_applyFirst_singleton _ _ _ _ _).trans ?_
    refine Program.value_applyCandidates_ofRules _ (fun rule hrule hmatch => ?_) b
    have hkept : rule ∈ s.definitions.ruleSet kind symbol := by
      unfold Definitions.ruleSet
      rwa [hlookup]
    exact covers_of_mem_ruleSet hs hkind hkept ht hmatch

/-- What a term consults decides what is applied to it: definitions at the symbols of its arguments,
or else, on what they leave of the budget, the first rule that matches at the other key. -/
theorem value_applyTop_of_consults (hs : s.Reachable) {kind : ValueKind} (hkind : kind ≠ .up)
    {symbol : String} {t : Term} {ups : List DefinitionKey} (ht : t.Coherent)
    (hconsults : t.Consults ups (kind, symbol)) (b : Budget) :
    let first := value (s.program.applyFirst t.memoized (s.program.definitionsAt ups)) b
    ((value (s.program.applyTop t) b).1.1, (value (s.program.applyTop t) b).2)
      = if first.1.isSome then first else s.scan kind symbol t.memoized first.2 := by
  intro first
  obtain ⟨t', _, hvalue⟩ := Program.value_applyTop (p := s.program) t b
  have hdefinitions : s.program.definitionsFor t
      = s.program.definitionsAt ups ++ s.program.definitionsAt [(kind, symbol)] := by
    unfold Program.definitionsFor Program.definitionsAt
    rw [hconsults.1, List.filterMap_append]
  rw [hvalue, hdefinitions, Program.value_applyFirst_append,
    value_applyFirst_key hs hkind symbol (ht.memoized Term.robust_truthful)]

/-- No left-hand side is about the symbol of an argument. -/
theorem kind_ne_up_of_definitionKey? {lhs : Term} {key : DefinitionKey}
    (h : lhs.definitionKey? = some key) : key.1 ≠ .up := by
  unfold Term.definitionKey? at h
  split at h
  · cases h
    exact nofun
  · split at h
    · cases h
    · cases h
      exact nofun
  · split at h
    · cases h
    · cases h
      exact nofun
  · cases h

/-- Where a rule is stored that is accepted as a definition. -/
theorem definitionKey?_of_define {s' : Session} {rule : Rule}
    (h : (s.define rule).value = .ok s') :
    ∃ kind symbol, rule.lhs.definitionKey? = some (kind, symbol) ∧ kind ≠ .up
      ∧ s'.definitions = s.definitions.modify kind symbol (RuleSet.put rule) := by
  unfold define at h
  split at h
  · next kind symbol hkey =>
    refine ⟨kind, symbol, hkey, ?_, ?_⟩
    · exact kind_ne_up_of_definitionKey? hkey
    · rw [of_attach h]
      rfl
  · cases h

/-- **Definitions are found where they are kept.** A rule that is accepted as a definition is stored
at a key that every term consults which the rule matches, under any attributes. And of the rules
that a session keeps at the key which a term consults, the engine applies the first that matches, as
a scan of them all would, once the definitions at the symbols of the arguments did not apply. -/
theorem definitions_found (hs : s.Reachable) :
    (∀ rule s', (s.define rule).value = .ok s' →
      ∃ kind symbol, kind ≠ .up
        ∧ s'.definitions = s.definitions.modify kind symbol (RuleSet.put rule)
        ∧ ∀ table t, (rule.lhs.matches? table t).isSome = true →
            ∃ ups, t.Consults ups (kind, symbol))
      ∧ ∀ kind symbol, kind ≠ .up →
        (∀ rule ∈ s.definitions.ruleSet kind symbol, ∀ t,
          (rule.lhs.matches? s.table t).isSome = true → ∃ ups, t.Consults ups (kind, symbol))
        ∧ ∀ t ups, t.Coherent → t.Consults ups (kind, symbol) → ∀ b,
            let first := value (s.program.applyFirst t.memoized (s.program.definitionsAt ups)) b
            ((value (s.program.applyTop t) b).1.1, (value (s.program.applyTop t) b).2)
              = if first.1.isSome then first else s.scan kind symbol t.memoized first.2 := by
  refine ⟨fun rule s' h => ?_, fun kind symbol hkind => ⟨fun rule hrule t hmatch => ?_, ?_⟩⟩
  · obtain ⟨kind, symbol, hkey, hkind, hstored⟩ := definitionKey?_of_define h
    exact ⟨kind, symbol, hkind, hstored, fun _ _ => Term.consults_of_matches hkey⟩
  · obtain ⟨rules, hentry, hmem⟩ := Definitions.entry_of_mem_ruleSet hrule
    exact Term.consults_of_matches ((hs.wellFiled _ hentry rule hmem).2 hkind) hmatch
  · exact fun t ups ht hconsults b => value_applyTop_of_consults hs hkind ht hconsults b

/-- Under an orderless head, a guarded rule behind one that does not match, and a definition at the
symbol of an argument that does not either: the guarded rule is the one that is applied. -/
theorem definitions_found_guarded :
    let rule : Rule := ⟨.call "Condition" [.call "f" [.call "NamedBlank" [.symbol "x"], .symbol "a",
      .integer 1], .call "IntegerQ" [.symbol "x"]], .symbol "x", false⟩
    let t := Term.call "f" [.integer 1, .symbol "a", .integer 7]
    ∃ s s' : Session, s.Reachable ∧ (s.define rule).value = .ok s'
      ∧ (∃ kind symbol, kind ≠ .up
          ∧ s'.definitions = s.definitions.modify kind symbol (RuleSet.put rule)
          ∧ ∃ ups, t.Consults ups (kind, symbol))
      ∧ (value (s'.program.applyTop t) ⟨some 1, 0, false⟩).1.1 = some (.integer 7) := by
  intro rule t
  have hstart : Reachable (({} : Session).setAttributes "f" .orderless) := .setAttributes _ _ .start
  have hup := @Reachable.defineUp _ _ ⟨.call "f" [.symbol "a"], .integer 0, false⟩ "a" hstart
    (Term.coherent_of_unmarked_eq rfl) rfl
  have hs := @Reachable.define _ _ ⟨.call "f" [.call "Blank" []], .integer 0, false⟩ hup
    (Term.coherent_of_unmarked_eq rfl) rfl
  have hs' := @Reachable.define _ _ rule hs (Term.coherent_of_unmarked_eq rfl) rfl
  refine ⟨_, _, hs, rfl, ?_, ?_⟩
  · obtain ⟨kind, symbol, hkind, hstored, hfound⟩ := (definitions_found hs).1 rule _ rfl
    exact ⟨kind, symbol, hkind, hstored, hfound (.ofAttributes [("f", .orderless)]) t rfl⟩
  · have h := ((definitions_found hs').2 .down "f" (by decide)).2 t _
      (Term.coherent_of_unmarked_eq rfl) (Term.consults_down "f" _ _) ⟨some 1, 0, false⟩
    refine (congrArg Prod.fst h).trans ?_
    simp only [rule, t]
    rfl

end Session

end TermRewriting
