import TermRewriting.Proofs.RuleIndex.Completeness
import TermRewriting.Session

/-!
# Reachable sessions

A session starts empty and is changed by definitions, attributes and renderers. What holds of every
session that such changes lead to is that its rules are well filed: left-hand sides are coherent,
and every rule is kept at the key that its left-hand side is about, unless it is kept at the symbol
of an argument, where any left-hand side may be put.

A rule at its own key is never misfiled by an index, since definitions are not accepted for pattern
heads (`isMisfiled_of_definitionKey?`).
-/

namespace TermRewriting

/-! ## Changes of tables -/

theorem mem_putEntry {κ ν : Type} [DecidableEq κ] {key : κ} {value : ν} {entries : List (κ × ν)}
    {e : κ × ν} (h : e ∈ putEntry key value entries) : e = (key, value) ∨ e ∈ entries := by
  induction entries with
  | nil => exact .inl (List.mem_singleton.mp h)
  | cons old rest ih =>
    unfold putEntry at h
    split at h
    · rcases List.mem_cons.mp h with rfl | h
      · exact .inl rfl
      · exact .inr (List.mem_cons_of_mem _ h)
    · rcases List.mem_cons.mp h with rfl | h
      · exact .inr List.mem_cons_self
      · rcases ih h with h | h
        · exact .inl h
        · exact .inr (List.mem_cons_of_mem _ h)

theorem RuleSet.mem_put {rule r : Rule} {rules : RuleSet} (h : r ∈ RuleSet.put rule rules) :
    r = rule ∨ r ∈ rules := by
  induction rules with
  | nil => exact .inl (List.mem_singleton.mp h)
  | cons old rest ih =>
    unfold RuleSet.put at h
    split at h
    · rcases List.mem_cons.mp h with rfl | h
      · exact .inl rfl
      · exact .inr (List.mem_cons_of_mem _ h)
    · rcases List.mem_cons.mp h with rfl | h
      · exact .inr List.mem_cons_self
      · rcases ih h with h | h
        · exact .inl h
        · exact .inr (List.mem_cons_of_mem _ h)

theorem RuleSet.put_ne_nil (rule : Rule) (rules : RuleSet) : RuleSet.put rule rules ≠ [] := by
  cases rules with
  | nil => exact List.cons_ne_nil _ _
  | cons old rest =>
    unfold RuleSet.put
    split
    · exact List.cons_ne_nil _ _
    · exact List.cons_ne_nil _ _

/-- The rules at a key are those of an entry with this key. -/
theorem Definitions.entry_of_mem_ruleSet {d : Definitions} {kind : ValueKind} {symbol : String}
    {rule : Rule} (h : rule ∈ d.ruleSet kind symbol) :
    ∃ rules, ((kind, symbol), rules) ∈ d.entries ∧ rule ∈ rules := by
  unfold Definitions.ruleSet at h
  cases hlookup : d.entries.lookup (kind, symbol) with
  | none =>
    rw [hlookup] at h
    cases h
  | some rules =>
    rw [hlookup] at h
    exact ⟨rules, mem_of_lookup_eq_some hlookup, h⟩

namespace Session

/-! ## Reachable sessions -/

/-- The sessions that changes lead to, from the empty one. -/
inductive Reachable : Session → Prop where
  | start : Reachable {}
  | setAttributes {s : Session} (symbol : String) (attributes : Attributes) :
      Reachable s → Reachable (s.setAttributes symbol attributes)
  | addAttributes {s : Session} (symbol : String) (attributes : Attributes) :
      Reachable s → Reachable (s.addAttributes symbol attributes)
  | setRenderer {s : Session} (head : String) (renderer : Renderer) :
      Reachable s → Reachable (s.setRenderer head renderer)
  | define {s s' : Session} {rule : Rule} : Reachable s → rule.lhs.Coherent →
      (s.define rule).value = .ok s' → Reachable s'
  | defineUp {s s' : Session} {rule : Rule} (symbol : String) : Reachable s → rule.lhs.Coherent →
      (s.defineUp symbol rule).value = .ok s' → Reachable s'
  | clearDefinitions {s : Session} (symbol : String) :
      Reachable s → Reachable (s.clearDefinitions symbol)

/-- The rule may be kept at the key. -/
def FiledAt (key : DefinitionKey) (rule : Rule) : Prop :=
  rule.lhs.Coherent ∧ (key.1 ≠ .up → rule.lhs.definitionKey? = some key)

/-- Every rule may be kept where it is. -/
def WellFiled (s : Session) : Prop :=
  ∀ e ∈ s.definitions.entries, ∀ rule ∈ e.2, FiledAt e.1 rule

/-- What a stored rule changes. -/
theorem of_attach {s s' : Session} {kind : ValueKind} {symbol : String} {rule : Rule}
    (h : (s.attach kind symbol rule).value = .ok s') :
    s' = Session.nextGeneration
      { s with definitions := s.definitions.modify kind symbol (RuleSet.put rule) } := by
  unfold attach at h
  split at h
  · cases h
  · cases h
    rfl

theorem wellFiled_of_attach {s s' : Session} (hs : s.WellFiled) {kind : ValueKind}
    {symbol : String} {rule : Rule} (hrule : FiledAt (kind, symbol) rule)
    (h : (s.attach kind symbol rule).value = .ok s') : s'.WellFiled := by
  rw [of_attach h]
  intro e he r hr
  -- the entry that was put holds the new rule and those that were kept at its key before
  rcases mem_putEntry he with rfl | he
  · rcases RuleSet.mem_put hr with rfl | hr
    · exact hrule
    · obtain ⟨rules, hentry, hmem⟩ := Definitions.entry_of_mem_ruleSet hr
      exact hs _ hentry r hmem
  · exact hs e he r hr

theorem wellFiled_of_define {s s' : Session} (hs : s.WellFiled) {rule : Rule}
    (hlhs : rule.lhs.Coherent) (h : (s.define rule).value = .ok s') : s'.WellFiled := by
  unfold define at h
  split at h
  · next kind symbol hkey => exact wellFiled_of_attach hs ⟨hlhs, fun _ => hkey⟩ h
  · cases h

/-- **In every reachable session the rules are well filed.** -/
theorem Reachable.wellFiled {s : Session} (h : s.Reachable) : s.WellFiled := by
  induction h with
  | start =>
    intro e he
    cases he
  | setAttributes symbol attributes _ ih => exact ih
  | addAttributes symbol attributes _ ih => exact ih
  | setRenderer head renderer _ ih => exact ih
  | define _ hlhs h ih => exact wellFiled_of_define ih hlhs h
  | defineUp symbol _ hlhs h ih =>
    exact wellFiled_of_attach ih ⟨hlhs, fun hkind => absurd rfl hkind⟩ h
  | clearDefinitions symbol _ ih =>
    intro e he
    exact ih e (List.mem_filter.mp he).1

theorem rules_ne_nil_of_attach {s s' : Session} (hs : ∀ e ∈ s.definitions.entries, e.2 ≠ [])
    {kind : ValueKind} {symbol : String} {rule : Rule}
    (h : (s.attach kind symbol rule).value = .ok s') : ∀ e ∈ s'.definitions.entries, e.2 ≠ [] := by
  rw [of_attach h]
  intro e he
  rcases mem_putEntry he with rfl | he
  · exact RuleSet.put_ne_nil rule _
  · exact hs e he

/-- Where rules are kept there are some. -/
theorem Reachable.rules_ne_nil {s : Session} (h : s.Reachable) :
    ∀ e ∈ s.definitions.entries, e.2 ≠ [] := by
  induction h with
  | start =>
    intro e he
    cases he
  | setAttributes symbol attributes _ ih => exact ih
  | addAttributes symbol attributes _ ih => exact ih
  | setRenderer head renderer _ ih => exact ih
  | define _ _ h ih =>
    unfold Session.define at h
    split at h
    · exact rules_ne_nil_of_attach ih h
    · cases h
  | defineUp symbol _ _ h ih => exact rules_ne_nil_of_attach ih h
  | clearDefinitions symbol _ ih =>
    intro e he
    exact ih e (List.mem_filter.mp he).1

end Session

/-! ## Rules at their own keys -/

/-- A left-hand side with a key of its own is not misfiled. -/
theorem isMisfiled_of_definitionKey? {lhs : Term} {key : DefinitionKey} (table : SymbolTable)
    (h : lhs.definitionKey? = some key) : lhs.core.isMisfiled table = false := by
  unfold Term.definitionKey? at h
  split at h
  · next name hcore =>
    rw [hcore]
    rfl
  · next name args marks hcore =>
    split at h
    · cases h
    · next hname =>
      rw [hcore]
      simp [Term.isMisfiled, Term.symbolName?, hname]
  · next name inner n args marks hcore =>
    rw [hcore]
    rfl
  · cases h

end TermRewriting
