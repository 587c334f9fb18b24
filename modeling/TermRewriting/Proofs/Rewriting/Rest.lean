import TermRewriting.Proofs.Canonical
import TermRewriting.Proofs.Pattern.Congruence
import TermRewriting.Rewriting

/-!
# Terms at rest

A node rests when it is in canonical form and no candidate among its definitions matches it, and a
term rests when all its nodes do, atoms and heads included. Where definitions are looked for, which
rules are candidates and what matches depends on the structure alone, so of two alike terms both
rest or none (`resting_of_alike`).
-/

namespace TermRewriting

/-! ## Looking up definitions -/

section

variable {Q : Term → Prop} (hQ : Term.Robust Q)

theorem Term.Alike.upName?_eq {s t : Term} (h : Term.Alike Q s t) : s.upName? = t.upName? := by
  rcases h.cases with ⟨a, rfl, rfl⟩ | ⟨j, as, m, k, bs, n, rfl, rfl, _, _, hhead, _⟩
  · rfl
  · exact hhead.symbolName?_eq

theorem Term.AlikeAll.upKeys_eq {as bs : List Term} (h : Term.AlikeAll Q as bs) :
    as.filterMap (fun a => a.upName?.map (ValueKind.up, ·))
      = bs.filterMap (fun a => a.upName?.map (ValueKind.up, ·)) := by
  induction h with
  | nil => rfl
  | cons hab _ ih => rw [List.filterMap_cons, List.filterMap_cons, hab.upName?_eq, ih]

/-- Where definitions are looked for depends on the structure alone. -/
theorem Term.Alike.definitionKeys_eq {s t : Term} (h : Term.Alike Q s t) :
    s.definitionKeys = t.definitionKeys := by
  rcases h.cases with ⟨a, rfl, rfl⟩ | ⟨j, as, m, k, bs, n, rfl, rfl, _, _, hhead, hargs⟩
  · rfl
  · simp only [Term.definitionKeys, hargs.upKeys_eq]
    rcases hhead.cases with ⟨a, rfl, rfl⟩ | ⟨j, _, _, k, _, _, rfl, rfl, _, _, hinner, _⟩
    · rfl
    · simp only [hinner.symbolName?_eq]

theorem Term.Alike.definitionsFor_eq (p : Program) {s t : Term} (h : Term.Alike Q s t) :
    p.definitionsFor s = p.definitionsFor t := by
  unfold Program.definitionsFor
  rw [h.definitionKeys_eq]

include hQ

theorem Term.Alike.covers_eq {s t : Term} (h : Term.Alike Q s t) (bucket : Bucket) :
    bucket.covers s = bucket.covers t := by
  cases bucket with
  | literal fingerprint => simp only [Bucket.covers, h.fingerprint_eq hQ]
  | arity name count =>
    simp only [Bucket.covers, h.isAtom_eq, h.headName?_eq, h.args.length_eq]
  | head name => simp only [Bucket.covers, h.isAtom_eq, h.headName?_eq]
  | general => rfl

theorem Term.Alike.candidates_eq {s t : Term} (h : Term.Alike Q s t) (index : RuleIndex) :
    index.candidates s = index.candidates t := by
  unfold RuleIndex.candidates
  simp only [h.covers_eq hQ]

end

namespace Program

/-! ## Nodes and terms at rest -/

variable (p : Program)

/-- The left-hand sides of all definitions are coherent. -/
def Sound : Prop := ∀ e ∈ p.rules, ∀ rule ∈ e.2.1, rule.lhs.Coherent

/-- No candidate among the definitions for the term matches it. -/
def Idle (t : Term) : Prop :=
  ∀ e ∈ p.definitionsFor t, ∀ i ∈ e.2.2.candidates t, ∀ rule, e.2.1[i]? = some rule →
    rule.lhs.matches? p.table t = none

/-- The node is in canonical form and no candidate matches it. -/
structure Rests (t : Term) : Prop where
  canonical : (t.canonicalTop p.table).2 = false
  idle : p.Idle t

/-- Every node of the term rests. -/
def Resting (t : Term) : Prop := ∀ path s, t.at? path = some s → p.Rests s

variable {p}

theorem mem_rules_of_definitionsFor {t : Term} {e : DefinitionKey × (RuleSet × RuleIndex)}
    (he : e ∈ p.definitionsFor t) : e ∈ p.rules := by
  obtain ⟨key, _, hlookup⟩ := List.mem_filterMap.mp he
  obtain ⟨found, hfound, rfl⟩ := Option.map_eq_some_iff.mp hlookup
  exact mem_of_lookup_eq_some hfound

theorem Sound.lhs_coherent (hp : p.Sound) {t : Term}
    {e : DefinitionKey × (RuleSet × RuleIndex)} (he : e ∈ p.definitionsFor t) :
    ∀ rule ∈ e.2.1, rule.lhs.Coherent :=
  hp e (mem_rules_of_definitionsFor he)

@[simp] theorem resting_atom (a : Atom) : p.Resting (.atom a) ↔ p.Rests (.atom a) :=
  Term.forall_at?_atom

theorem resting_app {head : Term} {args : List Term} {marks : Marks} :
    p.Resting (.app head args marks)
      ↔ p.Rests (.app head args marks) ∧ p.Resting head ∧ ∀ a ∈ args, p.Resting a :=
  Term.forall_at?_app

/-- The nodes below a path in a term at rest are at rest. -/
theorem Resting.at? {t s : Term} {path : Path} (h : p.Resting t) (hs : t.at? path = some s) :
    p.Resting s := by
  intro below u hu
  refine h (path ++ below) u ?_
  rw [Term.at?_append, hs]
  exact hu

/-! ## Rest does not depend on marks -/

section

variable {Q : Term → Prop} (hQ : Term.Robust Q) (hp : p.Sound)

include hQ hp

theorem idle_of_alike {s t : Term} (h : Term.Alike Q s t) (hs : p.Idle s) : p.Idle t := by
  intro e he i hi rule hrule
  rw [← h.definitionsFor_eq] at he
  rw [← h.candidates_eq hQ] at hi
  have hnone := hs e he i hi rule hrule
  have hlhs := hp.lhs_coherent he rule (List.mem_of_getElem? hrule)
  rcases optionRel_cases (h.matches? hQ p.table hlhs) with ⟨_, ht⟩ | ⟨b, b', hb, _, _⟩
  · exact ht
  · rw [hb] at hnone
    cases hnone

theorem rests_of_alike {s t : Term} (h : Term.Alike Q s t) (hs : p.Rests s) : p.Rests t := by
  refine ⟨?_, idle_of_alike hQ hp h hs.idle⟩
  rw [← (h.canonicalTop hQ p.table).2]
  exact hs.canonical

/-- **Of two alike terms both rest or none.** -/
theorem resting_of_alike {s t : Term} (h : Term.Alike Q s t) (hs : p.Resting s) : p.Resting t := by
  intro path u hu
  have hpaths : s.unmarked.at? path = t.unmarked.at? path := by rw [h.same]
  rw [Term.at?_unmarked, Term.at?_unmarked, hu] at hpaths
  obtain ⟨v, hv, same⟩ := Option.map_eq_some_iff.mp hpaths
  exact rests_of_alike hQ hp ⟨same, h.left.at? hv, h.right.at? hu⟩ (hs path v hv)

end

/-- A coherent term rests exactly if its structure does. -/
theorem resting_unmarked (hp : p.Sound) {t : Term} (ht : t.Coherent) :
    p.Resting t.unmarked ↔ p.Resting t := by
  have h : Term.Alike Term.Truthful t.unmarked t :=
    ⟨Term.unmarked_unmarked t, Term.coherent_unmarked t, ht⟩
  exact ⟨resting_of_alike Term.robust_truthful hp h,
    resting_of_alike Term.robust_truthful hp h.symm⟩

end Program

end TermRewriting
