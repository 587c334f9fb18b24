import TermRewriting.Proofs.Canonical.Throughout
import TermRewriting.Proofs.Rewriting.Lookup
import TermRewriting.Proofs.Rewriting.Loops
import TermRewriting.Proofs.Rewriting.Price

/-!
# The order of orderless arguments does not matter

Terms are reordered when they differ in the order of the arguments of orderless symbols, at any
depth (`Term.Reordered`). A pass over such terms goes through the same parts, though in different
orders. At each node canonical form sorts the new arguments, whether or not they were in order
before, and sorting leaves the same list (`alikeAll_changedArgs?_of_perm`). So definitions are applied
to alike nodes, and after one pass the terms are alike (`alike_stepped`).

On a budget the passes may stop at different places. But they have one price, so both are paid for
in full or both exhaust the budget; and from alike terms runs come to the same.
-/

namespace TermRewriting

open Rewriter

namespace Term

/-! ## Canonical form under an orderless symbol -/

theorem flattenedArgs_perm (table : SymbolTable) (name : String) {as bs : List Term}
    (h : as.Perm bs) : (flattenedArgs table name as).Perm (flattenedArgs table name bs) := by
  unfold flattenedArgs spliced
  split
  · exact (h.flatMap_right _).flatMap_right _
  · exact h.flatMap_right _

variable {Q : Term → Prop}

theorem AlikeAll.flattenedArgs (table : SymbolTable) (name : String) {as bs : List Term}
    (h : AlikeAll Q as bs) :
    AlikeAll Q (flattenedArgs table name as) (flattenedArgs table name bs) := by
  unfold Term.flattenedArgs
  split
  · exact (h.spliced "Sequence").spliced name
  · exact h.spliced "Sequence"

/-- **Reordered arguments of an orderless symbol become alike.** -/
theorem alikeAll_changedArgs?_of_perm {table : SymbolTable} {name : String}
    (h : table.isOrderless name = true) {as bs cs : List Term} (hall : AlikeAll Q as bs)
    (hcs : ∀ c ∈ cs, c.Every Q) (hperm : bs.Perm cs) :
    AlikeAll Q (keepOr as (changedArgs? table (.symbol name) as))
      (keepOr cs (changedArgs? table (.symbol name) cs)) := by
  rw [keepOr_changedArgs?, keepOr_changedArgs?, if_pos h, if_pos h]
  -- from the first arguments to their counterparts, and from these to the permuted ones
  have hleft := (hall.flattenedArgs table name).sortedArgs
  have hright := ((alikeAll_refl hcs).flattenedArgs table name).sortedArgs
  refine hleft.trans
    (alikeAll_iff.mpr ⟨?_, (alikeAll_iff.mp hleft).2.2, (alikeAll_iff.mp hright).2.1⟩)
  exact map_unmarked_sortedArgs_of_perm ((flattenedArgs_perm table name hperm).map unmarked)

/-! ## Reordered terms -/

/-- The second term is the first with the arguments of any nodes permuted, at any depth, whose heads
are symbols with the property. What nodes remember may differ. -/
inductive Reordered (P : String → Prop) : Term → Term → Prop where
  | atom (a : Atom) : Reordered P (.atom a) (.atom a)
  | app {h k : Term} {as bs : List Term} (m n : Marks) : Reordered P h k →
      List.Forall₂ (Reordered P) as bs → Reordered P (.app h as m) (.app k bs n)
  | permuted {name : String} {as bs cs : List Term} (m n : Marks) : P name →
      List.Forall₂ (Reordered P) as bs → bs.Perm cs →
      Reordered P (.app (.symbol name) as m) (.app (.symbol name) cs n)

theorem Reordered.mono {P S : String → Prop} (hPS : ∀ name, P name → S name) {s t : Term}
    (h : Reordered P s t) : Reordered S s t := by
  induction s using induct generalizing t with
  | atom a =>
    cases h
    exact .atom a
  | app head args marks ihhead ihargs =>
    have parts : ∀ {bs}, List.Forall₂ (Reordered P) args bs → List.Forall₂ (Reordered S) args bs :=
      fun hargs => ((List.forall₂_and_left _ _).mpr
        ⟨fun a ha t (hat : Reordered P a t) => ihargs a ha hat, hargs⟩).imp
          fun _ b hab => hab.1 b hab.2
    cases h with
    | app _ _ hhead hargs => exact .app _ _ (ihhead hhead) (parts hargs)
    | permuted _ _ hname hargs hperm => exact .permuted _ _ (hPS _ hname) (parts hargs) hperm

end Term

namespace Program

variable {p : Program}

/-- The symbol is orderless, and has no definitions of its own. -/
def Reorders (p : Program) (name : String) : Prop :=
  p.table.isOrderless name = true ∧ p.rules.lookup (.own, name) = none

theorem pass_of_reorders {name : String} (h : p.Reorders name) (b : Budget) :
    value (p.pass (.symbol name)) b = (none, b) := by
  have hnone : p.definitionsFor (.symbol name) = [] := by
    simp [definitionsFor, Term.definitionKeys, h.2]
  rw [pass, applyTop, hnone]
  rfl

theorem stepped_of_reorders {name : String} (h : p.Reorders name) :
    p.stepped (.symbol name) = .symbol name := by
  rw [stepped, outcome, pass_of_reorders h]
  rfl

/-- Alike terms have alike results of their definitions, at one price. -/
theorem alike_applied (hp : p.Sound) {Q : Term → Prop} (hQ : Term.Robust Q) {s t : Term}
    (h : Term.Alike Q s t) :
    Term.Alike Q (p.applied s) (p.applied t) ∧ price (p.applyTop s) = price (p.applyTop t) := by
  obtain ⟨happlied, hafter⟩ := agree_applyTop hp hQ h .boundless
  exact ⟨optionRel_getD happlied.1 h, congrArg Budget.used hafter⟩

/-- What becomes of the parts of reordered terms, and what it costs together. -/
theorem alike_stepped_parts {Q P} {as bs : List Term} (h : List.Forall₂ (Term.Reordered P) as bs)
    (ih : ∀ a ∈ as, ∀ b ∈ bs, Term.Reordered P a b →
      Term.Alike Q (p.stepped a) (p.stepped b) ∧ p.cost a = p.cost b) :
    Term.AlikeAll Q (as.map p.stepped) (bs.map p.stepped)
      ∧ (as.map p.cost).sum = (bs.map p.cost).sum := by
  induction h with
  | nil => exact ⟨.nil, rfl⟩
  | @cons a b as bs hab _ ihrest =>
    obtain ⟨halike, hcost⟩ := ih a List.mem_cons_self b List.mem_cons_self hab
    obtain ⟨hall, hsum⟩ := ihrest fun x hx y hy =>
      ih x (List.mem_cons_of_mem a hx) y (List.mem_cons_of_mem b hy)
    refine ⟨.cons halike hall, ?_⟩
    rw [List.map_cons, List.map_cons, List.sum_cons, List.sum_cons, hcost, hsum]

/-- Nodes that a pass does not leave alone come to the same if their parts cost the same and what
canonical form makes of the new parts is alike. -/
theorem alike_stepped_nodes (hp : p.Sound) {Q : Term → Prop} (hQ : Term.Robust Q) {j k : Term}
    {as bs : List Term} {m n : Marks} (hs : (Term.app j as m).Every Q)
    (ht : (Term.app k bs n).Every Q)
    (hnormal : ¬(Term.app j as m).isNormalUnder p.generation = true)
    (hnormal' : ¬(Term.app k bs n).isNormalUnder p.generation = true)
    (hcost : p.cost j = p.cost k) (hsum : (as.map p.cost).sum = (bs.map p.cost).sum)
    (hnode : ∀ m n, (Term.app (p.stepped j) (as.map p.stepped) m).Every Q →
      (Term.app (p.stepped k) (bs.map p.stepped) n).Every Q →
      Term.Alike Q (Term.canonicalNode p.table (p.stepped j) (as.map p.stepped) m).1
        (Term.canonicalNode p.table (p.stepped k) (bs.map p.stepped) n).1) :
    Term.Alike Q (p.stepped (.app j as m)) (p.stepped (.app k bs n))
      ∧ p.cost (.app j as m) = p.cost (.app k bs n) := by
  obtain ⟨m', hleft, hresult, hpaid⟩ := alike_stepped_app hp hQ hs hnormal
  obtain ⟨n', hright, hresult', hpaid'⟩ := alike_stepped_app hp hQ ht hnormal'
  obtain ⟨happlied, hprice⟩ := alike_applied hp hQ (hnode m' n' hleft hright)
  exact ⟨hresult.trans (happlied.trans hresult'.symm), by rw [hpaid, hpaid', hcost, hsum, hprice]⟩

/-- **After one pass the order is gone:** a pass turns reordered terms into alike ones, at one
price. -/
theorem alike_stepped (hp : p.Sound) {s t : Term} (h : Term.Reordered p.Reorders s t)
    (hs : s.Coherent) (ht : t.Coherent) (hsfresh : s.Unstamped) (htfresh : t.Unstamped) :
    Term.Alike p.Trusty (p.stepped s) (p.stepped t) ∧ p.cost s = p.cost t := by
  have hQ := robust_trusty p
  induction s using Term.induct generalizing t with
  | atom a =>
    cases h
    exact ⟨Term.alike_refl (every_stepped hp hQ (.atom a)), rfl⟩
  | app j as m ihhead ihargs =>
    have hnormal := hsfresh.not_isNormalUnder hs p.generation
    have hstrusty := hsfresh.trusty hs p
    obtain ⟨_, hj, has⟩ := Term.every_app.mp hs
    obtain ⟨_, hjfresh, hasfresh⟩ := Term.every_app.mp hsfresh
    cases h with
    | @app _ k _ bs _ n hhead hargs =>
      have hnormal' := htfresh.not_isNormalUnder ht p.generation
      obtain ⟨_, hk, hbs⟩ := Term.every_app.mp ht
      obtain ⟨_, hkfresh, hbsfresh⟩ := Term.every_app.mp htfresh
      obtain ⟨hheads, hcost⟩ := ihhead hhead hj hk hjfresh hkfresh
      obtain ⟨hall, hsum⟩ := alike_stepped_parts hargs fun a ha b hb hab =>
        ihargs a ha hab (has a ha) (hbs b hb) (hasfresh a ha) (hbsfresh b hb)
      refine alike_stepped_nodes hp hQ hstrusty (htfresh.trusty ht p) hnormal hnormal' hcost hsum ?_
      intro m n hm hn
      exact Term.alike_canonicalNode hQ hm hn hheads
        (optionRel_getD (hall.changedArgs? p.table hheads) hall)
    | @permuted name _ bs cs _ n hname hargs hperm =>
      have hnormal' := htfresh.not_isNormalUnder ht p.generation
      have httrusty := htfresh.trusty ht p
      obtain ⟨_, _, hcs⟩ := Term.every_app.mp ht
      obtain ⟨_, _, hcsfresh⟩ := Term.every_app.mp htfresh
      obtain ⟨_, _, hcstrusty⟩ := Term.every_app.mp httrusty
      obtain ⟨hall, hsum⟩ := alike_stepped_parts hargs fun a ha b hb hab =>
        ihargs a ha hab (has a ha) (hcs b (hperm.mem_iff.mp hb)) (hasfresh a ha)
          (hcsfresh b (hperm.mem_iff.mp hb))
      have hsum' := hsum.trans (hperm.map p.cost).sum_nat
      refine alike_stepped_nodes hp hQ hstrusty httrusty hnormal hnormal' rfl hsum' ?_
      intro m n hm hn
      have hsymbol := Term.alike_refl (every_stepped hp hQ (t := .symbol name) (.atom _))
      refine Term.alike_canonicalNode hQ hm hn hsymbol ?_
      rw [stepped_of_reorders hname]
      exact Term.alikeAll_changedArgs?_of_perm hname.1 hall
        (List.forall_mem_map.mpr fun c hc => every_stepped hp hQ (hcstrusty c hc))
        (hperm.map p.stepped)

/-- The same for terms whose nodes were asked whether they are normal, as a run does first. -/
theorem alike_stepped_asked (hp : p.Sound) {s t : Term} (h : Term.Reordered p.Reorders s t)
    (hs : s.Coherent) (ht : t.Coherent) (hsfresh : s.Unstamped) (htfresh : t.Unstamped) :
    Term.Alike p.Trusty (p.stepped s.askedThroughout) (p.stepped t.askedThroughout)
      ∧ p.cost s.askedThroughout = p.cost t.askedThroughout := by
  have asked : ∀ {u : Term}, u.Every p.Trusty →
      Term.Alike p.Trusty (p.stepped u) (p.stepped u.askedThroughout)
        ∧ p.cost u = p.cost u.askedThroughout := by
    intro u hu
    have halike := Term.alike_askedThroughout (robust_trusty p) hu
    obtain ⟨hnew, hafter⟩ := agree_pass hp halike .boundless
    exact ⟨optionRel_getD hnew halike, congrArg Budget.used hafter⟩
  obtain ⟨halike, hcost⟩ := alike_stepped hp h hs ht hsfresh htfresh
  obtain ⟨hsame, hsame'⟩ := asked (hsfresh.trusty hs p)
  obtain ⟨htame, htame'⟩ := asked (htfresh.trusty ht p)
  exact ⟨hsame.symm.trans (halike.trans htame), by rw [← hsame', hcost, htame']⟩

/-! ## Runs -/

/-- **Loops from reordered terms come to the same:** either the budget does not afford the first
pass, or what follows it starts from alike terms on one budget. -/
theorem Ends.sameOutcome_of_reordered (hp : p.Sound) {limit : Nat} {s t : Term} {b : Budget}
    (hb : b.exhausted = false) {result result' : Outcome × Budget} (hends : p.Ends limit s b result)
    (hends' : p.Ends limit t b result') (h : Term.Reordered p.Reorders s t) (hs : s.Coherent)
    (ht : t.Coherent) (hsfresh : s.Unstamped) (htfresh : t.Unstamped) :
    SameOutcome (Term.Alike p.Trusty) result.1 result'.1 := by
  obtain ⟨halike, hcost⟩ := alike_stepped_asked hp h hs ht hsfresh htfresh
  by_cases hafford : b.Affords (p.cost s.askedThroughout)
  · obtain ⟨_, hrest, hsame⟩ :=
      hends.exists_afterPass hp (hsfresh.trusty hs p) (pass_of_affords hb hafford) hb
    rw [hcost] at hafford hrest
    obtain ⟨_, hrest', hsame'⟩ :=
      hends'.exists_afterPass hp (htfresh.trusty ht p) (pass_of_affords hb hafford) hb
    exact hsame.trans ((hrest.sameOutcome hp halike hrest').trans hsame'.symm)
  · have hunpaid := pass_of_not_affords hb hafford
    rw [hcost] at hafford
    have hunpaid' := pass_of_not_affords hb hafford
    rcases hends.afterPass rfl with ⟨_, rfl⟩ | ⟨hpaid, _⟩
    · rcases hends'.afterPass rfl with ⟨_, rfl⟩ | ⟨hpaid', _⟩
      · exact .error _
      · exact absurd (hpaid'.symm.trans hunpaid') Bool.false_ne_true
    · exact absurd (hpaid.symm.trans hunpaid) Bool.false_ne_true

end Program

namespace Session

variable {s : Session}

/-- The arguments of the symbol may be reordered: it is orderless, and has no own values. -/
def Reorders (s : Session) (name : String) : Prop :=
  s.table.isOrderless name = true ∧ s.definitions.rules? .own name = none

theorem reorders_program (hs : s.Reachable) {name : String} (h : s.Reorders name) :
    s.program.Reorders name := by
  refine ⟨h.1, ?_⟩
  rw [lookup_program_eq hs]
  cases hlookup : s.definitions.entries.lookup (.own, name) with
  | none => rfl
  | some rules =>
    have hrules := hs.rules_ne_nil _ (mem_of_lookup_eq_some hlookup)
    have hnone := h.2
    unfold Definitions.rules? at hnone
    rw [hlookup] at hnone
    cases rules with
    | nil => exact absurd rfl hrules
    | cons rule rest => cases hnone

/-- **Rewriting ignores the order of orderless arguments.** Of two terms without normal-form marks
that differ in the order of the arguments of such symbols, both exceed the limit or both have
results, and these are identical. -/
theorem rewrite_reordered (hs : s.Reachable) {t t' : Term} (h : t.Reordered s.Reorders t')
    (ht : t.Coherent) (ht' : t'.Coherent) (hfresh : t.Unstamped) (hfresh' : t'.Unstamped)
    (limit : Nat) :
    ((s.rewrite limit t).value = .error (.iterationLimit limit)
        ∧ (s.rewrite limit t').value = .error (.iterationLimit limit))
      ∨ ∃ out out', (s.rewrite limit t).value = .ok out ∧ (s.rewrite limit t').value = .ok out'
          ∧ out.identical out' = true := by
  have hp := program_sound hs.wellFiled
  have hends : ∀ u, s.program.Ends limit u ⟨some limit, 0, false⟩
      (value (s.program.settle limit limit u) ⟨some limit, 0, false⟩) :=
    fun u => Program.ends_settle limit u rfl rfl (Nat.le_add_left limit 0)
  have hsame := (hends t).sameOutcome_of_reordered hp rfl (hends t')
    (h.mono fun _ => reorders_program hs) ht ht' hfresh hfresh'
  have herror := (hends t).ok_or_overLimit
  rw [value_rewrite, value_rewrite]
  generalize (value (s.program.settle limit limit t) ⟨some limit, 0, false⟩).1 = x
    at hsame herror
  generalize (value (s.program.settle limit limit t') ⟨some limit, 0, false⟩).1 = y at hsame
  cases hsame with
  | error e =>
    rcases herror with ⟨v, hv⟩ | hlimit
    · cases hv
    · cases hlimit
      exact .inl ⟨rfl, rfl⟩
  | @ok v v' halike =>
    right
    have hQ := Program.robust_trusty s.program
    refine ⟨_, _, rfl, rfl, (Term.identical_iff ?_ ?_).mpr ?_⟩
    · exact Term.coherent_markNormal s.generation (halike.left.coherent hQ)
    · exact Term.coherent_markNormal s.generation (halike.right.coherent hQ)
    · rw [Term.unmarked_markNormal, Term.unmarked_markNormal, halike.same]

/-- Arguments that are permuted inside an argument and around it. -/
theorem rewrite_reordered_nested :
    ∃ s out, Reachable s
      ∧ (Term.call "f" [.integer 1, .call "f" [.symbol "a", .symbol "b"]]).Reordered s.Reorders
          (.call "f" [.call "f" [.symbol "b", .symbol "a"], .integer 1])
      ∧ (s.rewrite 1 (.call "f" [.integer 1, .call "f" [.symbol "a", .symbol "b"]])).value = .ok out
      ∧ out.unmarked = .call "f" [.symbol "a", .symbol "b"]
      ∧ ∃ out', (s.rewrite 1 (.call "f" [.call "f" [.symbol "b", .symbol "a"], .integer 1])).value
            = .ok out'
          ∧ out.identical out' = true := by
  have hstart : Reachable (({} : Session).setAttributes "f" .orderless) := .setAttributes _ _ .start
  have hs := @Reachable.define _ _ ⟨.call "f" [.integer 1, .call "NamedBlank" [.symbol "x"]],
    .symbol "x", false⟩ hstart (Term.coherent_of_unmarked_eq rfl) rfl
  have h : ∀ {P : String → Prop}, P "f" →
      (Term.call "f" [.integer 1, .call "f" [.symbol "a", .symbol "b"]]).Reordered P
        (.call "f" [.call "f" [.symbol "b", .symbol "a"], .integer 1]) := fun hf =>
    .permuted _ _ hf (.cons (.atom _) (.cons (.permuted _ .fresh hf
      (.cons (.atom _) (.cons (.atom _) .nil)) (.swap _ _ _)) .nil)) (.swap _ _ _)
  have fresh : ∀ {t : Term}, t.unmarked = t → t.Unstamped :=
    fun hsame => hsame ▸ Term.unstamped_unmarked _
  have hresult := rewrite_reordered hs (h ⟨rfl, rfl⟩) (Term.coherent_of_unmarked_eq rfl)
    (Term.coherent_of_unmarked_eq rfl) (fresh rfl) (fresh rfl) 1
  refine ⟨_, _, hs, h ⟨rfl, rfl⟩, rfl, rfl, ?_⟩
  rcases hresult with ⟨hlimit, _⟩ | ⟨out, out', hout, hout', hidentical⟩
  · cases hlimit
  · cases hout
    exact ⟨out', hout', hidentical⟩

end Session

end TermRewriting
