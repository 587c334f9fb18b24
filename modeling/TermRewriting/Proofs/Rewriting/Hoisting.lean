import TermRewriting.Proofs.Canonical.Hoisting
import TermRewriting.Proofs.Rewriting.NormalForms
import TermRewriting.Proofs.Rewriting.Price
import TermRewriting.Proofs.Rewriting.Termination

/-!
# Rewriting without definitions

Without definitions a pass over a term in which nothing is marked as normal is its canonical form
(`alike_stepped_canonical`), so that a run cannot change what canonical form does not change
(`Ends.iff_of_rules_eq_nil`). At the end of a run all nodes are canonical.

So whether a run hoists all conditions and loses none can be read off the term that it begins with
(`rewrite_hoisted_iff`). It does unless a condition comes to stand below a head that is no symbol, or
next to a value that is a sequence of more or less than one argument.
-/

namespace TermRewriting

open Rewriter

namespace Term

/-! ## Nodes that no pass leaves alone -/

/-- A truthful node that is not marked as normal. -/
def Unsettled (t : Term) : Prop := t.Truthful ∧ (t.needsEval = true ∨ t.stamp? = none)

theorem robust_unsettled : Robust Unsettled where
  truthful := And.left
  built head args := ⟨truthful_apply head args, .inl rfl⟩
  remembering := by
    rintro s t ⟨_, hs⟩ _ heval hstamp ht
    rw [← heval, ← hstamp] at hs
    exact ⟨ht, hs⟩

variable {table : SymbolTable} {Q : Term → Prop}

/-- The structure of a canonical node does not depend on marks. -/
theorem unmarked_canonicalNode (hQ : Robust Q) {j k : Term} {as bs : List Term}
    (hhead : Alike Q j k) (hargs : AlikeAll Q as bs) (m n : Marks) :
    (canonicalNode table j as m).1.unmarked = (canonicalNode table k bs n).1.unmarked := by
  have hfresh : ∀ (head : Term) (args : List Term) (marks : Marks),
      (canonicalNode table head args marks).1.unmarked
        = (canonicalNode table head args .fresh).1.unmarked := by
    intro head args marks
    unfold canonicalNode
    dsimp only
    split
    · rfl
    · rfl
    · rw [unmarked_app, unmarked_app]
  rw [hfresh j as m, hfresh k bs n]
  exact (Alike.canonicalNode hQ table (hQ.built j as) (hQ.built k bs) hhead hargs).1.same

end Term

namespace Program

variable {p : Program}

/-! ## Passes and runs without definitions -/

theorem sound_of_rules_eq_nil (h : p.rules = []) : p.Sound := by
  intro e he
  rw [h] at he
  cases he

section

variable (h : p.rules = [])

include h

theorem cost_of_rules_eq_nil (t : Term) : p.cost t = 0 :=
  congrArg Budget.used (pass_of_rules_eq_nil h t .boundless)

theorem applied_of_rules_eq_nil (t : Term) : p.applied t = t := by
  rw [applied, outcome, applyTop_of_rules_eq_nil h]
  rfl

/-- **A pass without definitions is canonical form.** -/
theorem alike_stepped_canonical {t : Term} (ht : t.Every Term.Unsettled) :
    Term.Alike Term.Unsettled (p.stepped t) (t.canonical p.table) := by
  have hQ := Term.robust_unsettled
  have hp := sound_of_rules_eq_nil h
  induction t using Term.induct with
  | atom a =>
    have hnone := free_pass_atom (p := p) (b := .boundless) rfl (pass_of_rules_eq_nil h (.atom a) _)
    rw [stepped, outcome, hnone]
    exact Term.alike_atom a
  | app head args marks ihhead ihargs =>
    obtain ⟨_, hhead, hargs⟩ := Term.every_app.mp ht
    have hnormal := Term.Unstamped.not_isNormalUnder (ht.mono fun _ hu => hu.1)
      (ht.mono fun _ hu => hu.2) p.generation
    obtain ⟨m, _, hstepped, _⟩ := alike_stepped_app hp hQ ht hnormal
    obtain ⟨n, hcanonical⟩ := Term.canonical_app p.table head args marks
    have hparts : Term.AlikeAll Term.Unsettled (args.map p.stepped)
        (args.map (Term.canonical p.table)) :=
      List.forall₂_map_left_iff.mpr (List.forall₂_map_right_iff.mpr
        (List.forall₂_same.mpr fun a ha => ihargs a ha (hargs a ha)))
    refine ⟨?_, hstepped.left, ((Term.alike_refl ht).canonical hQ p.table).left⟩
    rw [hstepped.same, applied_of_rules_eq_nil h, hcanonical]
    exact Term.unmarked_canonicalNode hQ (ihhead hhead) hparts m n

/-- **What canonical form does not change, a run without definitions does not change.** -/
theorem Ends.iff_of_rules_eq_nil {P : Term → Prop} (hmarks : ∀ t : Term, P t.unmarked ↔ P t)
    (hcanonical : ∀ t : Term, P (t.canonical p.table) ↔ P t) {limit : Nat} {t : Term} {b : Budget}
    {result : Outcome × Budget} (hends : p.Ends limit t b result) (hb : b.exhausted = false)
    (ht : t.Every Term.Unsettled) {out : Term} (hout : result.1 = .ok out) : P out ↔ P t := by
  have hasked : ∀ u : Term, P u.askedThroughout ↔ P u := fun u => by
    rw [← hmarks, Term.unmarked_askedThroughout, hmarks]
  induction hends with
  | settled _ _ =>
    cases hout
    exact hasked _
  | stopped _ _ => cases hout
  | @again t new b after result hpass hexhausted _ ih =>
    have haskedEvery := ht.askedThroughout Term.robust_unsettled
    have haffords : b.Affords (p.cost t.askedThroughout) := by
      rw [cost_of_rules_eq_nil h]
      exact b.affords_zero
    have hstepped : p.stepped t.askedThroughout = new := by
      rw [pass_of_affords hb haffords] at hpass
      have hnew : outcome (p.pass t.askedThroughout) = some new := congrArg Prod.fst hpass
      rw [stepped, hnew]
      rfl
    have halike := alike_stepped_canonical h haskedEvery
    rw [hstepped] at halike
    calc P out
        ↔ P new := ih hexhausted halike.left hout
      _ ↔ P (t.askedThroughout.canonical p.table) := by rw [← hmarks new, halike.same, hmarks]
      _ ↔ P t := (hcanonical _).trans (hasked t)

end

end Program

namespace Session

/-- **A run without definitions hoists all conditions exactly if the term does.** -/
theorem hoisted_of_rewrite {s : Session} (hnone : ∀ e ∈ s.definitions.entries, e.2 = [])
    (hflat : s.table.isFlat "ConditionalExpression" = false)
    (hordered : s.table.isOrderless "ConditionalExpression" = false) {t : Term} (ht : t.Coherent)
    (hfresh : t.Unstamped) (limit : Nat) :
    ∃ out, (s.rewrite limit t).value = .ok out ∧ (out.Hoisted ↔ t.HoistsFully) := by
  have hrules := rules_eq_nil hnone
  have hends : s.program.Ends limit t ⟨some limit, 0, false⟩
      (value (s.program.settle limit limit t) ⟨some limit, 0, false⟩) :=
    Program.ends_settle limit t rfl rfl (Nat.le_add_left limit 0)
  obtain ⟨v, hv⟩ := hends.ok_of_rules_eq_nil hrules rfl
  have hrewrite : (s.rewrite limit t).value = .ok (v.markNormal s.generation) := by
    rw [value_rewrite, hv]
  refine ⟨_, hrewrite, ?_⟩
  obtain ⟨_, hrests⟩ := resting_of_sound (Program.sound_of_rules_eq_nil hrules)
    (hfresh.trusty ht s.program) hrewrite
  have hcanonical : (v.markNormal s.generation).Every (Term.IsCanonical s.table) :=
    Term.every_isCanonical_iff.mpr fun path u hu =>
      Term.canonicalTop_eq_false_iff.mp (hrests path u hu).canonical
  calc (v.markNormal s.generation).Hoisted
      ↔ (v.markNormal s.generation).HoistsFully := (Term.hoistsFully_iff_hoisted hcanonical).symm
    _ ↔ v.HoistsFully := by
      rw [← Term.hoistsFully_unmarked, Term.unmarked_markNormal, Term.hoistsFully_unmarked]
    _ ↔ t.HoistsFully :=
      hends.iff_of_rules_eq_nil hrules (fun _ => Term.hoistsFully_unmarked)
        (fun _ => Term.hoistsFully_canonical hflat hordered) rfl (Term.Every.and ht hfresh) hv

end Session

namespace Term

/-- Every conditional expression has a value and a condition, neither of them a sequence. -/
def ProperlyConditional (t : Term) : Prop :=
  t.Every fun u => u.isCall "ConditionalExpression" = true →
    u.args.length = 2 ∧ ∀ a ∈ u.args, a.isCall "Sequence" = false

/-- Where conditional expressions are proper, only heads can stop a condition, and only the value that
is left at the top of the term or of a head can be lost. -/
theorem ProperlyConditional.hoistsFully_iff {t : Term} (h : t.ProperlyConditional) :
    t.HoistsFully
      ↔ t.Keeps ∧ t.Every fun u =>
          u.head.Keeps ∧ (u.head.symbolName? = none → ∀ a ∈ u.args, ¬a.Carries) := by
  refine and_congr_right fun _ => ⟨fun hwithin => ?_, fun hheads => ?_⟩
  · exact hwithin.mono fun u hu => ⟨hu.head, hu.parts⟩
  · refine (Every.and h hheads).mono fun u hu => ⟨fun hcall => ?_, hu.2.1, hu.2.2⟩
    obtain ⟨hlength, hspread⟩ := hu.1 hcall
    exact ⟨(sum_places_of_spread hspread).trans hlength,
      fun a ha => keeps_of_not_sequence (hspread a ha)⟩

end Term

namespace Session

/-- **Where hoisting is complete.** Without definitions, and without attributes on
`ConditionalExpression`, rewriting a term without normal-form marks gives a result in which all
conditional expressions have two arguments and stand among the arguments of no other node, if and only
if the term hoists fully. Where its conditional expressions are proper, that is so exactly if no
condition comes to stand in an argument of a head that is no symbol, and none comes to stand at the
top of the term or of a head while its value takes more or less than one place. -/
theorem rewrite_hoisted_iff {s : Session} (hnone : ∀ e ∈ s.definitions.entries, e.2 = [])
    (hflat : s.table.isFlat "ConditionalExpression" = false)
    (hordered : s.table.isOrderless "ConditionalExpression" = false) {t : Term} (ht : t.Coherent)
    (hfresh : t.Unstamped) (limit : Nat) :
    (∃ out, (s.rewrite limit t).value = .ok out ∧ (out.Hoisted ↔ t.HoistsFully))
      ∧ (t.ProperlyConditional →
          (t.HoistsFully
            ↔ t.Keeps ∧ t.Every fun u =>
                u.head.Keeps ∧ (u.head.symbolName? = none → ∀ a ∈ u.args, ¬a.Carries))) :=
  ⟨hoisted_of_rewrite hnone hflat hordered ht hfresh limit, fun h => h.hoistsFully_iff⟩

/-- A sequence of two arguments that gives up its condition within a node, where it is dissolved
before the condition goes further. -/
theorem rewrite_hoisted_iff_within :
    ∃ out, (({} : Session).rewrite 10 (.call "g" [.call "Sequence"
        [.call "ConditionalExpression" [.symbol "a", .symbol "c"], .symbol "b"]])).value = .ok out
      ∧ out.unmarked = .call "ConditionalExpression"
        [.call "g" [.symbol "a", .symbol "b"], .call "And" [.call "And" [.symbol "c"]]]
      ∧ out.Hoisted := by
  have hunmarked : (Term.call "g" [.call "Sequence"
        [.call "ConditionalExpression" [.symbol "a", .symbol "c"], .symbol "b"]]).unmarked
      = .call "g" [.call "Sequence"
        [.call "ConditionalExpression" [.symbol "a", .symbol "c"], .symbol "b"]] := rfl
  have ht := Term.coherent_of_unmarked_eq hunmarked
  have hfresh := hunmarked ▸ Term.unstamped_unmarked _
  obtain ⟨⟨out, hout, hiff⟩, _⟩ := @rewrite_hoisted_iff {} nofun rfl rfl _ ht hfresh 10
  refine ⟨out, hout, ?_, hiff.mpr ⟨fun _ => rfl, ?_⟩⟩
  · cases hout
    rfl
  · rw [Term.hoistsWithin_call (by decide), List.forall_mem_singleton,
      Term.hoistsWithin_call (by decide), Term.forall_mem_pair, Term.hoistsWithin_conditional,
      Term.forall_mem_pair, Term.forall_mem_pair]
    exact ⟨⟨⟨rfl, Term.keeps_atom _, Term.keeps_atom _⟩, .atom _, .atom _⟩, .atom _⟩

/-- The sequence at the top dissolves next to its condition, which is lost then; and a head that is no
symbol keeps the condition of its argument. The conditional expressions are proper in both terms. -/
theorem rewrite_not_hoisted :
    ((Term.call "Sequence" [.call "ConditionalExpression" [.symbol "a", .symbol "c"],
          .symbol "b"]).ProperlyConditional
        ∧ ∃ out, (({} : Session).rewrite 10 (.call "Sequence"
            [.call "ConditionalExpression" [.symbol "a", .symbol "c"], .symbol "b"])).value = .ok out
          ∧ out.unmarked
            = .call "ConditionalExpression" [.symbol "a", .symbol "b", .call "And" [.symbol "c"]]
          ∧ ¬out.Hoisted)
      ∧ (Term.apply (.call "f" [.symbol "x"])
          [.call "ConditionalExpression" [.symbol "a", .symbol "c"]]).ProperlyConditional
        ∧ ∃ out, (({} : Session).rewrite 10 (.apply (.call "f" [.symbol "x"])
            [.call "ConditionalExpression" [.symbol "a", .symbol "c"]])).value = .ok out
          ∧ out.unmarked = .apply (.call "f" [.symbol "x"])
            [.call "ConditionalExpression" [.symbol "a", .symbol "c"]]
          ∧ ¬out.Hoisted := by
  have hpair : (Term.call "ConditionalExpression" [.symbol "a", .symbol "c"]).ProperlyConditional :=
    .app (fun _ => ⟨rfl, by decide⟩) (.atom _) (Term.forall_mem_pair.mpr ⟨.atom _, .atom _⟩)
  refine ⟨⟨?_, _, rfl, rfl, fun h => ?_⟩, ?_, _, rfl, rfl, fun h => ?_⟩
  · exact .app (fun h => absurd h (by decide)) (.atom _)
      (Term.forall_mem_pair.mpr ⟨hpair, .atom _⟩)
  · have hlength := (Term.every_app.mp h).1.1 rfl
    cases hlength
  · refine .app (fun h => absurd h (by decide)) ?_ (List.forall_mem_singleton.mpr hpair)
    exact .app (fun h => absurd h (by decide)) (.atom _) (List.forall_mem_singleton.mpr (.atom _))
  · have hbare := (Term.every_app.mp h).1.2 rfl _ List.mem_cons_self
    cases hbare

end Session

end TermRewriting
