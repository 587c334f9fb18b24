import Mathlib.Data.List.Forall2
import TermRewriting.Proofs.Term.Structure

/-!
# Coherence of remembered fingerprints

A node is truthful when the fingerprint it remembers, if any, is the fingerprint of its structure.
In a coherent term every node is. The fingerprint of a coherent term is then a function of its
structure (`fingerprint_unmarked`), and so is identity (`identical_iff`).

Marks carry more than fingerprints, and invariants about them are properties of applications that
`Every` extends to terms. Those that survive building and remembering are called robust: asking a
term for its fingerprint, or whether it is normal, keeps them.
-/

namespace TermRewriting

namespace Term

/-! ## Marks of a node -/

/-- The fingerprint that the node remembers. -/
def remembered? : Term → Option UInt64
  | .atom _ => none
  | .app _ _ marks => marks.fingerprint

/-- The stamp that the node carries. -/
def stamp? : Term → Option UInt64
  | .atom _ => none
  | .app _ _ marks => marks.stamp

/-- What the node remembers is the fingerprint of its structure. -/
def Truthful (t : Term) : Prop := ∀ f, t.remembered? = some f → f = t.unmarked.fingerprint

/-- Every node is truthful. -/
def Coherent (t : Term) : Prop := t.Every Truthful

@[simp] theorem truthful_apply (head : Term) (args : List Term) : (apply head args).Truthful := by
  intro f h
  cases h

theorem coherent_apply {head : Term} {args : List Term} (hhead : head.Coherent)
    (hargs : ∀ a ∈ args, a.Coherent) : (apply head args).Coherent :=
  .app (truthful_apply head args) hhead hargs

@[simp] theorem coherent_unmarked (t : Term) : t.unmarked.Coherent := by
  induction t using induct with
  | atom a => exact .atom a
  | app head args marks ihhead ihargs =>
    rw [unmarked_app]
    exact coherent_apply ihhead (List.forall_mem_map.mpr ihargs)

/-- A term without any marks is coherent. -/
theorem coherent_of_unmarked_eq {t : Term} (h : t.unmarked = t) : t.Coherent :=
  h ▸ coherent_unmarked t

/-! ## Fingerprints -/

theorem fingerprint_of_forgotten {head : Term} {args : List Term} {marks : Marks}
    (h : marks.fingerprint = none) :
    (Term.app head args marks).fingerprint
      = partsFingerprint (head.fingerprint :: args.map fingerprint) := by
  rw [fingerprint, h, fingerprints_eq_map]

theorem fingerprint_of_remembered {head : Term} {args : List Term} {marks : Marks} {f : UInt64}
    (h : marks.fingerprint = some f) : (Term.app head args marks).fingerprint = f := by
  rw [fingerprint, h]

theorem fingerprint_apply (head : Term) (args : List Term) :
    (apply head args).fingerprint
      = partsFingerprint (head.fingerprint :: args.map fingerprint) :=
  fingerprint_of_forgotten rfl

/-- **The fingerprint of a coherent term is that of its structure.** -/
theorem fingerprint_unmarked {t : Term} (ht : t.Coherent) :
    t.fingerprint = t.unmarked.fingerprint := by
  induction t using induct with
  | atom a => rfl
  | app head args marks ihhead ihargs =>
    obtain ⟨node, hhead, hargs⟩ := every_app.mp ht
    cases hm : marks.fingerprint with
    | some f => rw [fingerprint_of_remembered hm, node f hm]
    | none =>
      have hparts : args.map fingerprint = (args.map unmarked).map fingerprint := by
        rw [List.map_map]
        exact List.map_congr_left fun a ha => ihargs a ha (hargs a ha)
      rw [fingerprint_of_forgotten hm, unmarked_app, fingerprint_apply, ihhead hhead, hparts]

/-- The parts of a node give its fingerprint, however much of them is remembered. -/
theorem fingerprint_unmarked_app {head : Term} {args : List Term} (marks : Marks)
    (hhead : head.Coherent) (hargs : ∀ a ∈ args, a.Coherent) :
    (Term.app head args marks).unmarked.fingerprint
      = partsFingerprint (head.fingerprint :: args.map fingerprint) := by
  rw [← fingerprint_apply, fingerprint_unmarked (coherent_apply hhead hargs), unmarked_app,
    unmarked_app]

/-- A fingerprint is never zero. -/
theorem fingerprint_unmarked_ne_zero (t : Term) : t.unmarked.fingerprint ≠ 0 := by
  cases t with
  | atom a =>
    cases a with
    | symbol name => exact nonzero_ne_zero _
    | integer value => exact nonzero_ne_zero _
    | real value => exact nonzero_ne_zero _
    | string text => exact nonzero_ne_zero _
  | app head args marks =>
    rw [unmarked_app, fingerprint_apply]
    exact nonzero_ne_zero _

/-! ## Identity -/

theorem identicalAll_iff_forall₂ {as bs : List Term} :
    identicalAll as bs = true ↔ List.Forall₂ (fun a b => a.identical b = true) as bs := by
  induction as generalizing bs with
  | nil => cases bs <;> simp [identicalAll]
  | cons a as ih =>
    cases bs with
    | nil => simp [identicalAll]
    | cons b bs => rw [identicalAll, Bool.and_eq_true, ih, List.forall₂_cons]

/-- Every term is identical to itself, whatever its nodes remember. -/
theorem identical_rfl (t : Term) : t.identical t = true := by
  induction t using induct with
  | atom a => simp [identical]
  | app head args marks ihhead ihargs =>
    have hmarks : marks.disagree marks = false := by
      unfold Marks.disagree
      split
      · next a b ha hb => simp [Option.some.inj (ha.symm.trans hb)]
      · rfl
    rw [identical, hmarks, ihhead, identicalAll_iff_forall₂.mpr (List.forall₂_same.mpr ihargs)]
    rfl

theorem identical_app {h k : Term} {as bs : List Term} {m n : Marks}
    (hid : (Term.app h as m).identical (.app k bs n) = true) :
    h.identical k = true ∧ List.Forall₂ (fun a b => a.identical b = true) as bs := by
  rw [identical, Bool.and_eq_true, Bool.and_eq_true, identicalAll_iff_forall₂] at hid
  exact hid.2

/-- Identical terms have one structure. -/
theorem unmarked_eq_of_identical {s t : Term} (h : s.identical t = true) :
    s.unmarked = t.unmarked := by
  induction s using induct generalizing t with
  | atom a =>
    cases t with
    | atom b => simpa [identical] using h
    | app k bs n => cases h
  | app head as m ihhead ihargs =>
    cases t with
    | atom b => cases h
    | app k bs n =>
      obtain ⟨hhead, hargs⟩ := identical_app h
      have hall : as.map unmarked = bs.map unmarked := by
        clear h
        induction hargs with
        | nil => rfl
        | @cons a b as bs hab _ ih =>
          rw [List.map_cons, List.map_cons, ihargs a List.mem_cons_self hab,
            ih fun x hx => ihargs x (List.mem_cons_of_mem _ hx)]
      rw [unmarked_app, unmarked_app, ihhead hhead, hall]

theorem map_unmarked_eq_of_identical {as bs : List Term}
    (h : List.Forall₂ (fun a b => a.identical b = true) as bs) :
    as.map unmarked = bs.map unmarked := by
  rw [← List.forall₂_eq_eq_eq, List.forall₂_map_left_iff, List.forall₂_map_right_iff]
  exact h.imp fun _ _ => unmarked_eq_of_identical

/-- What is identical to an application of a symbol is one too, to identical arguments. -/
theorem callArgs?_of_identical {t : Term} {name : String} {items : List Term} {marks : Marks}
    (hid : t.identical (.app (.symbol name) items marks) = true) :
    ∃ args, t.callArgs? name = some args
      ∧ List.Forall₂ (fun a b => a.identical b = true) args items := by
  cases t with
  | atom a => cases hid
  | app h args m =>
    obtain ⟨hhead, hargs⟩ := identical_app hid
    have hsymbol : h.symbolName? = some name := by
      rw [← symbolName?_unmarked, unmarked_eq_of_identical hhead]
      rfl
    exact ⟨args, by rw [callArgs?_app, if_pos hsymbol], hargs⟩

theorem identicalAll_iff {as bs : List Term}
    (h : ∀ a ∈ as, ∀ b ∈ bs, (a.identical b = true ↔ a.unmarked = b.unmarked)) :
    identicalAll as bs = true ↔ as.map unmarked = bs.map unmarked := by
  induction as generalizing bs with
  | nil => cases bs <;> simp [identicalAll]
  | cons a as ih =>
    cases bs with
    | nil => simp [identicalAll]
    | cons b bs =>
      have hhead := h a List.mem_cons_self b List.mem_cons_self
      have htail := @ih bs fun x hx y hy =>
        h x (List.mem_cons_of_mem _ hx) y (List.mem_cons_of_mem _ hy)
      rw [identicalAll, Bool.and_eq_true, hhead, htail, List.map_cons, List.map_cons,
        List.cons.injEq]

/-- Two truthful nodes of one structure do not disagree about it. -/
theorem disagree_eq_false {h k : Term} {as bs : List Term} {m n : Marks}
    (hm : (Term.app h as m).Truthful) (hn : (Term.app k bs n).Truthful)
    (heq : (Term.app h as m).unmarked = (Term.app k bs n).unmarked) : m.disagree n = false := by
  unfold Marks.disagree
  split
  · next a b ha hb =>
    have : a = b := by rw [hm a ha, hn b hb, heq]
    simp [this]
  · rfl

/-- **Coherent terms are identical exactly if they have one structure.** -/
theorem identical_iff {s t : Term} (hs : s.Coherent) (ht : t.Coherent) :
    s.identical t = true ↔ s.unmarked = t.unmarked := by
  induction s using induct generalizing t with
  | atom a =>
    cases t with
    | atom b => simp [identical]
    | app k bs n => simp [identical]
  | app h as m ihhead ihargs =>
    cases t with
    | atom b => simp [identical]
    | app k bs n =>
      obtain ⟨nodes, hh, has⟩ := every_app.mp hs
      obtain ⟨nodet, hk, hbs⟩ := every_app.mp ht
      have hargs := identicalAll_iff fun a ha b hb => ihargs a ha (has a ha) (hbs b hb)
      constructor
      · intro hid
        rw [identical, Bool.and_eq_true, Bool.and_eq_true] at hid
        rw [unmarked_app, unmarked_app, (ihhead hh hk).mp hid.2.1, hargs.mp hid.2.2]
      · intro heq
        -- fingerprints are compared first, but those that are remembered are true
        have hagree := disagree_eq_false nodes nodet heq
        rw [unmarked_app, unmarked_app] at heq
        injection heq with hheadEq hargsEq _
        rw [identical, hagree, (ihhead hh hk).mpr hheadEq, hargs.mpr hargsEq]
        rfl

theorem identical_comm {s t : Term} (hs : s.Coherent) (ht : t.Coherent) :
    s.identical t = t.identical s := by
  rw [Bool.eq_iff_iff, identical_iff hs ht, identical_iff ht hs, eq_comm]

/-- Coherent terms are identical exactly if their structures are. -/
theorem identical_unmarked {s t : Term} (hs : s.Coherent) (ht : t.Coherent) :
    s.unmarked.identical t.unmarked = s.identical t := by
  apply Bool.eq_iff_iff.mpr
  rw [identical_iff hs ht, identical_iff (coherent_unmarked s) (coherent_unmarked t),
    unmarked_unmarked, unmarked_unmarked]

/-! ## Remembering -/

/-- A property of applications that holds of new nodes, implies truthfulness, and depends on no more
than the structure of a node, its stamp and whether it needs evaluation. -/
structure Robust (Q : Term → Prop) : Prop where
  truthful : ∀ {t}, Q t → t.Truthful
  built : ∀ head args, Q (apply head args)
  remembering : ∀ {s t}, Q s → t.unmarked = s.unmarked → t.needsEval = s.needsEval →
    t.stamp? = s.stamp? → t.Truthful → Q t

theorem robust_truthful : Robust Truthful where
  truthful := id
  built := truthful_apply
  remembering := fun _ _ _ _ ht => ht

/-- A robust property that a node keeps when its fingerprint or its stamp is forgotten, and that does
not depend on whether it needs evaluation. -/
structure Forgetful (Q : Term → Prop) : Prop extends Robust Q where
  remarked : ∀ {head args} {marks new : Marks}, Q (.app head args marks) →
    (new.fingerprint = none ∨ new.fingerprint = marks.fingerprint) →
    (new.stamp = none ∨ new.stamp = marks.stamp) → Q (.app head args new)

theorem forgetful_truthful : Forgetful Truthful where
  toRobust := robust_truthful
  remarked := by
    intro head args marks new hnode hfingerprint _ f hf
    have hf : new.fingerprint = some f := hf
    rw [unmarked_app, ← unmarked_app head args marks]
    rcases hfingerprint with hnone | hsame
    · rw [hnone] at hf
      cases hf
    · rw [hsame] at hf
      exact hnode f hf

variable {Q : Term → Prop}

theorem Every.coherent {t : Term} (hQ : Robust Q) (ht : t.Every Q) : t.Coherent :=
  ht.mono fun _ => hQ.truthful

theorem every_apply {head : Term} {args : List Term} (hQ : Robust Q) (hhead : head.Every Q)
    (hargs : ∀ a ∈ args, a.Every Q) : (apply head args).Every Q :=
  .app (hQ.built head args) hhead hargs

/-- A node that remembers what its coherent parts give is truthful. -/
theorem truthful_of_parts {head : Term} {args : List Term} {marks : Marks}
    (hhead : head.Coherent) (hargs : ∀ a ∈ args, a.Coherent)
    (h : marks.fingerprint = some (partsFingerprint (head.fingerprint :: args.map fingerprint))) :
    (Term.app head args marks).Truthful := by
  intro f hf
  rw [fingerprint_unmarked_app marks hhead hargs]
  exact Option.some.inj (hf.symm.trans h)

theorem memoizedAll_eq_map (args : List Term) : memoizedAll args = args.map memoized := by
  induction args with
  | nil => rfl
  | cons a as ih => rw [memoizedAll, ih, List.map_cons]

@[simp] theorem unmarked_memoized (t : Term) : t.memoized.unmarked = t.unmarked := by
  induction t using induct with
  | atom a => rfl
  | app head args marks ihhead ihargs =>
    rw [memoized]
    split
    · rfl
    · have hargs : args.map (unmarked ∘ memoized) = args.map unmarked :=
        List.map_congr_left ihargs
      rw [unmarked_app, unmarked_app, ihhead, memoizedAll_eq_map, List.map_map, hargs]

/-- Asking for the fingerprint of a term does not change it, be it right or wrong. -/
@[simp] theorem fingerprint_memoized (t : Term) : t.memoized.fingerprint = t.fingerprint := by
  induction t using induct with
  | atom a => rfl
  | app head args marks ihhead ihargs =>
    cases hm : marks.fingerprint with
    | some f => simp [memoized, hm]
    | none =>
      have hargs : args.map (fingerprint ∘ memoized) = args.map fingerprint :=
        List.map_congr_left ihargs
      simp [memoized, fingerprint, hm, ihhead, memoizedAll_eq_map, fingerprints_eq_map, hargs]

@[simp] theorem isNormalUnder_memoized (generation : UInt64) (t : Term) :
    t.memoized.isNormalUnder generation = t.isNormalUnder generation := by
  cases t with
  | atom a => rfl
  | app head args marks =>
    have hf := fingerprint_memoized (.app head args marks)
    cases hm : marks.fingerprint with
    | some f => simp [memoized, hm]
    | none =>
      simp only [memoized, hm] at hf ⊢
      simp only [isNormalUnder, hf]

theorem Every.memoized {t : Term} (hQ : Robust Q) (ht : t.Every Q) : t.memoized.Every Q := by
  induction t using induct with
  | atom a => exact .atom a
  | app head args marks ihhead ihargs =>
    have same := unmarked_memoized (Term.app head args marks)
    obtain ⟨node, hhead, hargs⟩ := every_app.mp ht
    cases hm : marks.fingerprint with
    | some f =>
      rw [Term.memoized, hm]
      exact ht
    | none =>
      rw [Term.memoized, hm] at same ⊢
      have hhead' := ihhead hhead
      have hargs' : ∀ b ∈ memoizedAll args, b.Every Q := by
        rw [memoizedAll_eq_map]
        exact List.forall_mem_map.mpr fun a ha => ihargs a ha (hargs a ha)
      refine .app ?_ hhead' hargs'
      exact hQ.remembering node same rfl rfl
        (truthful_of_parts (hhead'.coherent hQ) (fun b hb => (hargs' b hb).coherent hQ) rfl)

@[simp] theorem unmarked_askedNormal (t : Term) : t.askedNormal.unmarked = t.unmarked := by
  unfold askedNormal
  split
  · rfl
  · exact unmarked_memoized t

theorem Every.askedNormal {t : Term} (hQ : Robust Q) (ht : t.Every Q) :
    t.askedNormal.Every Q := by
  unfold Term.askedNormal
  split
  · exact ht
  · exact ht.memoized hQ

theorem askedThroughoutAll_eq_map (args : List Term) :
    askedThroughoutAll args = args.map askedThroughout := by
  induction args with
  | nil => rfl
  | cons a as ih => rw [askedThroughoutAll, ih, List.map_cons]

@[simp] theorem unmarked_askedThroughout (t : Term) :
    t.askedThroughout.unmarked = t.unmarked := by
  induction t using induct with
  | atom a => rfl
  | app head args marks ihhead ihargs =>
    rw [askedThroughout]
    split
    · have hargs : args.map (unmarked ∘ askedThroughout) = args.map unmarked :=
        List.map_congr_left ihargs
      rw [unmarked_app, unmarked_app, ihhead, askedThroughoutAll_eq_map, List.map_map, hargs]
    · exact unmarked_memoized _

theorem Every.askedThroughout {t : Term} (hQ : Robust Q) (ht : t.Every Q) :
    t.askedThroughout.Every Q := by
  induction t using induct with
  | atom a => exact .atom a
  | app head args marks ihhead ihargs =>
    have same := unmarked_askedThroughout (Term.app head args marks)
    obtain ⟨node, hhead, hargs⟩ := every_app.mp ht
    cases he : marks.needsEval with
    | false =>
      rw [Term.askedThroughout, if_neg (by simp [he])]
      exact ht.memoized hQ
    | true =>
      rw [Term.askedThroughout, if_pos he] at same ⊢
      have htruthful :
          (Term.app head.askedThroughout (askedThroughoutAll args) marks).Truthful := by
        intro f hf
        rw [same]
        exact hQ.truthful node f hf
      refine .app (hQ.remembering node same rfl rfl htruthful) (ihhead hhead) ?_
      rw [askedThroughoutAll_eq_map]
      exact List.forall_mem_map.mpr fun a ha => ihargs a ha (hargs a ha)

/-! ## Marking -/

theorem markNormalAll_eq_map (generation : UInt64) (args : List Term) :
    markNormalAll generation args = args.map (markNormal generation) := by
  induction args with
  | nil => rfl
  | cons a as ih => rw [markNormalAll, ih, List.map_cons]

@[simp] theorem unmarked_markNormal (generation : UInt64) (t : Term) :
    (t.markNormal generation).unmarked = t.unmarked := by
  induction t using induct with
  | atom a => rfl
  | app head args marks ihhead ihargs =>
    have hargs : args.map (unmarked ∘ markNormal generation) = args.map unmarked :=
      List.map_congr_left ihargs
    rw [markNormal, unmarked_app, unmarked_app, ihhead, markNormalAll_eq_map, List.map_map, hargs]

/-- The node is marked as normal under a generation, its fingerprint being that of its structure. -/
def MarkedNormal (generation : UInt64) (t : Term) : Prop :=
  t.needsEval = false ∧ t.stamp? = some (evaluationStamp t.unmarked.fingerprint generation)

/-- What a node of a coherent term answers is what it is marked as. -/
theorem isNormalUnder_app {head : Term} {args : List Term} {marks : Marks}
    (ht : (Term.app head args marks).Coherent) (generation : UInt64) :
    (Term.app head args marks).isNormalUnder generation = true
      ↔ (Term.app head args marks).MarkedNormal generation := by
  have hf := fingerprint_unmarked ht
  simp [isNormalUnder, MarkedNormal, needsEval, stamp?, hf]

/-- **Marking keeps a term coherent and marks every application in it.** -/
theorem every_markNormal (generation : UInt64) {t : Term} (ht : t.Coherent) :
    (t.markNormal generation).Every fun s => s.Truthful ∧ s.MarkedNormal generation := by
  induction t using induct with
  | atom a => exact .atom a
  | app head args marks ihhead ihargs =>
    have same := unmarked_markNormal generation (Term.app head args marks)
    obtain ⟨node, hhead, hargs⟩ := every_app.mp ht
    have hhead' := ihhead hhead
    have hargs' : ∀ b ∈ markNormalAll generation args,
        b.Every fun s => s.Truthful ∧ s.MarkedNormal generation := by
      rw [markNormalAll_eq_map]
      exact List.forall_mem_map.mpr fun a ha => ihargs a ha (hargs a ha)
    have hcoherent : ∀ {s : Term}, (s.Every fun s => s.Truthful ∧ s.MarkedNormal generation) →
        s.Coherent := fun h => h.mono fun _ => And.left
    -- the fingerprint that goes into the stamp is the true one, remembered or not
    obtain ⟨f, heq, hf⟩ : ∃ f, Term.markNormal generation (.app head args marks)
          = .app (head.markNormal generation) (markNormalAll generation args)
            ⟨false, some f, some (evaluationStamp f generation)⟩
        ∧ f = (Term.app head args marks).unmarked.fingerprint := by
      cases hm : marks.fingerprint with
      | some f => exact ⟨f, by rw [markNormal, hm], node f hm⟩
      | none =>
        refine ⟨_, by rw [markNormal, hm], ?_⟩
        rw [← same]
        exact (fingerprint_unmarked_app _ (hcoherent hhead')
          fun b hb => hcoherent (hargs' b hb)).symm
    rw [heq] at same ⊢
    refine .app ⟨?_, rfl, ?_⟩ hhead' hargs'
    · intro g hg
      rw [same, ← hf]
      exact (Option.some.inj hg).symm
    · rw [same, ← hf]
      rfl

theorem coherent_markNormal (generation : UInt64) {t : Term} (ht : t.Coherent) :
    (t.markNormal generation).Coherent :=
  (every_markNormal generation ht).mono fun _ => And.left

end Term

end TermRewriting
