import TermRewriting.Proofs.Term.Operations

/-!
# Stamps survive recombination only where they are right

A stamp is put on a node for the structure that the node has. `StampedBy P` says that what a node
remembers is true and that every stamp it carries stands in the relation `P` to its structure. The
property is forgetful, so every operation that puts no stamp on anything keeps it at all nodes
(`every_of_recombined`): copies take the stamps of their nodes along, a look leaves structures as
they are, and an edit takes the stamps off the edited node and off all nodes above it.
-/

namespace TermRewriting

/-- An edit that marks nothing as normal. -/
def Edit.MarksNothing (e : Edit) : Prop := ∀ generation, e ≠ .markNormal generation

namespace Term

/-- A look that puts no stamp on the node. -/
def Look.MarksNothing (look : Look) : Prop := ∀ value, look ≠ .stamp value

/-- The term is what one operation makes of the terms in a pool, without marking anything as
normal. -/
inductive Recombined (pool : List Term) : Term → Prop where
  | atom (a : Atom) : Recombined pool (.atom a)
  /-- A new node. -/
  | built {head : Term} {args : List Term} :
      head ∈ pool → (∀ a ∈ args, a ∈ pool) → Recombined pool (.apply head args)
  /-- A node from a draft. -/
  | drafted {draft : Draft} {t : Term} :
      (∀ part ∈ draft.parts, part ∈ pool) → draft.finish = .ok t → Recombined pool t
  /-- A copy of a node or of a part of one. -/
  | copied {t s : Term} {path : Path} : t ∈ pool → t.at? path = some s → Recombined pool s
  /-- A term with one of its nodes edited. -/
  | edited {t : Term} {e : Edit} (path : Path) : e.MarksNothing →
      t ∈ pool → (∀ a ∈ e.terms, a ∈ pool) → Recombined pool (e.applyAt path t).1
  /-- A term with one of its nodes looked at. -/
  | looked {t : Term} {look : Look} (path : Path) : look.MarksNothing →
      t ∈ pool → Recombined pool (t.observeAt look.effect path)
  /-- The conditional expression that a node with conditional arguments amounts to. -/
  | hoisted {head : Term} {args : List Term} {marks : Marks} {t : Term} :
      .app head args marks ∈ pool → hoisted? head args = some t → Recombined pool t

/-- What the node remembers is true, and every stamp it carries is related to its structure. -/
def StampedBy (P : UInt64 → Term → Prop) (t : Term) : Prop :=
  t.Truthful ∧ ∀ stamp, t.stamp? = some stamp → P stamp t.unmarked

variable {P : UInt64 → Term → Prop}

theorem forgetful_stampedBy (P : UInt64 → Term → Prop) : Forgetful (StampedBy P) where
  truthful := And.left
  built := by
    intro head args
    refine ⟨truthful_apply head args, fun stamp hstamp => ?_⟩
    cases hstamp
  remembering := by
    rintro s t ⟨_, hs⟩ same _ hstamp ht
    refine ⟨ht, fun stamp h => ?_⟩
    rw [same]
    exact hs stamp (hstamp ▸ h)
  remarked := by
    rintro head args marks new ⟨htruthful, hnode⟩ hfingerprint hstamp
    refine ⟨forgetful_truthful.remarked htruthful hfingerprint hstamp, fun stamp h => ?_⟩
    have h : new.stamp = some stamp := h
    rw [unmarked_app, ← unmarked_app head args marks]
    rcases hstamp with hnone | hsame
    · rw [hnone] at h
      cases h
    · exact hnode stamp (hsame.symm.trans h)

/-- **One operation that marks nothing keeps all stamps right.** -/
theorem every_of_recombined {pool : List Term} (hpool : ∀ s ∈ pool, s.Every (StampedBy P))
    {t : Term} (h : Recombined pool t) : t.Every (StampedBy P) := by
  have hQ := forgetful_stampedBy P
  cases h with
  | atom a => exact .atom a
  | built hhead hargs =>
    exact every_apply hQ.toRobust (hpool _ hhead) fun a ha => hpool a (hargs a ha)
  | drafted hparts hfinish =>
    exact every_of_finish hQ.toRobust (fun part hpart => hpool part (hparts part hpart)) hfinish
  | copied ht hs => exact (hpool _ ht).at? hs
  | edited path he ht hterms =>
    exact Edit.every_applyAt hQ _ path (hpool _ ht) (fun a ha => hpool a (hterms a ha))
      fun _ generation _ hmark => absurd hmark (he generation)
  | looked path hlook ht =>
    exact every_observeAt hQ.toRobust (hpool _ ht) (unmarked_effect _) fun _ hs =>
      every_effect hQ.toRobust _ hs fun value hstamp => absurd hstamp (hlook value)
  | hoisted hnode h =>
    obtain ⟨_, hhead, hargs⟩ := every_app.mp (hpool _ hnode)
    exact every_of_hoisted? hQ.toRobust hhead hargs h

theorem StampedBy.mono {P P' : UInt64 → Term → Prop} (hP : ∀ stamp s, P stamp s → P' stamp s)
    {t : Term} (ht : t.StampedBy P) : t.StampedBy P' :=
  ⟨ht.1, fun stamp hstamp => hP stamp _ (ht.2 stamp hstamp)⟩

end Term

end TermRewriting
