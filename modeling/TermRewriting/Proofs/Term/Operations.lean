import TermRewriting.Equality
import TermRewriting.Proofs.Term.Coherence
import TermRewriting.Term.Draft

/-!
# Operations on terms keep them coherent

A program holds terms and makes new ones from them: it builds nodes, copies nodes, edits a node
through the nodes above it, looks at a node in place. `Made pool t` says that one such operation on
the terms in `pool` gives `t`, and `Reachable` pools are those that any sequence of operations leads
to. An edited term stands beside the term it was made from, as an edit of a copy would.

One operation on coherent terms gives a coherent term (`coherent_of_made`), so all terms of a
reachable pool are coherent (`Reachable.coherent`): every node remembers nothing or the
fingerprint of its structure, which is never zero.

## Why edits and looks differ

An edit changes the structure below the nodes above it, so these must forget. A look changes only
what the node and the nodes below it remember, so the nodes above keep what they know, and are still
right because the structure below them is the same.
-/

namespace TermRewriting

namespace Term

/-! ## Changes at a path -/

/-- What is in a list in which one value was changed. -/
theorem mem_or_eq_of_mem_modify {α : Type} {i : Nat} {change : α → α} {l : List α} {b : α}
    (h : b ∈ l.modify i change) : b ∈ l ∨ ∃ a, l[i]? = some a ∧ b = change a := by
  obtain ⟨j, hj⟩ := List.getElem?_of_mem h
  rw [List.getElem?_modify] at hj
  obtain ⟨a, ha, rfl⟩ := Option.map_eq_some_iff.mp hj
  split
  · next hij =>
    subst hij
    exact .inr ⟨a, ha, rfl⟩
  · exact .inl (List.mem_of_getElem? ha)

variable {Q : Term → Prop}

/-- An edit that leaves a robust property of a node leaves it of the term: the nodes above start
anew. -/
theorem every_editAt (hQ : Robust Q) {change : Term → Term} {path : Path} {t : Term}
    (ht : t.Every Q) (hchange : ∀ s, t.at? path = some s → (change s).Every Q) :
    (t.editAt change path).Every Q := by
  induction path generalizing t with
  | nil => exact hchange t rfl
  | cons d path ih =>
    cases t with
    | atom a =>
      cases d with
      | toHead => exact .atom a
      | toArg i => exact .atom a
    | app head args marks =>
      obtain ⟨_, hhead, hargs⟩ := every_app.mp ht
      cases d with
      | toHead => exact every_apply hQ (ih hhead hchange) hargs
      | toArg i =>
        refine every_apply hQ hhead fun b hb => ?_
        rcases mem_or_eq_of_mem_modify hb with hb | ⟨a, ha, rfl⟩
        · exact hargs b hb
        · refine ih (hargs a (List.mem_of_getElem? ha)) fun s hs => hchange s ?_
          rw [at?_app_toArg, ha]
          exact hs

/-- A look does not change the structure of the term. -/
theorem unmarked_observeAt {change : Term → Term} (hchange : ∀ s, (change s).unmarked = s.unmarked)
    (path : Path) (t : Term) : (t.observeAt change path).unmarked = t.unmarked := by
  induction path generalizing t with
  | nil => exact hchange t
  | cons d path ih =>
    cases t with
    | atom a => cases d <;> rfl
    | app head args marks =>
      cases d with
      | toHead =>
        show (Term.app (head.observeAt change path) args marks).unmarked = _
        rw [unmarked_app, unmarked_app, ih]
      | toArg i =>
        show (Term.app head (args.modify i (observeAt change path)) marks).unmarked = _
        rw [unmarked_app, unmarked_app]
        congr 1
        apply List.ext_getElem?
        intro j
        rw [List.getElem?_map, List.getElem?_map, List.getElem?_modify]
        cases args[j]? with
        | none => rfl
        | some a =>
          split
          · exact congrArg some (ih a)
          · rfl

theorem every_observeAt (hQ : Robust Q) {change : Term → Term} {path : Path} {t : Term}
    (ht : t.Every Q) (hsame : ∀ s, (change s).unmarked = s.unmarked)
    (hchange : ∀ s, s.Every Q → (change s).Every Q) : (t.observeAt change path).Every Q := by
  induction path generalizing t with
  | nil => exact hchange t ht
  | cons d path ih =>
    cases t with
    | atom a => cases d <;> exact .atom a
    | app head args marks =>
      -- the node keeps what it remembers, and its structure is what it was
      have same := unmarked_observeAt hsame (d :: path) (Term.app head args marks)
      obtain ⟨node, hhead, hargs⟩ := every_app.mp ht
      have kept : ∀ {head' args'},
          (Term.app head' args' marks).unmarked = (Term.app head args marks).unmarked →
            Q (.app head' args' marks) := by
        intro head' args' same
        refine hQ.remembering node same rfl rfl fun f hf => ?_
        rw [same]
        exact hQ.truthful node f hf
      cases d with
      | toHead => exact .app (kept same) (ih hhead) hargs
      | toArg i =>
        refine .app (kept same) hhead fun b hb => ?_
        rcases mem_or_eq_of_mem_modify hb with hb | ⟨a, ha, rfl⟩
        · exact hargs b hb
        · exact ih (hargs a (List.mem_of_getElem? ha))

/-! ## Looks -/

/-- A question about a node that is answered in place. -/
inductive Look where
  /-- What is its fingerprint? -/
  | fingerprint
  /-- Is it normal? -/
  | normality
  /-- Is it equal to another term? -/
  | equality (other : Term)
  /-- Not a question: the node is stamped, which nodes that are only read allow. -/
  | stamp (value : UInt64)

/-- What a look leaves behind. -/
def Look.effect : Look → Term → Term
  | .fingerprint => memoized
  | .normality => askedNormal
  | .equality other => fun t => t.askedEqual other
  | .stamp value => stamped value

theorem unmarked_stamped (value : UInt64) (t : Term) : (t.stamped value).unmarked = t.unmarked := by
  cases t with
  | atom a => rfl
  | app head args marks => rw [stamped, unmarked_app, unmarked_app]

theorem coherent_stamped (value : UInt64) {t : Term} (ht : t.Coherent) :
    (t.stamped value).Coherent := by
  cases ht with
  | atom a => exact .atom a
  | app node hhead hargs =>
    refine .app ?_ hhead hargs
    intro f hf
    rw [← stamped, unmarked_stamped]
    exact node f hf

/-- Asking for equality at most memoizes. -/
theorem askedEqual_eq (t other : Term) :
    t.askedEqual other = t ∨ t.askedEqual other = t.memoized := by
  unfold askedEqual
  split
  · split
    · exact .inr rfl
    · exact .inl rfl
  · exact .inl rfl

theorem unmarked_effect (look : Look) (t : Term) : (look.effect t).unmarked = t.unmarked := by
  cases look with
  | fingerprint => exact unmarked_memoized t
  | normality => exact unmarked_askedNormal t
  | equality other =>
    show (t.askedEqual other).unmarked = _
    rcases askedEqual_eq t other with h | h
    · rw [h]
    · rw [h, unmarked_memoized]
  | stamp value => exact unmarked_stamped value t

/-- A look keeps a robust property of all nodes, other than by stamping one. -/
theorem every_effect (hQ : Robust Q) (look : Look) {t : Term} (ht : t.Every Q)
    (hstamp : ∀ value, look = .stamp value → (t.stamped value).Every Q) :
    (look.effect t).Every Q := by
  cases look with
  | fingerprint => exact ht.memoized hQ
  | normality => exact ht.askedNormal hQ
  | equality other =>
    show (t.askedEqual other).Every Q
    rcases askedEqual_eq t other with h | h
    · rw [h]
      exact ht
    · rw [h]
      exact ht.memoized hQ
  | stamp value => exact hstamp value rfl

end Term

/-! ## Edits -/

namespace Edit

/-- The terms that an edit puts in. -/
def terms : Edit → List Term
  | .push arg => [arg]
  | .extend args => args
  | .setArgs args => args
  | .setHead head => [head]
  | .setArg _ arg => [arg]
  | _ => []

theorem mem_of_mem_exchanged? {i j : Nat} {args new : List Term}
    (h : exchanged? i j args = some new) {b : Term} (hb : b ∈ new) : b ∈ args := by
  unfold exchanged? at h
  split at h
  · next a c ha hc =>
    cases h
    rcases List.mem_or_eq_of_mem_set hb with hb | rfl
    · rcases List.mem_or_eq_of_mem_set hb with hb | rfl
      · exact hb
      · exact List.mem_of_getElem? hc
    · exact List.mem_of_getElem? ha
  · cases h

section

variable {Q : Term → Prop} (hQ : Term.Forgetful Q) (e : Edit)

include hQ

/-- **An edit of a node keeps a property of all nodes** that the terms put in have as well, other
than by marking them as normal. -/
theorem every_apply {t : Term} (ht : t.Every Q) (hterms : ∀ a ∈ e.terms, a.Every Q)
    (hmark : ∀ generation, e = .markNormal generation → (t.markNormal generation).Every Q) :
    (e.apply t).1.Every Q := by
  cases t with
  | atom a => exact .atom a
  | app head args marks =>
    obtain ⟨hnode, hhead, hargs⟩ := Term.every_app.mp ht
    -- all edits but the last two and the marking build the node anew
    have build : ∀ {new : List Term}, (∀ b ∈ new, b ∈ args ∨ b ∈ e.terms) →
        (Term.apply head new).Every Q := by
      intro new hnew
      refine Term.every_apply hQ.toRobust hhead fun b hb => ?_
      rcases hnew b hb with hb | hb
      · exact hargs b hb
      · exact hterms b hb
    cases e with
    | markNormal generation => exact hmark generation rfl
    | push arg => exact build fun b hb => List.mem_append.mp hb
    | extend more => exact build fun b hb => List.mem_append.mp hb
    | setArgs new => exact build fun b hb => .inr hb
    | setHead new =>
      exact Term.every_apply hQ.toRobust (hterms new List.mem_cons_self) hargs
    | setArg i arg =>
      show (if i < args.length then _ else _ : Term × EditAnswer).1.Every Q
      split
      · refine build fun b hb => ?_
        rcases List.mem_or_eq_of_mem_set hb with hb | rfl
        · exact .inl hb
        · exact .inr List.mem_cons_self
      · exact ht
    | pop => exact build fun b hb => .inl (List.dropLast_subset args hb)
    | reverse => exact build fun b hb => .inl (List.mem_reverse.mp hb)
    | exchange i j =>
      show (if i = j then _ else _ : Term × EditAnswer).1.Every Q
      split
      · exact ht
      · split
        · next new hnew => exact build fun b hb => .inl (mem_of_mem_exchanged? hnew hb)
        · exact build fun b hb => .inl hb
    | sort =>
      show (Term.app head args marks).sorted.1.Every Q
      rw [Term.sorted]
      split
      · exact ht
      · exact build fun b hb => .inl ((Term.sortedArgs_perm args).mem_iff.mp hb)
    | forget => exact .app (hQ.remarked hnode (.inl rfl) (.inl rfl)) hhead hargs
    | setNeedsEval value => exact .app (hQ.remarked hnode (.inr rfl) (.inr rfl)) hhead hargs

theorem every_applyAt (path : Path) {t : Term} (ht : t.Every Q)
    (hterms : ∀ a ∈ e.terms, a.Every Q)
    (hmark : ∀ (s : Term) (generation : UInt64), s.Every Q → e = .markNormal generation →
      (s.markNormal generation).Every Q) : (e.applyAt path t).1.Every Q := by
  unfold applyAt
  split
  · exact ht
  · refine Term.every_editAt hQ.toRobust ht fun s hs => ?_
    exact every_apply hQ e (ht.at? hs) hterms fun generation => hmark s generation (ht.at? hs)

end

end Edit

/-! ## Sequences of operations -/

namespace Term

/-- The term is what one operation makes of the terms in a pool. -/
inductive Made (pool : List Term) : Term → Prop where
  | atom (a : Atom) : Made pool (.atom a)
  /-- A new node. -/
  | built {head : Term} {args : List Term} :
      head ∈ pool → (∀ a ∈ args, a ∈ pool) → Made pool (.apply head args)
  /-- A node from a draft. -/
  | drafted {draft : Draft} {t : Term} :
      (∀ part ∈ draft.parts, part ∈ pool) → draft.finish = .ok t → Made pool t
  /-- A copy of a node, which takes along all that is remembered in it; also a part that a node is
  taken apart into. -/
  | copied {t s : Term} {path : Path} : t ∈ pool → t.at? path = some s → Made pool s
  /-- A term with one of its nodes edited. -/
  | edited {t : Term} (e : Edit) (path : Path) :
      t ∈ pool → (∀ a ∈ e.terms, a ∈ pool) → Made pool (e.applyAt path t).1
  /-- A term with one of its nodes looked at. -/
  | looked {t : Term} (look : Look) (path : Path) :
      t ∈ pool → Made pool (t.observeAt look.effect path)
  /-- The conditional expression that a node with conditional arguments amounts to. -/
  | hoisted {head : Term} {args : List Term} {marks : Marks} {t : Term} :
      .app head args marks ∈ pool → hoisted? head args = some t → Made pool t

/-- The pools that sequences of operations lead to. -/
inductive Reachable : List Term → Prop where
  | empty : Reachable []
  | step {pool : List Term} {t : Term} : Reachable pool → Made pool t → Reachable (t :: pool)

/-- What an argument is without its condition, and the condition, are nodes of the argument. -/
theorem conditional?_parts {a value condition : Term}
    (h : a.conditional? = some (value, condition)) :
    a.at? [.toArg 0] = some value ∧ a.at? [.toArg 1] = some condition := by
  obtain ⟨marks, rfl⟩ := conditional?_eq_some.mp h
  exact ⟨rfl, rfl⟩

theorem Every.bareValue {Q : Term → Prop} {a : Term} (ha : a.Every Q) : a.bareValue.Every Q := by
  unfold Term.bareValue
  split
  · next v c h => exact ha.at? (conditional?_parts h).1
  · exact ha

theorem every_of_mem_conditions {Q : Term → Prop} {args : List Term} (hargs : ∀ a ∈ args, a.Every Q)
    {c : Term} (hc : c ∈ conditions args) : c.Every Q := by
  obtain ⟨a, ha, h⟩ := List.mem_filterMap.mp hc
  obtain ⟨⟨v, c'⟩, hcond, rfl⟩ := Option.map_eq_some_iff.mp h
  exact (hargs a ha).at? (conditional?_parts hcond).2

theorem every_of_hoisted? {Q : Term → Prop} (hQ : Robust Q) {head : Term} {args : List Term}
    (hhead : head.Every Q) (hargs : ∀ a ∈ args, a.Every Q) {t : Term}
    (h : hoisted? head args = some t) : t.Every Q := by
  rw [eq_of_hoisted? h]
  refine every_apply hQ (.atom _) fun b hb => ?_
  rcases List.mem_cons.mp hb with rfl | hb
  · refine every_apply hQ hhead fun v hv => ?_
    obtain ⟨a, ha, rfl⟩ := List.mem_map.mp hv
    exact (hargs a ha).bareValue
  · rw [List.mem_singleton.mp hb]
    exact every_apply hQ (.atom _) fun c hc => every_of_mem_conditions hargs hc

/-- A node from a draft is built from its parts. -/
theorem every_of_finish {Q : Term → Prop} (hQ : Robust Q) {draft : Draft}
    (hparts : ∀ part ∈ draft.parts, part.Every Q) {t : Term} (h : draft.finish = .ok t) :
    t.Every Q := by
  unfold Draft.finish at h
  cases hd : draft.parts with
  | nil =>
    rw [hd] at h
    cases h
  | cons head args =>
    rw [hd] at h hparts
    cases h
    exact every_apply hQ (hparts _ List.mem_cons_self) fun a ha =>
      hparts a (List.mem_cons_of_mem _ ha)

/-- **One operation on coherent terms gives a coherent term.** -/
theorem coherent_of_made {pool : List Term} (hpool : ∀ s ∈ pool, s.Coherent) {t : Term}
    (h : Made pool t) : t.Coherent := by
  cases h with
  | atom a => exact .atom a
  | built hhead hargs => exact coherent_apply (hpool _ hhead) fun a ha => hpool a (hargs a ha)
  | drafted hparts hfinish =>
    exact every_of_finish robust_truthful (fun part hpart => hpool part (hparts part hpart)) hfinish
  | copied ht hs => exact (hpool _ ht).at? hs
  | edited e path ht hterms =>
    exact e.every_applyAt forgetful_truthful path (hpool _ ht) (fun a ha => hpool a (hterms a ha))
      fun s generation hs _ => coherent_markNormal generation hs
  | looked look path ht =>
    exact every_observeAt robust_truthful (hpool _ ht) (unmarked_effect look) fun s hs =>
      every_effect robust_truthful look hs fun value _ => coherent_stamped value hs
  | hoisted hnode h =>
    obtain ⟨_, hhead, hargs⟩ := every_app.mp (hpool _ hnode)
    exact every_of_hoisted? robust_truthful hhead hargs h

/-- **Every term that operations lead to is coherent.** -/
theorem Reachable.coherent {pool : List Term} (h : Reachable pool) : ∀ t ∈ pool, t.Coherent := by
  induction h with
  | empty =>
    intro t ht
    cases ht
  | step _ hmade ih =>
    intro t ht
    rcases List.mem_cons.mp ht with rfl | ht
    · exact coherent_of_made ih hmade
    · exact ih t ht

/-- **In a term that operations lead to, every node remembers nothing, or the fingerprint that it
has when nothing is remembered, which is not zero. The fingerprint of the term depends on its
structure alone.** -/
theorem fingerprint_eq_of_reachable {pool : List Term} (hpool : Reachable pool) {t : Term}
    (ht : t ∈ pool) :
    (∀ path head args marks, t.at? path = some (.app head args marks) →
      marks.fingerprint = none
        ∨ ∃ f, marks.fingerprint = some f ∧ f ≠ 0
          ∧ f = (Term.app head args marks).unmarked.fingerprint)
      ∧ t.fingerprint = t.unmarked.fingerprint
      ∧ ∀ s ∈ pool, s.unmarked = t.unmarked → s.fingerprint = t.fingerprint := by
  have coherent := hpool.coherent
  refine ⟨?_, fingerprint_unmarked (coherent t ht), ?_⟩
  · intro path head args marks hnode
    cases hm : marks.fingerprint with
    | none => exact .inl rfl
    | some f =>
      obtain ⟨node, _, _⟩ := every_app.mp ((coherent t ht).at? hnode)
      have hf := node f hm
      exact .inr ⟨f, rfl, hf ▸ fingerprint_unmarked_ne_zero _, hf⟩
  · intro s hs same
    rw [fingerprint_unmarked (coherent s hs), same, ← fingerprint_unmarked (coherent t ht)]

/-- A node below a fingerprinted one is edited: the node above it has to forget, and does. -/
theorem fingerprint_eq_of_edited_below :
    ∃ pool edited, Reachable pool ∧ edited ∈ pool
      ∧ edited = apply (symbol "g") [apply (symbol "f") [symbol "f"]]
      ∧ edited.fingerprint = edited.unmarked.fingerprint := by
  have atoms : Reachable [symbol "g", symbol "f"] :=
    (Reachable.empty.step (.atom (.symbol "f"))).step (.atom (.symbol "g"))
  have inner : Reachable [apply (symbol "f") [], symbol "g", symbol "f"] :=
    atoms.step (.built (List.mem_cons_of_mem _ List.mem_cons_self) (by simp))
  have outer := inner.step (.built (List.mem_cons_of_mem _ List.mem_cons_self)
    (List.forall_mem_singleton.mpr List.mem_cons_self))
  have looked := outer.step (.looked .fingerprint [] List.mem_cons_self)
  have edited := looked.step
    (.edited (.push (symbol "f")) [.toArg 0] List.mem_cons_self (by simp [Edit.terms]))
  exact ⟨_, _, edited, List.mem_cons_self, rfl,
    (fingerprint_eq_of_reachable edited List.mem_cons_self).2.1⟩

end Term

end TermRewriting
