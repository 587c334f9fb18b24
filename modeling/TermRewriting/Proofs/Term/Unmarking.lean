import Mathlib.Data.List.Perm.Basic
import TermRewriting.Proofs.Term.Operations

/-!
# What an edit makes a term forget

An edit of a node goes down to it through the nodes above, and at these its path can be cut in two.
At a prefix of the path stands a node that has lost its marks (`at?_editAt_above`); at a path that
parts from it everything is as it was (`at?_changeAt_aside`). Below the edited node the parts may
have moved, so there it is parts that are compared, not paths: each part of the node was one before,
with all that is remembered in it, or is a term that the edit has put in, and none is lost but those
that the edit has taken out (`Edit.parts_apply`).
-/

namespace TermRewriting

namespace Term

/-! ## Nodes of a changed term -/

section

variable {marksAbove : Marks → Marks} {change : Term → Term}

/-- At a prefix of the path the change is still to be made below. -/
theorem at?_changeAt_onWay {q path : Path} (h : q <+: path) (t : Term) :
    (t.changeAt marksAbove change path).at? q
      = (t.at? q).map (changeAt marksAbove change (path.drop q.length)) := by
  induction q generalizing t path with
  | nil => rfl
  | cons d q ih =>
    obtain ⟨rest, rfl⟩ := h
    have hrest : q <+: q ++ rest := List.prefix_append q rest
    cases t with
    | atom a => cases d <;> rfl
    | app head args marks =>
      cases d with
      | toHead => exact ih hrest head
      | toArg i =>
        show ((args.modify i _)[i]?).bind (at? q) = (args[i]?.bind (at? q)).map _
        rw [List.getElem?_modify_eq]
        cases args[i]? with
        | none => rfl
        | some a => exact ih hrest a

theorem at?_changeAt_self (path : Path) (t : Term) :
    (t.changeAt marksAbove change path).at? path = (t.at? path).map change := by
  rw [at?_changeAt_onWay (List.prefix_refl path), List.drop_length]
  rfl

/-- **A path that parts from that of the change leads to what was there before.** -/
theorem at?_changeAt_aside {q path : Path} (habove : ¬q <+: path) (hbelow : ¬path <+: q)
    (t : Term) : (t.changeAt marksAbove change path).at? q = t.at? q := by
  induction path generalizing t q with
  | nil => exact absurd List.nil_prefix hbelow
  | cons d path ih =>
    cases q with
    | nil => exact absurd List.nil_prefix habove
    | cons d' q =>
      have hsame : d = d' → ∀ s : Term, (s.changeAt marksAbove change path).at? q = s.at? q := by
        rintro rfl
        exact ih (fun h => habove (List.cons_prefix_cons.mpr ⟨rfl, h⟩))
          fun h => hbelow (List.cons_prefix_cons.mpr ⟨rfl, h⟩)
      cases t with
      | atom a => cases d <;> rfl
      | app head args marks =>
        match d, d' with
        | .toHead, .toHead => exact hsame rfl head
        | .toHead, .toArg j => rfl
        | .toArg i, .toHead => rfl
        | .toArg i, .toArg j =>
          show ((args.modify i _)[j]?).bind (at? q) = args[j]?.bind (at? q)
          rw [List.getElem?_modify]
          by_cases hij : i = j
          · subst hij
            cases args[i]? with
            | none => rfl
            | some a => simpa using hsame rfl a
          · simp [hij]

/-- **A node above an edited one has lost its marks.** -/
theorem at?_editAt_above {q : Path} {d : Descent} {rest : Path} {t node : Term}
    (h : t.at? (q ++ d :: rest) = some node) :
    ∃ head args, (t.editAt change (q ++ d :: rest)).at? q = some (apply head args) := by
  rw [at?_append] at h
  obtain ⟨s, hs, hnode⟩ := Option.bind_eq_some_iff.mp h
  rw [editAt, at?_changeAt_onWay (List.prefix_append q _), hs, List.drop_left]
  cases s with
  | atom a => cases d <;> cases hnode
  | app head args marks => cases d <;> exact ⟨_, _, rfl⟩

end

/-- What is below a node is in one of its parts. -/
theorem exists_part_of_at? {head : Term} {args : List Term} {marks : Marks} {d : Descent}
    {below : Path} {s : Term} (h : (Term.app head args marks).at? (d :: below) = some s) :
    ∃ part ∈ head :: args, part.at? below = some s := by
  cases d with
  | toHead => exact ⟨head, List.mem_cons_self, h⟩
  | toArg i =>
    obtain ⟨a, ha, hs⟩ := Option.bind_eq_some_iff.mp h
    exact ⟨a, List.mem_cons_of_mem _ (List.mem_of_getElem? ha), hs⟩

end Term

/-! ## Parts of an edited node -/

namespace Edit

/-- The edit rebuilds a node that has these arguments. Marking does not, nor does an exchange of an
argument with itself, or sorting what is in order. -/
def Mutates (args : List Term) : Edit → Prop
  | .markNormal _ => False
  | .setArg i _ => i < args.length
  | .exchange i j => i ≠ j
  | .sort => Term.inOrder args = false
  | .forget => False
  | .setNeedsEval _ => False
  | _ => True

/-- The parts that the edit takes out of a node. -/
def removed (head : Term) (args : List Term) : Edit → List Term
  | .setArgs _ => args
  | .setHead _ => [head]
  | .setArg i _ => args[i]?.toList
  | .pop => args.getLast?.toList
  | _ => []

theorem exchanged?_perm {i j : Nat} {args new : List Term} (h : exchanged? i j args = some new) :
    new.Perm args := by
  unfold exchanged? at h
  split at h
  · next a b ha hb =>
    cases h
    obtain ⟨hi, rfl⟩ := List.getElem?_eq_some_iff.mp ha
    obtain ⟨hj, rfl⟩ := List.getElem?_eq_some_iff.mp hb
    exact List.set_set_perm hi hj
  · cases h

/-- **A mutated node has lost its marks, and keeps every part, as it is, but those that the edit
takes out;** what it has besides are the terms that the edit puts in. -/
theorem parts_apply {e : Edit} (head : Term) {args : List Term} (marks : Marks)
    (h : e.Mutates args) :
    ∃ k bs kept, (e.apply (.app head args marks)).1 = .apply k bs
      ∧ (head :: args).Perm (kept ++ e.removed head args) ∧ (k :: bs).Perm (kept ++ e.terms) := by
  -- an edit that only moves arguments
  have moves : ∀ {new : List Term}, new.Perm args → e.removed head args = [] → e.terms = [] →
      (head :: args).Perm (head :: args ++ e.removed head args)
        ∧ (head :: new).Perm (head :: args ++ e.terms) := by
    intro new hnew hremoved hterms
    rw [hremoved, hterms, List.append_nil]
    exact ⟨.refl _, hnew.cons head⟩
  cases e with
  | markNormal generation => exact h.elim
  | push arg => exact ⟨head, args ++ [arg], head :: args, rfl, by simp [removed], .refl _⟩
  | extend more => exact ⟨head, args ++ more, head :: args, rfl, by simp [removed], .refl _⟩
  | setArgs new => exact ⟨head, new, [head], rfl, .refl _, .refl _⟩
  | setHead new =>
    exact ⟨new, args, args, rfl, (List.perm_append_singleton head args).symm,
      (List.perm_append_singleton new args).symm⟩
  | setArg i arg =>
    have hi : i < args.length := h
    refine ⟨head, args.set i arg, head :: args.eraseIdx i, ?_, ?_, ?_⟩
    · show (if i < args.length then _ else _ : Term × EditAnswer).1 = _
      rw [if_pos hi]
    · rw [removed, List.getElem?_eq_getElem hi]
      refine List.Perm.cons head ?_
      exact (List.getElem_cons_eraseIdx_perm hi).symm.trans (List.perm_append_singleton _ _).symm
    · refine List.Perm.cons head ?_
      exact (List.set_perm_cons_eraseIdx hi arg).trans (List.perm_append_singleton _ _).symm
  | pop =>
    refine ⟨head, args.dropLast, head :: args.dropLast, rfl, .cons head ?_, by simp [terms]⟩
    cases hlast : args.getLast? with
    | none => simp [removed, List.getLast?_eq_none_iff.mp hlast]
    | some a => simp [removed, hlast, List.dropLast_append_getLast? a hlast]
  | reverse => exact ⟨head, args.reverse, _, rfl, moves args.reverse_perm rfl rfl⟩
  | exchange i j =>
    have hne : i ≠ j := h
    cases hnew : exchanged? i j args with
    | none =>
      refine ⟨head, args, _, ?_, moves (.refl args) rfl rfl⟩
      simp [apply, applyTo, hne, hnew]
    | some new =>
      refine ⟨head, new, _, ?_, moves (exchanged?_perm hnew) rfl rfl⟩
      simp [apply, applyTo, hne, hnew]
  | sort =>
    have horder : Term.inOrder args = false := h
    refine ⟨head, Term.sortedArgs args, _, ?_, moves (Term.sortedArgs_perm args) rfl rfl⟩
    simp [apply, applyTo, Term.sorted, horder]
  | forget => exact h.elim
  | setNeedsEval value => exact h.elim

/-! ## Nodes of an edited term -/

section

variable {e : Edit} {path : Path} {t head : Term} {args : List Term} {marks : Marks}
  (hnode : t.at? path = some (.app head args marks)) (h : e.Mutates args)

include hnode

theorem fst_applyAt : (e.applyAt path t).1 = t.editAt (fun node => (e.apply node).1) path := by
  rw [applyAt, hnode]

theorem at?_applyAt_aside {q : Path} (habove : ¬q <+: path) (hbelow : ¬path <+: q) :
    (e.applyAt path t).1.at? q = t.at? q := by
  rw [fst_applyAt hnode, Term.editAt, Term.at?_changeAt_aside habove hbelow]

include h

theorem parts_applyAt :
    ∃ k bs kept, (e.applyAt path t).1.at? path = some (.apply k bs)
      ∧ (head :: args).Perm (kept ++ e.removed head args) ∧ (k :: bs).Perm (kept ++ e.terms) := by
  obtain ⟨k, bs, kept, happly, hparts⟩ := e.parts_apply head marks h
  refine ⟨k, bs, kept, ?_, hparts⟩
  rw [fst_applyAt hnode, Term.editAt, Term.at?_changeAt_self, hnode, Option.map_some, happly]

/-- **All nodes on the path have lost their marks,** the edited one included. -/
theorem at?_applyAt_onPath {q : Path} (hq : q <+: path) :
    ∃ k bs, (e.applyAt path t).1.at? q = some (.apply k bs) := by
  obtain ⟨_ | ⟨d, rest⟩, rfl⟩ := hq
  · obtain ⟨k, bs, _, hself, _⟩ := parts_applyAt hnode h
    exact ⟨k, bs, by simpa using hself⟩
  · rw [fst_applyAt hnode]
    exact Term.at?_editAt_above hnode

/-- **What holds of all applications holds of those off the path,** unless they were put in. -/
theorem of_at?_applyAt {Q : Term → Prop} (ht : t.Every Q) {q : Path} {k : Term} {bs : List Term}
    {n : Marks} (hq : (e.applyAt path t).1.at? q = some (.app k bs n)) (hoff : ¬q <+: path) :
    (Term.app k bs n).Every Q ∨ ∃ new ∈ e.terms, ∃ p, new.at? p = some (.app k bs n) := by
  by_cases hbelow : path <+: q
  · obtain ⟨_ | ⟨d, below⟩, rfl⟩ := hbelow
    · exact absurd (by simp) hoff
    obtain ⟨_, _, kept, hself, hremoved, hterms⟩ := parts_applyAt hnode h
    rw [Term.at?_append, hself, Option.bind_some] at hq
    obtain ⟨part, hpart, hs⟩ := Term.exists_part_of_at? hq
    rcases List.mem_append.mp (hterms.subset hpart) with hin | hin
    · -- the part was one before
      have hbefore := hremoved.symm.subset (List.mem_append_left _ hin)
      obtain ⟨-, hhead, hargs⟩ := Term.every_app.mp (ht.at? hnode)
      exact .inl ((List.forall_mem_cons.mpr ⟨hhead, hargs⟩ part hbefore).at? hs)
    · exact .inr ⟨part, hin, below, hs⟩
  · rw [at?_applyAt_aside hnode hoff hbelow] at hq
    exact .inl (ht.at? hq)

end

end Edit

namespace Term

/-! ## Marked terms -/

/-- Every application in a marked term answers that it is normal. -/
theorem isNormalUnder_of_every {generation : UInt64} {head : Term} {args : List Term}
    {marks : Marks}
    (h : (Term.app head args marks).Every fun s => s.Truthful ∧ s.MarkedNormal generation) :
    (Term.app head args marks).isNormalUnder generation = true := by
  have hcoherent : (Term.app head args marks).Coherent := h.mono fun _ => And.left
  exact (isNormalUnder_app hcoherent generation).mpr (every_app.mp h).1.2

/-- Marking a term as normal does not change its fingerprint, be it right or wrong. -/
theorem fingerprint_markNormal (generation : UInt64) (t : Term) :
    (t.markNormal generation).fingerprint = t.fingerprint := by
  induction t using induct with
  | atom a => rfl
  | app head args marks ihhead ihargs =>
    cases hm : marks.fingerprint with
    | some f => simp [markNormal, fingerprint, hm]
    | none =>
      have hargs : args.map (fingerprint ∘ markNormal generation) = args.map fingerprint :=
        List.map_congr_left ihargs
      simp [markNormal, fingerprint, hm, ihhead, markNormalAll_eq_map, fingerprints_eq_map, hargs]

/-- **Marking and then editing a coherent term.** Marking changes neither its structure nor its
fingerprint, and every application in it answers that it is normal. An edit that rebuilds a node
takes the marks from exactly the nodes on its path. The nodes aside from the path are as they were.
Of the parts of the edited node all are still there, with everything remembered in them, but those
that were taken out. So whatever is not on the path and was not put in is still marked. -/
theorem edit_unmarks_path {t : Term} (ht : t.Coherent) (generation : UInt64) :
    let marked := t.markNormal generation
    marked.unmarked = t.unmarked ∧ marked.fingerprint = t.fingerprint
      ∧ (∀ q head args marks, marked.at? q = some (.app head args marks) →
          (Term.app head args marks).isNormalUnder generation = true)
      ∧ ∀ (e : Edit) path head args marks, marked.at? path = some (.app head args marks) →
          e.Mutates args →
          let edited := (e.applyAt path marked).1
          (∀ q, q <+: path → ∃ k bs, edited.at? q = some (apply k bs))
            ∧ (∀ q, ¬q <+: path → ¬path <+: q → edited.at? q = marked.at? q)
            ∧ (∃ k bs kept, edited.at? path = some (apply k bs)
                ∧ (head :: args).Perm (kept ++ e.removed head args)
                ∧ (k :: bs).Perm (kept ++ e.terms))
            ∧ ∀ q k bs n, edited.at? q = some (.app k bs n) → ¬q <+: path →
                (Term.app k bs n).isNormalUnder generation = true
                  ∨ ∃ new ∈ e.terms, ∃ p, new.at? p = some (.app k bs n) := by
  intro marked
  have hmarked := every_markNormal generation ht
  refine ⟨unmarked_markNormal generation t, fingerprint_markNormal generation t,
    fun q head args marks hq => isNormalUnder_of_every (hmarked.at? hq), ?_⟩
  intro e path head args marks hnode hmutates edited
  refine ⟨fun q => e.at?_applyAt_onPath hnode hmutates, fun q => e.at?_applyAt_aside hnode,
    e.parts_applyAt hnode hmutates, fun q k bs n hq hoff => ?_⟩
  rcases e.of_at?_applyAt hnode hmutates hmarked hq hoff with hevery | hnew
  · exact .inl (isNormalUnder_of_every hevery)
  · exact .inr hnew

/-- Sorting the arguments of `f` in a marked `g[f[3, 1], h[2]]`: the root and `f` forget, `h` does
not. -/
theorem edit_unmarks_path_sort :
    let t := call "g" [call "f" [integer 3, integer 1], call "h" [integer 2]]
    let marked := t.markNormal 7
    let edited := (Edit.sort.applyAt [.toArg 0] marked).1
    t.Coherent ∧ Edit.sort.Mutates [integer 3, integer 1]
      ∧ (∃ k bs, edited.at? [] = some (apply k bs))
      ∧ (∃ k bs, edited.at? [.toArg 0] = some (apply k bs))
      ∧ edited.at? [.toArg 1] = marked.at? [.toArg 1] := by
  intro t marked edited
  have ht : t.Coherent := coherent_of_unmarked_eq rfl
  have hmutates : Edit.sort.Mutates [integer 3, integer 1] := rfl
  obtain ⟨-, -, -, hedit⟩ := edit_unmarks_path ht 7
  obtain ⟨habove, haside, -⟩ := hedit .sort [.toArg 0] _ _ _ rfl hmutates
  exact ⟨ht, hmutates, habove [] List.nil_prefix, habove [.toArg 0] (List.prefix_refl _),
    haside [.toArg 1] (by decide) (by decide)⟩

end Term

end TermRewriting
