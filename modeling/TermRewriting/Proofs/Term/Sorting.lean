import TermRewriting.Proofs.Term.TotalOrder

/-!
# Sorting a node

Sorting gives the arguments of a node in the one order that is canonical, so the result depends only
on which arguments there are: nodes that differ in their order become identical, with one
fingerprint (`sorted_canonical`). A node that is in order is left alone, with all that it remembers; that is the
case exactly if sorting would give it the arguments that it has, place by place. So whether anything
moved is also whether anything changed, and a second sorting changes nothing.
-/

namespace TermRewriting

namespace Term

variable {head : Term} {args : List Term} {marks : Marks}

theorem sorted_of_inOrder (h : inOrder args = true) :
    (Term.app head args marks).sorted = (.app head args marks, false) := by
  rw [sorted, if_pos h]

theorem sorted_of_not_inOrder (h : inOrder args = false) :
    (Term.app head args marks).sorted = (.apply head (sortedArgs args), true) := by
  rw [sorted, if_neg (by simp [h])]

/-- Whether in order or not, the sorted node has the sorted arguments. -/
theorem exists_sorted_eq (head : Term) (args : List Term) (marks : Marks) :
    ∃ m, (Term.app head args marks).sorted.1 = .app head (sortedArgs args) m := by
  cases h : inOrder args with
  | true => exact ⟨marks, by rw [sorted_of_inOrder h, sortedArgs_eq_self h]⟩
  | false => exact ⟨.fresh, by rw [sorted_of_not_inOrder h]⟩

theorem coherent_sorted (h : (Term.app head args marks).Coherent) :
    (Term.app head args marks).sorted.1.Coherent := by
  cases horder : inOrder args with
  | true => rwa [sorted_of_inOrder horder]
  | false =>
    obtain ⟨_, hhead, hargs⟩ := every_app.mp h
    rw [sorted_of_not_inOrder horder]
    exact coherent_apply hhead fun a ha => hargs a ((sortedArgs_perm args).mem_iff.mp ha)

/-- Sorting changes the arguments exactly if they are not in order. -/
theorem identicalAll_sortedArgs (args : List Term) :
    identicalAll args (sortedArgs args) = inOrder args := by
  cases h : inOrder args with
  | true =>
    rw [sortedArgs_eq_self h]
    exact identicalAll_iff_forall₂.mpr (List.forall₂_same.mpr fun a _ => identical_rfl a)
  | false =>
    rw [Bool.eq_false_iff]
    intro hidentical
    have hsame := map_unmarked_eq_of_identical (identicalAll_iff_forall₂.mp hidentical)
    rw [← inOrder_map_unmarked, hsame, inOrder_map_unmarked, inOrder_sortedArgs] at h
    cases h

/-- **Sorting is canonical.** The arguments of the sorted node are those of the node, none of them
after a later one. Something moved exactly if the arguments are not the same place by place; if
nothing did, the node is as it was, marks included, and after sorting nothing moves any more. And
coherent nodes with one head and the same arguments in any order become identical. -/
theorem sorted_canonical (head : Term) (args : List Term) (marks : Marks) :
    let t := Term.app head args marks
    let s := t.sorted.1
    (s.head = head ∧ s.args.Perm args)
      ∧ s.args.Pairwise (fun a b => a.order b ≠ .gt)
      ∧ (t.sorted.2 = true ↔ identicalAll args s.args = false)
      ∧ (t.sorted.2 = false → s = t)
      ∧ s.sorted = (s, false)
      ∧ ∀ k bs n, t.Coherent → (Term.app k bs n).Coherent → head.identical k = true →
          (∃ cs, identicalAll args cs = true ∧ cs.Perm bs) →
          s.identical (Term.app k bs n).sorted.1 = true
            ∧ s.fingerprint = (Term.app k bs n).sorted.1.fingerprint := by
  intro t s
  obtain ⟨m, hs⟩ : ∃ m, s = .app head (sortedArgs args) m := exists_sorted_eq head args marks
  have hargs : s.args = sortedArgs args := by rw [hs]; rfl
  refine ⟨⟨by rw [hs]; rfl, ?_⟩, ?_, ?_, ?_, ?_, ?_⟩
  · rw [hargs]
    exact sortedArgs_perm args
  · rw [hargs]
    exact (pairwise_sortedArgs args).imp fun h => by simpa [notAfter] using h
  · rw [hargs, identicalAll_sortedArgs]
    cases horder : inOrder args with
    | true => simp [t, sorted_of_inOrder horder]
    | false => simp [t, sorted_of_not_inOrder horder]
  · intro hstill
    cases horder : inOrder args with
    | true => simp only [s, t, sorted_of_inOrder horder]
    | false => simp [t, sorted_of_not_inOrder horder] at hstill
  · rw [hs]
    exact sorted_of_inOrder (inOrder_sortedArgs args)
  · rintro k bs n ht ht' hhead ⟨cs, hidentical, hperm⟩
    obtain ⟨m', hs'⟩ := exists_sorted_eq k bs n
    have hstructures : (args.map unmarked).Perm (bs.map unmarked) := by
      rw [map_unmarked_eq_of_identical (identicalAll_iff_forall₂.mp hidentical)]
      exact hperm.map unmarked
    have hsame : s.unmarked = (Term.app k bs n).sorted.1.unmarked := by
      rw [hs, hs', unmarked_app, unmarked_app, unmarked_eq_of_identical hhead,
        map_unmarked_sortedArgs_of_perm hstructures]
    have hcoherent : s.Coherent := coherent_sorted ht
    have hcoherent' := coherent_sorted ht'
    refine ⟨(identical_iff hcoherent hcoherent').mpr hsame, ?_⟩
    rw [fingerprint_unmarked hcoherent, hsame, ← fingerprint_unmarked hcoherent']

/-- A marked node that is in order stays as it is, and one with its arguments in another order
becomes identical to it. The integer that is greater than the real but rounds to it comes first. -/
theorem sorted_canonical_rounded :
    let n := integer 9007199254740993
    let x := real ⟨0x4340000000000000⟩
    let t := (call "f" [n, x, call "g" []]).markNormal 7
    let u := call "f" [call "g" [], x, n]
    t.sorted = (t, false) ∧ u.sorted.2 = true ∧ u.identical t = false
      ∧ u.sorted.1.identical t = true ∧ u.sorted.1.fingerprint = t.fingerprint := by
  intro n x t u
  have hstill : t.sorted.2 = false := by decide +kernel
  have hmoved : u.sorted.2 = true := by decide +kernel
  have ht : t.Coherent := coherent_markNormal 7 (coherent_of_unmarked_eq rfl)
  have hu : u.Coherent := coherent_of_unmarked_eq rfl
  have hsame : t.sorted.1 = t := (sorted_canonical _ _ _).2.2.2.1 hstill
  have hperm : [n, x, (call "g" []).markNormal 7].reverse.Perm [n, x, (call "g" []).markNormal 7] :=
    List.reverse_perm _
  obtain ⟨_, _, _, _, _, hcanonical⟩ :=
    sorted_canonical (symbol "f") [call "g" [], x, n] .fresh
  have hresult : u.sorted.1.identical t.sorted.1 = true
      ∧ u.sorted.1.fingerprint = t.sorted.1.fingerprint :=
    hcanonical _ _ _ hu ht rfl ⟨_, rfl, hperm⟩
  rw [hsame] at hresult
  exact ⟨Prod.ext hsame hstill, hmoved, rfl, hresult⟩

end Term

end TermRewriting
