import TermRewriting.Proofs.Binary64.Value
import TermRewriting.Proofs.Term.Alike
import TermRewriting.Proofs.Term.Order

/-!
# Terms that compare as equal

The keys of an atom tell it apart from all others, so atoms compare as equal only if they are the
same, and terms only if they have one structure (`order_eq_eq_iff`). With the laws of the order this
makes it a total order up to marks, and sorting a way to give a list of arguments that depends only
on which arguments there are (`map_unmarked_sortedArgs_of_perm`).
-/

namespace TermRewriting

open Std

/-! ## Atoms -/

namespace Atom

/-- **The keys tell atoms apart.** -/
theorem order_eq_eq_iff {a b : Atom} : a.order b = .eq ↔ a = b := by
  constructor
  · intro h
    rw [order_eq_keyOrder, keyOrder_eq] at h
    simp only [Ordering.then_eq_eq, LawfulEqCmp.compare_eq_iff_eq] at h
    obtain ⟨hrank, hreal, hrealness, hint, htext⟩ := h
    cases a with
    | integer x =>
      cases b with
      | integer y => exact congrArg integer (Int64.toInt_inj.mp hint)
      | real y => cases hrealness
      | string y => cases hrank
      | symbol y => cases hrank
    | real x =>
      cases b with
      | integer y => cases hrealness
      | real y => exact congrArg real (Binary64.totalKey_inj hreal)
      | string y => cases hrank
      | symbol y => cases hrank
    | string x =>
      cases b with
      | integer y => cases hrank
      | real y => cases hrank
      | string y => exact congrArg string htext
      | symbol y => cases hrank
    | symbol x =>
      cases b with
      | integer y => cases hrank
      | real y => cases hrank
      | string y => cases hrank
      | symbol y => exact congrArg symbol htext
  · rintro rfl
    exact ReflCmp.compare_self

end Atom

/-! ## Terms -/

namespace Term

theorem orderAll_eq_eq_iff {as bs : List Term}
    (ih : ∀ a ∈ as, ∀ b : Term, a.order b = .eq ↔ a.unmarked = b.unmarked)
    (hlength : as.length = bs.length) :
    orderAll as bs = .eq ↔ as.map unmarked = bs.map unmarked := by
  induction as generalizing bs with
  | nil =>
    obtain rfl := List.length_eq_zero_iff.mp hlength.symm
    simp [orderAll]
  | cons a as ihas =>
    obtain ⟨ha, has⟩ := List.forall_mem_cons.mp ih
    cases bs with
    | nil => cases hlength
    | cons b bs =>
      rw [orderAll, Ordering.then_eq_eq, ha, ihas has (Nat.succ.inj hlength), List.map_cons,
        List.map_cons, List.cons.injEq]

/-- **Terms compare as equal when they have one structure.** -/
theorem order_eq_eq_iff {s t : Term} : s.order t = .eq ↔ s.unmarked = t.unmarked := by
  induction s using induct generalizing t with
  | atom a =>
    cases t with
    | atom b =>
      rw [order, Atom.order_eq_eq_iff, unmarked_atom, unmarked_atom, atom.injEq]
    | app k bs n => simp [order]
  | app h as m ihhead ihargs =>
    cases t with
    | atom b => simp [order]
    | app k bs n =>
      rw [order, Ordering.then_eq_eq, Ordering.then_eq_eq, ihhead, Nat.compare_eq_eq,
        unmarked_app, unmarked_app]
      constructor
      · rintro ⟨hhead, hlength, hargs⟩
        rw [hhead, (orderAll_eq_eq_iff (fun a ha _ => ihargs a ha) hlength).mp hargs]
      · intro heq
        injection heq with hhead hargs _
        have hlength : as.length = bs.length := by
          simpa using congrArg List.length hargs
        exact ⟨hhead, hlength, (orderAll_eq_eq_iff (fun a ha _ => ihargs a ha) hlength).mpr hargs⟩

/-- **The canonical order is total:** it is reversed by exchanging the terms, puts no other terms
level than identical ones, and is transitive. -/
theorem canonical_order_total :
    (∀ s t : Term, t.order s = (s.order t).swap)
      ∧ (∀ s t : Term, s.Coherent → t.Coherent → (s.order t = .eq ↔ s.identical t = true))
      ∧ ∀ s t u : Term, s.order t ≠ .gt → t.order u ≠ .gt → s.order u ≠ .gt := by
  refine ⟨fun s t => order_swap t s, fun s t hs ht => ?_, fun s t u hst htu => ?_⟩
  · rw [order_eq_eq_iff, identical_iff hs ht]
  · have hle := TransCmp.isLE_trans (Ordering.isLE_iff_ne_gt.mpr hst)
      (Ordering.isLE_iff_ne_gt.mpr htu)
    exact Ordering.isLE_iff_ne_gt.mp hle

/-- Two integers that round to one number, and that number: each comes before the next. -/
theorem canonical_order_total_rounded :
    let s := call "f" [integer 9007199254740992]
    let t := call "f" [integer 9007199254740993]
    let u := call "f" [real ⟨0x4340000000000000⟩]
    s.order t = .lt ∧ t.order u = .lt ∧ t.order s = .gt ∧ s.order u ≠ .gt
      ∧ s.identical t = false ∧ t.identical u = false
      ∧ (u.order u = .eq ↔ u.identical u = true) := by
  intro s t u
  have hst : s.order t = .lt := by decide +kernel
  have htu : t.order u = .lt := by decide +kernel
  obtain ⟨hswap, hequal, htrans⟩ := canonical_order_total
  have hs : s.Coherent := coherent_of_unmarked_eq rfl
  have ht : t.Coherent := coherent_of_unmarked_eq rfl
  have hu : u.Coherent := coherent_of_unmarked_eq rfl
  refine ⟨hst, htu, ?_, htrans s t u (by rw [hst]; decide) (by rw [htu]; decide), ?_, ?_,
    hequal u u hu hu⟩
  · rw [hswap s t, hst]
    rfl
  · rw [Bool.eq_false_iff, ne_eq, ← hequal s t hs ht, hst]
    decide
  · rw [Bool.eq_false_iff, ne_eq, ← hequal t u ht hu, htu]
    decide

/-! ## Sorting -/

theorem pairwise_sortedArgs (args : List Term) :
    (sortedArgs args).Pairwise fun a b => a.notAfter b = true :=
  List.pairwise_mergeSort notAfter_trans notAfter_total args

theorem pairwise_of_inOrder {args : List Term} (h : inOrder args = true) :
    args.Pairwise fun a b => a.notAfter b = true := by
  have : Trans (fun a b : Term => a.notAfter b = true) (fun a b => a.notAfter b = true)
      fun a b => a.notAfter b = true := ⟨fun hab hbc => notAfter_trans _ _ _ hab hbc⟩
  refine List.isChain_iff_pairwise.mp ?_
  induction args with
  | nil => exact .nil
  | cons a as ih =>
    cases as with
    | nil => exact .singleton a
    | cons b bs =>
      rw [inOrder, Bool.and_eq_true] at h
      exact .cons_cons h.1 (ih h.2)

/-- Arguments in order are sorted. -/
theorem sortedArgs_eq_self {args : List Term} (h : inOrder args = true) : sortedArgs args = args :=
  List.mergeSort_of_pairwise (pairwise_of_inOrder h)

theorem unmarked_eq_of_notAfter {s t : Term} (hst : s.notAfter t = true)
    (hts : t.notAfter s = true) : s.unmarked = t.unmarked := by
  rw [notAfter_eq_isLE] at *
  exact order_eq_eq_iff.mp (OrientedCmp.isLE_antisymm hst hts)

/-- **Sorting forgets the order it was given:** lists with the same structures have them in one
order when sorted. -/
theorem map_unmarked_sortedArgs_of_perm {as bs : List Term}
    (h : (as.map unmarked).Perm (bs.map unmarked)) :
    (sortedArgs as).map unmarked = (sortedArgs bs).map unmarked := by
  rw [sortedArgs_map_unmarked, sortedArgs_map_unmarked]
  have hperm := (sortedArgs_perm (as.map unmarked)).trans
    (h.trans (sortedArgs_perm (bs.map unmarked)).symm)
  refine hperm.eq_of_pairwise (fun a b ha hb hab hba => ?_) (pairwise_sortedArgs _)
    (pairwise_sortedArgs _)
  obtain ⟨a, _, rfl⟩ := List.mem_map.mp ((sortedArgs_perm _).mem_iff.mp ha)
  obtain ⟨b, _, rfl⟩ := List.mem_map.mp ((sortedArgs_perm _).mem_iff.mp hb)
  have heq := unmarked_eq_of_notAfter hab hba
  rwa [unmarked_unmarked, unmarked_unmarked] at heq

end Term

end TermRewriting
