import TermRewriting.Proofs.Binary64
import TermRewriting.Proofs.Term.Structure
import TermRewriting.Term.Order

/-!
# The canonical order is total

Atoms are ordered by five keys, one after the other: their rank, the place of a number among the
reals, whether it is a real, its value if it is an integer, and the text. That these keys give the
order of two integers of one rank is due to rounding, which never puts a larger integer before a
smaller one (`Binary64.totalKey_ofInt_mono`). Terms compare by parts, each deciding where those
before it are equal.

So the order is transitive and total, and sorting leaves every argument before its successors
(`inOrder_sortedArgs`).
-/

namespace TermRewriting

open Std

/-! ## Atoms -/

namespace Atom

/-- The place of a number among the reals; zero for other atoms. -/
def realKey : Atom → Int
  | .integer a => (Binary64.ofInt a.toInt).totalKey
  | .real a => a.totalKey
  | _ => 0

/-- One for reals, which come after the integers that round to them. -/
def realness : Atom → Nat
  | .real _ => 1
  | _ => 0

/-- The value of an integer; zero for other atoms. -/
def intKey : Atom → Int
  | .integer a => a.toInt
  | _ => 0

/-- The name of a symbol or the text of a string; empty for numbers. -/
def text : Atom → String
  | .string a => a
  | .symbol a => a
  | _ => ""

/-- Comparison by the keys, one after the other. -/
def keyOrder : Atom → Atom → Ordering :=
  compareLex (compareOn rank) (compareLex (compareOn realKey) (compareLex (compareOn realness)
    (compareLex (compareOn intKey) (compareOn text))))

/-- Where one number is less than another, so is its place, unless both round to the same. -/
theorem compare_toInt (m n : Int) :
    compare m n
      = (compare (Binary64.ofInt m).totalKey (Binary64.ofInt n).totalKey).then (compare m n) := by
  cases h : compare m n with
  | eq =>
    rw [Int.compare_eq_eq.mp h, compare_self]
    rfl
  | lt =>
    have hle := Binary64.totalKey_ofInt_mono (Int.le_of_lt (Int.compare_eq_lt.mp h))
    rcases Int.lt_or_eq_of_le hle with hlt | heq
    · rw [Int.compare_eq_lt.mpr hlt]
      rfl
    · rw [heq, compare_self]
      rfl
  | gt =>
    have hle := Binary64.totalKey_ofInt_mono (Int.le_of_lt (Int.compare_eq_gt.mp h))
    rcases Int.lt_or_eq_of_le hle with hlt | heq
    · rw [Int.compare_eq_gt.mpr hlt]
      rfl
    · rw [heq, compare_self]
      rfl

theorem keyOrder_eq (a b : Atom) :
    a.keyOrder b = (compare a.rank b.rank).then ((compare a.realKey b.realKey).then
      ((compare a.realness b.realness).then ((compare a.intKey b.intKey).then
        (compare a.text b.text)))) := rfl

/-- **Atoms are ordered by their keys.** -/
theorem order_eq_keyOrder (a b : Atom) : a.order b = a.keyOrder b := by
  rw [keyOrder_eq]
  cases a with
  | integer x =>
    cases b with
    | integer y =>
      simp only [order, rank, realKey, realness, intKey, text, compare_self, Ordering.then_eq,
        Ordering.eq_then]
      exact compare_toInt x.toInt y.toInt
    | real y => rfl
    | string y => rfl
    | symbol y => rfl
  | real x =>
    cases b with
    | integer y => rfl
    | real y =>
      simp only [order, rank, realKey, realness, intKey, text, compare_self, Ordering.then_eq,
        Ordering.eq_then]
      rfl
    | string y => rfl
    | symbol y => rfl
  | string x => cases b <;> rfl
  | symbol x => cases b <;> rfl

instance : TransCmp keyOrder :=
  inferInstanceAs (TransCmp (compareLex _ (compareLex _ (compareLex _ (compareLex _ _)))))

instance : TransCmp order := by
  have h : order = keyOrder := funext fun a => funext fun b => order_eq_keyOrder a b
  rw [h]
  infer_instance

end Atom

/-! ## Composition -/

/-- How three terms compare, the first with the second, the second with the third and the first with
the third, if the order is transitive. -/
structure Composes (o₁ o₂ o₃ : Ordering) : Prop where
  of_eq_left : o₁ = .eq → o₃ = o₂
  of_eq_right : o₂ = .eq → o₃ = o₁
  of_lt : o₁ = .lt → o₂ = .lt → o₃ = .lt

namespace Composes

variable {o₁ o₂ o₃ r₁ r₂ r₃ : Ordering}

theorem isLE (h : Composes o₁ o₂ o₃) (h₁ : o₁.isLE = true) (h₂ : o₂.isLE = true) :
    o₃.isLE = true := by
  obtain ⟨hleft, hright, hlt⟩ := h
  cases o₁ with
  | eq => rwa [hleft rfl]
  | gt => cases h₁
  | lt =>
    cases o₂ with
    | eq => rw [hright rfl]; rfl
    | gt => cases h₂
    | lt => rw [hlt rfl rfl]; rfl

/-- Where the first parts are equal, the rest decides. -/
theorem followedBy (h : Composes o₁ o₂ o₃) (hr : o₁ = .eq → o₂ = .eq → Composes r₁ r₂ r₃) :
    Composes (o₁.then r₁) (o₂.then r₂) (o₃.then r₃) := by
  obtain ⟨hleft, hright, hlt⟩ := h
  cases o₁ with
  | eq =>
    rw [hleft rfl]
    cases o₂ with
    | eq => exact hr rfl rfl
    | lt => exact ⟨fun _ => rfl, nofun, fun _ _ => rfl⟩
    | gt => exact ⟨fun _ => rfl, nofun, nofun⟩
  | lt =>
    cases o₂ with
    | eq =>
      rw [hright rfl]
      exact ⟨nofun, fun _ => rfl, fun _ _ => rfl⟩
    | lt =>
      rw [hlt rfl rfl]
      exact ⟨nofun, nofun, fun _ _ => rfl⟩
    | gt => exact ⟨nofun, nofun, nofun⟩
  | gt =>
    cases o₂ with
    | eq =>
      rw [hright rfl]
      exact ⟨nofun, fun _ => rfl, nofun⟩
    | lt => exact ⟨nofun, nofun, nofun⟩
    | gt => exact ⟨nofun, nofun, nofun⟩

end Composes

theorem composes_of_transCmp {α : Type} (cmp : α → α → Ordering) [TransCmp cmp] (a b c : α) :
    Composes (cmp a b) (cmp b c) (cmp a c) :=
  ⟨fun h => (TransCmp.congr_left h), fun h => (TransCmp.congr_right h).symm,
    fun h₁ h₂ => TransCmp.lt_trans h₁ h₂⟩

/-! ## Terms -/

namespace Term

theorem orderAll_swap {as : List Term} (ih : ∀ a ∈ as, ∀ b : Term, a.order b = (b.order a).swap)
    (bs : List Term) : orderAll as bs = (orderAll bs as).swap := by
  induction as generalizing bs with
  | nil => cases bs <;> rfl
  | cons a as ihas =>
    obtain ⟨ha, has⟩ := List.forall_mem_cons.mp ih
    cases bs with
    | nil => rfl
    | cons b bs => rw [orderAll, orderAll, Ordering.swap_then, ha, ihas has]

theorem order_swap (s t : Term) : s.order t = (t.order s).swap := by
  induction s using induct generalizing t with
  | atom a =>
    cases t with
    | atom b => exact @OrientedCmp.eq_swap _ Atom.order _ a b
    | app k bs n => rfl
  | app j as m ihhead ihargs =>
    cases t with
    | atom b => rfl
    | app k bs n =>
      rw [order, order, Ordering.swap_then, Ordering.swap_then, ← ihhead,
        ← orderAll_swap ihargs, Nat.compare_swap]

theorem orderAll_composes {as : List Term}
    (ih : ∀ a ∈ as, ∀ b c : Term, Composes (a.order b) (b.order c) (a.order c)) {bs cs : List Term}
    (hbs : as.length = bs.length) (hcs : bs.length = cs.length) :
    Composes (orderAll as bs) (orderAll bs cs) (orderAll as cs) := by
  induction as generalizing bs cs with
  | nil =>
    obtain rfl := List.length_eq_zero_iff.mp hbs.symm
    obtain rfl := List.length_eq_zero_iff.mp hcs.symm
    exact ⟨fun _ => rfl, fun _ => rfl, nofun⟩
  | cons a as ihas =>
    obtain ⟨ha, has⟩ := List.forall_mem_cons.mp ih
    cases bs with
    | nil => cases hbs
    | cons b bs =>
      cases cs with
      | nil => cases hcs
      | cons c cs =>
        have hrest := ihas has (Nat.succ.inj hbs) (Nat.succ.inj hcs)
        exact (ha b c).followedBy fun _ _ => hrest

theorem order_composes (s t u : Term) : Composes (s.order t) (t.order u) (s.order u) := by
  induction s using induct generalizing t u with
  | atom a =>
    cases t with
    | atom b =>
      cases u with
      | atom c => exact composes_of_transCmp Atom.order a b c
      | app l cs o => exact ⟨fun _ => rfl, nofun, fun _ _ => rfl⟩
    | app k bs n =>
      cases u with
      | atom c => exact ⟨nofun, nofun, nofun⟩
      | app l cs o => exact ⟨nofun, fun _ => rfl, fun _ _ => rfl⟩
  | app j as m ihhead ihargs =>
    cases t with
    | atom b =>
      cases u with
      | atom c => exact ⟨nofun, fun _ => rfl, nofun⟩
      | app l cs o => exact ⟨nofun, nofun, nofun⟩
    | app k bs n =>
      cases u with
      | atom c => exact ⟨fun _ => rfl, nofun, nofun⟩
      | app l cs o =>
        -- arguments are compared one by one only where there are equally many of them
        refine (ihhead k l).followedBy fun _ _ => ?_
        refine (composes_of_transCmp compare as.length bs.length cs.length).followedBy
          fun hbs hcs => ?_
        exact orderAll_composes ihargs (Nat.compare_eq_eq.mp hbs) (Nat.compare_eq_eq.mp hcs)

instance : OrientedCmp order := ⟨order_swap _ _⟩

/-- **The canonical order is total and transitive.** -/
instance : TransCmp order where
  isLE_trans h₁ h₂ := (order_composes _ _ _).isLE h₁ h₂

/-! ## Sorting -/

theorem notAfter_eq_isLE (a b : Term) : a.notAfter b = (a.order b).isLE := by
  unfold notAfter
  cases a.order b <;> rfl

theorem notAfter_trans (a b c : Term) (hab : a.notAfter b = true) (hbc : b.notAfter c = true) :
    a.notAfter c = true := by
  rw [notAfter_eq_isLE] at *
  exact TransCmp.isLE_trans hab hbc

theorem notAfter_total (a b : Term) : (a.notAfter b || b.notAfter a) = true := by
  rw [notAfter_eq_isLE, notAfter_eq_isLE, order_swap b a]
  cases a.order b <;> rfl

theorem inOrder_of_pairwise {args : List Term} (h : args.Pairwise fun a b => a.notAfter b = true) :
    inOrder args = true := by
  induction args with
  | nil => rfl
  | cons a as ih =>
    obtain ⟨hfirst, hrest⟩ := List.pairwise_cons.mp h
    cases as with
    | nil => rfl
    | cons b bs =>
      rw [inOrder, hfirst b List.mem_cons_self, ih hrest]
      rfl

/-- **Sorted arguments are in order.** -/
theorem inOrder_sortedArgs (args : List Term) : inOrder (sortedArgs args) = true :=
  inOrder_of_pairwise (List.pairwise_mergeSort notAfter_trans notAfter_total args)

end Term

end TermRewriting
