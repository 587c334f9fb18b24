import Mathlib.Data.List.Forall2
import TermRewriting.Binding
import TermRewriting.Equality
import TermRewriting.Proofs.Term.Coherence
import TermRewriting.Term.Order

/-!
# Terms that differ in their marks only

`Alike Q s t` says that `s` and `t` have one structure and that all their applications have the
property `Q`. For a robust `Q` the terms are coherent, so everything that is asked of them and looks
at their structure, at remembered fingerprints or at identity is answered alike.

The relation extends to lists place by place (`AlikeAll`), to bindings name by name
(`Bindings.Alike`) and to optional values (`Option.Rel`). The lemmas below say for each reading and
each construction that alike arguments give equal answers or alike results.
-/

namespace TermRewriting

/-- Related optional values are both missing, or both there and related. -/
theorem optionRel_cases {α β : Type} {P : α → β → Prop} {x : Option α} {y : Option β}
    (h : Option.Rel P x y) : (x = none ∧ y = none) ∨ ∃ a b, x = some a ∧ y = some b ∧ P a b := by
  cases h with
  | none => exact .inl ⟨rfl, rfl⟩
  | some hab => exact .inr ⟨_, _, rfl, rfl, hab⟩

theorem optionRel_getD {α β : Type} {P : α → β → Prop} {x : Option α} {y : Option β} {a : α} {b : β}
    (h : Option.Rel P x y) (hdefault : P a b) : P (x.getD a) (y.getD b) := by
  cases h with
  | none => exact hdefault
  | some hab => exact hab

namespace Term

/-- The two terms have one structure, and all their applications have the property. -/
structure Alike (Q : Term → Prop) (s t : Term) : Prop where
  same : s.unmarked = t.unmarked
  left : s.Every Q
  right : t.Every Q

/-- Lists that are alike place by place. -/
abbrev AlikeAll (Q : Term → Prop) : List Term → List Term → Prop := List.Forall₂ (Alike Q)

variable {Q R : Term → Prop}

theorem alike_refl {t : Term} (ht : t.Every Q) : Alike Q t t := ⟨rfl, ht, ht⟩

theorem alikeAll_refl {args : List Term} (h : ∀ a ∈ args, a.Every Q) : AlikeAll Q args args :=
  List.forall₂_same.mpr fun a ha => alike_refl (h a ha)

@[simp] theorem alike_atom (a : Atom) : Alike Q (.atom a) (.atom a) := alike_refl (.atom a)

namespace Alike

variable {s t u : Term}

theorem symm (h : Alike Q s t) : Alike Q t s := ⟨h.same.symm, h.right, h.left⟩

theorem trans (h : Alike Q s t) (h' : Alike Q t u) : Alike Q s u :=
  ⟨h.same.trans h'.same, h.left, h'.right⟩

end Alike

theorem alikeAll_iff {as bs : List Term} :
    AlikeAll Q as bs ↔ as.map unmarked = bs.map unmarked
      ∧ (∀ a ∈ as, a.Every Q) ∧ ∀ b ∈ bs, b.Every Q := by
  constructor
  · intro h
    induction h with
    | nil => simp
    | cons hab _ ih =>
      obtain ⟨same, hleft, hright⟩ := ih
      refine ⟨by rw [List.map_cons, List.map_cons, hab.same, same], ?_, ?_⟩
      · exact List.forall_mem_cons.mpr ⟨hab.left, hleft⟩
      · exact List.forall_mem_cons.mpr ⟨hab.right, hright⟩
  · rintro ⟨same, hleft, hright⟩
    induction as generalizing bs with
    | nil =>
      rw [List.map_nil, eq_comm, List.map_eq_nil_iff] at same
      rw [same]
      exact .nil
    | cons a as ih =>
      cases bs with
      | nil => cases same
      | cons b bs =>
        rw [List.map_cons, List.map_cons, List.cons.injEq] at same
        obtain ⟨ha, has⟩ := List.forall_mem_cons.mp hleft
        obtain ⟨hb, hbs⟩ := List.forall_mem_cons.mp hright
        exact .cons ⟨same.1, ha, hb⟩ (ih same.2 has hbs)

theorem AlikeAll.trans {as bs cs : List Term} (h : AlikeAll Q as bs) (h' : AlikeAll Q bs cs) :
    AlikeAll Q as cs := by
  obtain ⟨same, hleft, _⟩ := alikeAll_iff.mp h
  obtain ⟨same', _, hright⟩ := alikeAll_iff.mp h'
  exact alikeAll_iff.mpr ⟨same.trans same', hleft, hright⟩

/-- Alike terms are one atom, or applications with alike parts. -/
theorem Alike.cases {s t : Term} (h : Alike Q s t) :
    (∃ a, s = .atom a ∧ t = .atom a)
      ∨ ∃ j as m k bs n, s = .app j as m ∧ t = .app k bs n ∧ Q s ∧ Q t
          ∧ Alike Q j k ∧ AlikeAll Q as bs := by
  cases s with
  | atom a => exact .inl ⟨a, rfl, unmarked_eq_atom h.same.symm⟩
  | app j as m =>
    obtain ⟨k, bs, n, rfl, hhead, hargs⟩ := unmarked_eq_app h.same.symm
    obtain ⟨nodes, hj, has⟩ := every_app.mp h.left
    obtain ⟨nodet, hk, hbs⟩ := every_app.mp h.right
    exact .inr ⟨j, as, m, k, bs, n, rfl, rfl, nodes, nodet, ⟨hhead.symm, hj, hk⟩,
      alikeAll_iff.mpr ⟨hargs.symm, has, hbs⟩⟩

theorem alike_app {j k : Term} {as bs : List Term} {m n : Marks} (hm : Q (.app j as m))
    (hn : Q (.app k bs n)) (hhead : Alike Q j k) (hargs : AlikeAll Q as bs) :
    Alike Q (.app j as m) (.app k bs n) := by
  obtain ⟨same, hleft, hright⟩ := alikeAll_iff.mp hargs
  refine ⟨?_, .app hm hhead.left hleft, .app hn hhead.right hright⟩
  rw [unmarked_app, unmarked_app, hhead.same, same]

theorem alike_apply (hQ : Robust Q) {j k : Term} {as bs : List Term} (hhead : Alike Q j k)
    (hargs : AlikeAll Q as bs) : Alike Q (apply j as) (apply k bs) :=
  alike_app (hQ.built j as) (hQ.built k bs) hhead hargs

theorem alike_call (hQ : Robust Q) (name : String) {as bs : List Term} (hargs : AlikeAll Q as bs) :
    Alike Q (call name as) (call name bs) :=
  alike_apply hQ (alike_atom _) hargs

/-! ## Readings -/

namespace Alike

variable {s t : Term}

theorem isAtom_eq (h : Alike Q s t) : s.isAtom = t.isAtom := by
  rw [← isAtom_unmarked s, h.same, isAtom_unmarked]

theorem symbolName?_eq (h : Alike Q s t) : s.symbolName? = t.symbolName? := by
  rw [← symbolName?_unmarked s, h.same, symbolName?_unmarked]

theorem headName?_eq (h : Alike Q s t) : s.headName? = t.headName? := by
  rw [← headName?_unmarked s, h.same, headName?_unmarked]

theorem isCall_eq (name : String) (h : Alike Q s t) : s.isCall name = t.isCall name := by
  rw [← isCall_unmarked name s, h.same, isCall_unmarked]

theorem head (h : Alike Q s t) : Alike Q s.head t.head := by
  obtain ⟨a, rfl, rfl⟩ | ⟨j, as, m, k, bs, n, rfl, rfl, _, _, hhead, _⟩ := h.cases
  · exact alike_atom _
  · exact hhead

theorem args (h : Alike Q s t) : AlikeAll Q s.args t.args := by
  obtain ⟨a, rfl, rfl⟩ | ⟨j, as, m, k, bs, n, rfl, rfl, _, _, _, hargs⟩ := h.cases
  · exact .nil
  · exact hargs

theorem callArgs? (name : String) (h : Alike Q s t) :
    Option.Rel (AlikeAll Q) (s.callArgs? name) (t.callArgs? name) := by
  obtain ⟨a, rfl, rfl⟩ | ⟨j, as, m, k, bs, n, rfl, rfl, _, _, hhead, hargs⟩ := h.cases
  · exact .none
  · rw [callArgs?_app, callArgs?_app, hhead.symbolName?_eq]
    split
    · exact .some hargs
    · exact .none

theorem conditional? (h : Alike Q s t) :
    Option.Rel (fun c d => Alike Q c.1 d.1 ∧ Alike Q c.2 d.2) s.conditional? t.conditional? := by
  simp only [Term.conditional?]
  obtain ⟨hs, ht⟩ | ⟨as, bs, hs, ht, hargs⟩ := optionRel_cases (h.callArgs? "ConditionalExpression")
  · rw [hs, ht]
    exact .none
  · rw [hs, ht]
    cases hargs with
    | nil => exact .none
    | cons hvalue hrest =>
      cases hrest with
      | nil => exact .none
      | cons hcondition hrest =>
        cases hrest with
        | nil => exact .some ⟨hvalue, hcondition⟩
        | cons _ _ => exact .none

theorem fingerprint_eq (hQ : Robust Q) (h : Alike Q s t) : s.fingerprint = t.fingerprint := by
  rw [fingerprint_unmarked (h.left.coherent hQ), h.same,
    ← fingerprint_unmarked (h.right.coherent hQ)]

theorem memoized (hQ : Robust Q) (h : Alike Q s t) : Alike Q s.memoized t.memoized :=
  ⟨by rw [unmarked_memoized, unmarked_memoized, h.same], h.left.memoized hQ, h.right.memoized hQ⟩

end Alike

/-- Identity is decided alike, also between terms of different kinds of marks. -/
theorem identical_eq (hQ : Robust Q) (hR : Robust R) {s t s' t' : Term} (h : Alike Q s s')
    (h' : Alike R t t') : s.identical t = s'.identical t' := by
  rw [← identical_unmarked (h.left.coherent hQ) (h'.left.coherent hR), h.same, h'.same,
    identical_unmarked (h.right.coherent hQ) (h'.right.coherent hR)]

/-! ## Order -/

theorem orderAll_map_unmarked {as : List Term}
    (ih : ∀ a ∈ as, ∀ b : Term, a.unmarked.order b.unmarked = a.order b) (bs : List Term) :
    orderAll (as.map unmarked) (bs.map unmarked) = orderAll as bs := by
  induction as generalizing bs with
  | nil => cases bs <;> rfl
  | cons a as ihas =>
    cases bs with
    | nil => rfl
    | cons b bs =>
      rw [List.map_cons, List.map_cons, orderAll, orderAll, ih a List.mem_cons_self,
        ihas fun x hx => ih x (List.mem_cons_of_mem _ hx)]

@[simp] theorem order_unmarked (s t : Term) : s.unmarked.order t.unmarked = s.order t := by
  induction s using induct generalizing t with
  | atom a =>
    cases t with
    | atom b => rfl
    | app k bs n => rw [unmarked_app]; rfl
  | app j as m ihhead ihargs =>
    cases t with
    | atom b => rw [unmarked_app]; rfl
    | app k bs n =>
      rw [unmarked_app, unmarked_app, order, order, ihhead, List.length_map, List.length_map,
        orderAll_map_unmarked ihargs]

theorem inOrder_map_unmarked (args : List Term) : inOrder (args.map unmarked) = inOrder args := by
  match args with
  | [] => rfl
  | [_] => rfl
  | a :: b :: rest =>
    rw [List.map_cons, List.map_cons, inOrder, inOrder, notAfter, notAfter, order_unmarked,
      ← List.map_cons, inOrder_map_unmarked (b :: rest)]

theorem sortedArgs_map_unmarked (args : List Term) :
    (sortedArgs args).map unmarked = sortedArgs (args.map unmarked) := by
  unfold sortedArgs
  refine List.map_mergeSort fun a _ b _ => ?_
  rw [notAfter, notAfter, order_unmarked]

theorem AlikeAll.inOrder_eq {as bs : List Term} (h : AlikeAll Q as bs) :
    inOrder as = inOrder bs := by
  rw [← inOrder_map_unmarked as, (alikeAll_iff.mp h).1, inOrder_map_unmarked]

theorem AlikeAll.sortedArgs {as bs : List Term} (h : AlikeAll Q as bs) :
    AlikeAll Q (sortedArgs as) (sortedArgs bs) := by
  obtain ⟨same, hleft, hright⟩ := alikeAll_iff.mp h
  refine alikeAll_iff.mpr ⟨?_, ?_, ?_⟩
  · rw [sortedArgs_map_unmarked, sortedArgs_map_unmarked, same]
  · exact fun a ha => hleft a ((sortedArgs_perm as).mem_iff.mp ha)
  · exact fun b hb => hright b ((sortedArgs_perm bs).mem_iff.mp hb)

/-! ## Splicing -/

theorem AlikeAll.spliced (name : String) {as bs : List Term} (h : AlikeAll Q as bs) :
    AlikeAll Q (spliced name as) (spliced name bs) :=
  List.rel_flatMap h fun _ _ hab => optionRel_getD (hab.callArgs? name) (.cons hab .nil)

theorem AlikeAll.any_isCall_eq (name : String) {as bs : List Term} (h : AlikeAll Q as bs) :
    as.any (isCall name) = bs.any (isCall name) := by
  induction h with
  | nil => rfl
  | cons hab _ ih => rw [List.any_cons, List.any_cons, hab.isCall_eq, ih]

end Term

/-! ## Bindings -/

namespace Bindings

/-- The same names are bound, to alike terms. -/
abbrev Alike (Q : Term → Prop) : Bindings → Bindings → Prop :=
  List.Forall₂ fun x y => x.1 = y.1 ∧ Term.Alike Q x.2 y.2

variable {Q : Term → Prop} {b b' : Bindings}

theorem Alike.get? (h : Alike Q b b') (name : String) :
    Option.Rel (Term.Alike Q) (b.get? name) (b'.get? name) := by
  induction h with
  | nil => exact .none
  | @cons x y _ _ hxy _ ih =>
    obtain ⟨n, v⟩ := x
    obtain ⟨n', v'⟩ := y
    obtain ⟨rfl, hv⟩ := hxy
    simp only [Bindings.get?, List.lookup_cons]
    split
    · exact .some hv
    · exact ih

theorem Alike.bind? (hQ : Term.Robust Q) (h : Alike Q b b') (name : String) {t t' : Term}
    (ht : Term.Alike Q t t') : Option.Rel (Alike Q) (b.bind? name t) (b'.bind? name t') := by
  unfold Bindings.bind?
  obtain ⟨hb, hb'⟩ | ⟨v, v', hb, hb', hbound⟩ := optionRel_cases (h.get? name)
  · rw [hb, hb']
    exact .some (List.rel_append h (.cons ⟨rfl, ht⟩ .nil))
  · rw [hb, hb']
    simp only [Term.identical_eq hQ hQ hbound ht]
    split
    · exact .some h
    · exact .none

end Bindings

namespace Term

variable {Q : Term → Prop}

/-- **Instances of one template under alike bindings are alike, whatever is remembered in the
template:** its nodes are built anew. -/
theorem alike_instantiate (hQ : Robust Q) {b b' : Bindings} (h : Bindings.Alike Q b b')
    (template : Term) : Alike Q (template.instantiate b) (template.instantiate b') := by
  induction template using induct with
  | atom a =>
    cases a with
    | symbol name =>
      rw [instantiate, instantiate]
      obtain ⟨hb, hb'⟩ | ⟨v, v', hb, hb', hbound⟩ := optionRel_cases (h.get? name)
      · rw [hb, hb']
        exact alike_atom _
      · rw [hb, hb']
        exact hbound
    | integer value => exact alike_atom _
    | real value => exact alike_atom _
    | string text => exact alike_atom _
  | app head args marks ihhead ihargs =>
    rw [instantiate, instantiate, instantiateAll_eq_map, instantiateAll_eq_map]
    refine alike_apply hQ ihhead (AlikeAll.spliced "Sequence" ?_)
    induction args with
    | nil => exact .nil
    | cons a as ih =>
      exact .cons (ihargs a List.mem_cons_self)
        (ih fun x hx => ihargs x (List.mem_cons_of_mem _ hx))

end Term

end TermRewriting
