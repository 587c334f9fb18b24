import Mathlib.Data.List.Forall2
import Mathlib.Data.List.Perm.Basic
import TermRewriting.Proofs.Binary64.Value
import TermRewriting.Proofs.Term.Coherence
import TermRewriting.Equality

/-!
# Equality is an equivalence

Atoms are equal when they have one representative, so their equality is an equivalence. Applications
are equal when their heads are and their arguments match: place by place, or in some order under an
orderless head (`equals_app_iff`). Finding that order by taking the first equal argument is enough,
because an argument that is equal to the one taken is also equal to the one left over.

That exchange needs symmetry and transitivity for the arguments, and gives them for the application,
so the two are proved together (`balanced`). The shortcut for identical terms finds nothing that the
search would not, so no remembered fingerprint has a part in a verdict (`verdict_unmarked`).
-/

namespace TermRewriting

/-! ## Atoms -/

namespace Atom

/-- One atom for all that are equal: an integral real stands for the integer of its value, if that
is an integer of 64 bits. -/
def representative : Atom → Atom
  | .real x =>
    match x.toInt? with
    | some n => if (Int64.ofInt n).toInt = n then .integer (.ofInt n) else .real x
    | none => .real x
  | a => a

theorem representative_real_eq_integer {x : Binary64} {n : Int64} :
    (Atom.real x).representative = .integer n ↔ x.toInt? = some n.toInt := by
  unfold representative
  dsimp only
  cases hx : x.toInt? with
  | none => simp
  | some m =>
    dsimp only
    split
    · next hm =>
      rw [Atom.integer.injEq, Option.some.injEq]
      constructor
      · rintro rfl
        exact hm.symm
      · rintro rfl
        exact Int64.ofInt_toInt n
    · next hm =>
      refine ⟨nofun, fun h => absurd ?_ hm⟩
      rw [Option.some.inj h, Int64.ofInt_toInt]

/-- A real stands for an integer or for itself. -/
theorem representative_real (x : Binary64) :
    (∃ n, (Atom.real x).representative = .integer n)
      ∨ (Atom.real x).representative = .real x := by
  unfold representative
  dsimp only
  cases x.toInt? with
  | none => exact .inr rfl
  | some m =>
    dsimp only
    split
    · exact .inl ⟨_, rfl⟩
    · exact .inr rfl

theorem representative_real_inj {x y : Binary64} :
    (Atom.real x).representative = (Atom.real y).representative
      ↔ x = y ∨ x.compare? y = some .eq := by
  rw [Binary64.compare?_eq_some_eq]
  constructor
  · intro h
    rcases representative_real x with ⟨n, hx⟩ | hx
    · have hxn := representative_real_eq_integer.mp hx
      have hyn := representative_real_eq_integer.mp (h.symm.trans hx)
      exact .inr ⟨Binary64.isNaN_eq_false_of_toInt? hxn, Binary64.isNaN_eq_false_of_toInt? hyn,
        Binary64.valueKey_eq_of_toInt? hxn hyn⟩
    · rcases representative_real y with ⟨n, hy⟩ | hy
      · rw [hx, hy] at h
        cases h
      · rw [hx, hy] at h
        exact .inl (Atom.real.inj h)
  · rintro (rfl | ⟨_, _, hvalue⟩)
    · rfl
    · obtain ⟨hmagnitude, hsign⟩ := Binary64.fields_of_valueKey_eq hvalue
      rcases hsign with hsign | hzero
      · rw [Binary64.eq_of_fields hsign hmagnitude]
      · -- the zeros stand for the integer zero
        have hx := Binary64.toInt?_eq_zero hzero
        have hy := Binary64.toInt?_eq_zero (hmagnitude ▸ hzero)
        rw [(representative_real_eq_integer (n := 0)).mpr hx,
          (representative_real_eq_integer (n := 0)).mpr hy]

theorem symbolVerdict_eq_equal {a b : String} : symbolVerdict a b = .equal ↔ a = b := by
  unfold symbolVerdict
  split
  · simp_all
  · split <;> simp_all

theorem ofBool_eq_equal {b : Bool} : Verdict.ofBool b = .equal ↔ b = true := by
  cases b <;> simp [Verdict.ofBool]

/-- A verdict that is never `undecided` is fixed by when it is `equal`. -/
theorem ofBool_congr {p q : Bool} (h : Verdict.ofBool p = .equal ↔ Verdict.ofBool q = .equal) :
    Verdict.ofBool p = Verdict.ofBool q := by
  rw [ofBool_eq_equal, ofBool_eq_equal] at h
  rw [Bool.eq_iff_iff.mpr h]

/-- **Atoms are equal when they have one representative.** -/
theorem verdict_eq_equal {a b : Atom} :
    a.verdict b = .equal ↔ a.representative = b.representative := by
  cases a with
  | integer x =>
    cases b with
    | integer y => simp [verdict, ofBool_eq_equal, representative]
    | real y =>
      rw [eq_comm (b := representative _), show representative (.integer x) = .integer x from rfl,
        representative_real_eq_integer]
      simp [verdict, ofBool_eq_equal]
    | string y => simp [verdict, representative]
    | symbol y => simp [verdict, representative]
  | real x =>
    rcases representative_real x with ⟨n, hx⟩ | hx <;>
    cases b with
    | integer y =>
      rw [show representative (.integer y) = .integer y from rfl, representative_real_eq_integer]
      simp [verdict, ofBool_eq_equal]
    | real y => simp [verdict, ofBool_eq_equal, representative_real_inj]
    | string y => rw [hx]; simp [verdict, representative]
    | symbol y => rw [hx]; simp [verdict, representative]
  | string x =>
    cases b with
    | integer y => simp [verdict, representative]
    | real y =>
      rcases representative_real y with ⟨n, hy⟩ | hy <;> rw [hy] <;> simp [verdict, representative]
    | string y => simp [verdict, ofBool_eq_equal, representative]
    | symbol y => simp [verdict, representative]
  | symbol x =>
    cases b with
    | integer y => simp [verdict, representative]
    | real y =>
      rcases representative_real y with ⟨n, hy⟩ | hy <;> rw [hy] <;> simp [verdict, representative]
    | string y => simp [verdict, representative]
    | symbol y => simp [verdict, symbolVerdict_eq_equal, representative]

theorem symbolVerdict_comm (a b : String) : symbolVerdict a b = symbolVerdict b a := by
  unfold symbolVerdict
  simp only [eq_comm (a := a) (b := b), or_comm, and_comm]

/-- The verdict on two atoms does not depend on which comes first. -/
theorem verdict_comm (a b : Atom) : a.verdict b = b.verdict a := by
  have hequal : a.verdict b = .equal ↔ b.verdict a = .equal := by
    rw [verdict_eq_equal, verdict_eq_equal, eq_comm]
  cases a with
  | integer x => cases b <;> first | rfl | exact ofBool_congr hequal
  | real x => cases b <;> first | rfl | exact ofBool_congr hequal
  | string x => cases b <;> first | rfl | exact ofBool_congr hequal
  | symbol x => cases b <;> first | rfl | exact symbolVerdict_comm _ _

end Atom

/-! ## Lists that match -/

/-- What the search for an element gives back: that element, and the others in their order. -/
theorem eraseFirst?_eq_some {α : Type} {p : α → Bool} {l rest : List α}
    (h : eraseFirst? p l = some rest) : ∃ a, p a = true ∧ (a :: rest).Perm l := by
  induction l generalizing rest with
  | nil => cases h
  | cons x xs ih =>
    rw [eraseFirst?] at h
    split at h
    · next hx =>
      cases h
      exact ⟨x, hx, .refl _⟩
    · obtain ⟨rest', hrest, rfl⟩ := Option.map_eq_some_iff.mp h
      obtain ⟨a, ha, hperm⟩ := ih hrest
      exact ⟨a, ha, (List.Perm.swap x a rest').trans (hperm.cons x)⟩

theorem eraseFirst?_eq_none {α : Type} {p : α → Bool} {l : List α} (h : eraseFirst? p l = none)
    {a : α} (ha : a ∈ l) : p a = false := by
  induction l with
  | nil => cases ha
  | cons x xs ih =>
    rw [eraseFirst?] at h
    split at h
    · cases h
    · next hx =>
      rcases List.mem_cons.mp ha with rfl | ha
      · exact Bool.eq_false_iff.mpr hx
      · exact ih (Option.map_eq_none_iff.mp h) ha

/-- The lists are related place by place, or, if the places are free, after reordering one. -/
def Matched {α : Type} (R : α → α → Prop) (free : Bool) (as bs : List α) : Prop :=
  ∃ cs, cs.Perm bs ∧ (free = false → cs = bs) ∧ List.Forall₂ R as cs

section Matched

variable {α : Type} {R : α → α → Prop} {free : Bool} {as bs cs : List α}

theorem Matched.length_eq (h : Matched R free as bs) : as.length = bs.length := by
  obtain ⟨cs, hperm, _, hcs⟩ := h
  exact hcs.length_eq.trans hperm.length_eq

theorem matched_of_forall₂ (h : List.Forall₂ R as bs) : Matched R free as bs :=
  ⟨bs, .refl bs, fun _ => rfl, h⟩

theorem matched_false : Matched R false as bs ↔ List.Forall₂ R as bs := by
  constructor
  · rintro ⟨cs, _, hcs, h⟩
    rwa [← hcs rfl]
  · exact matched_of_forall₂

theorem matched_true : Matched R true as bs ↔ ∃ cs, cs.Perm bs ∧ List.Forall₂ R as cs := by
  simp [Matched]

theorem forall₂_flip (hR : ∀ a ∈ as, ∀ b ∈ bs, R a b → R b a) (h : List.Forall₂ R as bs) :
    List.Forall₂ R bs as := by
  induction h with
  | nil => exact .nil
  | @cons a b as bs hab _ ih =>
    refine .cons (hR a List.mem_cons_self b List.mem_cons_self hab) (ih fun x hx y hy => ?_)
    exact hR x (List.mem_cons_of_mem a hx) y (List.mem_cons_of_mem b hy)

theorem forall₂_trans (hR : ∀ a ∈ as, ∀ b c, R a b → R b c → R a c) (h : List.Forall₂ R as bs)
    (h' : List.Forall₂ R bs cs) : List.Forall₂ R as cs := by
  induction h generalizing cs with
  | nil => exact h'
  | @cons a b as bs hab _ ih =>
    obtain ⟨ha, has⟩ := List.forall_mem_cons.mp hR
    cases h' with
    | @cons _ c _ cs hbc hrest => exact .cons (ha b c hab hbc) (ih has hrest)

theorem Matched.symm (hR : ∀ a ∈ as, ∀ b ∈ bs, R a b → R b a) (h : Matched R free as bs) :
    Matched R free bs as := by
  obtain ⟨cs, hperm, hplaces, hcs⟩ := h
  have hflip : List.Forall₂ R cs as :=
    forall₂_flip (fun a ha c hc => hR a ha c (hperm.mem_iff.mp hc)) hcs
  cases free with
  | false => exact matched_of_forall₂ (hplaces rfl ▸ hflip)
  | true =>
    obtain ⟨ds, hds, hperm'⟩ := List.perm_comp_forall₂ hperm.symm hflip
    exact matched_true.mpr ⟨ds, hperm', hds⟩

theorem Matched.trans (hR : ∀ a ∈ as, ∀ b c, R a b → R b c → R a c) (h : Matched R free as bs)
    (h' : Matched R free bs cs) : Matched R free as cs := by
  cases free with
  | false =>
    rw [matched_false] at *
    exact forall₂_trans hR h h'
  | true =>
    rw [matched_true] at *
    obtain ⟨bs', hbs, has⟩ := h
    obtain ⟨cs', hcs, hrest⟩ := h'
    -- reorder the second match along with the first
    obtain ⟨ds, hds, hperm⟩ := List.perm_comp_forall₂ hbs hrest
    exact ⟨ds, hperm.trans hcs, forall₂_trans hR has hds⟩

/-- **Exchange:** of the elements to be matched, `b` is taken away instead of `c`. Where it was
needed, `c` does as well. -/
theorem exists_forall₂_of_mem {b c : α} (hR : ∀ a ∈ as, R a b → R a c) (h : List.Forall₂ R as cs)
    (hb : b ∈ c :: cs) : ∃ ds, List.Forall₂ R as ds ∧ (b :: ds).Perm (c :: cs) := by
  rcases List.mem_cons.mp hb with rfl | hb
  · exact ⟨cs, h, .refl _⟩
  · induction h with
    | nil => cases hb
    | @cons a x as cs hax hrest ih =>
      obtain ⟨ha, has⟩ := List.forall_mem_cons.mp hR
      rcases List.mem_cons.mp hb with rfl | hb
      · exact ⟨c :: cs, .cons (ha hax) hrest, .swap c b cs⟩
      · obtain ⟨ds, hds, hperm⟩ := ih has (List.mem_cons_of_mem c hb) hb
        exact ⟨x :: ds, .cons hax hds,
          (List.Perm.swap x b ds).trans ((hperm.cons x).trans (.swap c x cs))⟩

end Matched

/-! ## Terms -/

namespace Term

variable {table : SymbolTable}

/-- The verdict is that the terms are equal. -/
def Equals (table : SymbolTable) (s t : Term) : Prop := s.verdict table t = .equal

/-- Whether the arguments under a head may match in any order. -/
def freePlaces (table : SymbolTable) (head : Term) : Bool := head.symbolName?.any table.isOrderless

theorem symbolName?_representative (a : Atom) :
    (Term.atom a.representative).symbolName? = (Term.atom a).symbolName? := by
  cases a with
  | real x =>
    rcases Atom.representative_real x with ⟨n, hx⟩ | hx
    · rw [hx]
      rfl
    · rw [hx]
  | symbol x => rfl
  | integer x => rfl
  | string x => rfl

/-- Only the symbol itself is equal to a symbol. -/
theorem Equals.symbolName?_eq {s t : Term} (h : Equals table s t) :
    s.symbolName? = t.symbolName? := by
  cases s with
  | atom a =>
    cases t with
    | atom b =>
      rw [← symbolName?_representative a, Atom.verdict_eq_equal.mp h, symbolName?_representative]
    | app k bs n => cases h
  | app j as m =>
    cases t with
    | atom b => cases h
    | app k bs n => rfl

theorem freePlaces_congr {s t : Term} (h : Equals table s t) :
    freePlaces table s = freePlaces table t := by
  rw [freePlaces, freePlaces, h.symbolName?_eq]

theorem equalInPlace_iff {as bs : List Term} :
    equalInPlace table as bs = true ↔ List.Forall₂ (Equals table) as bs := by
  induction as generalizing bs with
  | nil => cases bs <;> simp [equalInPlace]
  | cons a as ih =>
    cases bs with
    | nil => simp [equalInPlace]
    | cons b bs =>
      rw [equalInPlace, Bool.and_eq_true, beq_iff_eq, ih, List.forall₂_cons]
      rfl

/-- What the search pairs off does match. -/
theorem matched_of_pairsOff {as bs : List Term} (h : pairsOff table as bs = true) :
    Matched (Equals table) true as bs := by
  induction as generalizing bs with
  | nil =>
    rw [pairsOff, List.isEmpty_iff] at h
    rw [h]
    exact matched_of_forall₂ .nil
  | cons a as ih =>
    rw [pairsOff] at h
    split at h
    · next rest hrest =>
      obtain ⟨b, hb, hperm⟩ := eraseFirst?_eq_some hrest
      obtain ⟨cs, hcs, has⟩ := matched_true.mp (ih h)
      exact matched_true.mpr ⟨b :: cs, (hcs.cons b).trans hperm, .cons (beq_iff_eq.mp hb) has⟩
    · cases h

/-- Where `a` is equal to both `b` and `c`, every other argument equal to `b` is equal to `c`. -/
def Exchanges (table : SymbolTable) (as bs : List Term) : Prop :=
  ∀ a ∈ as, ∀ x ∈ as, ∀ b ∈ bs, ∀ c ∈ bs,
    Equals table a b → Equals table a c → Equals table x b → Equals table x c

/-- **The first equal argument will do:** the search pairs off everything that matches. -/
theorem pairsOff_of_matched {as bs : List Term} (hexchange : Exchanges table as bs)
    (h : Matched (Equals table) true as bs) : pairsOff table as bs = true := by
  induction as generalizing bs with
  | nil =>
    have hlength := h.length_eq
    rw [pairsOff, List.isEmpty_iff]
    exact List.length_eq_zero_iff.mp hlength.symm
  | cons a as ih =>
    obtain ⟨_, hperm, hmatch⟩ := matched_true.mp h
    cases hmatch with
    | @cons _ c _ cs hac hrest =>
      have hc : c ∈ bs := hperm.subset List.mem_cons_self
      rw [pairsOff]
      cases hfound : eraseFirst? (fun b => a.verdict table b == .equal) bs with
      | none =>
        have hnone := eraseFirst?_eq_none hfound hc
        exact absurd hac (beq_eq_false_iff_ne.mp hnone)
      | some rest =>
        obtain ⟨b, hb, hperm'⟩ := eraseFirst?_eq_some hfound
        have hbmem : b ∈ bs := hperm'.subset List.mem_cons_self
        obtain ⟨ds, hds, hpermds⟩ := exists_forall₂_of_mem
          (fun x hx => hexchange a List.mem_cons_self x (List.mem_cons_of_mem a hx) b hbmem c hc
            (beq_iff_eq.mp hb) hac) hrest (hperm.symm.subset hbmem)
        have hleft : ds.Perm rest :=
          (List.perm_cons b).mp (hpermds.trans (hperm.trans hperm'.symm))
        refine ih (fun x hx y hy b' hb' c' hc' => ?_) (matched_true.mpr ⟨ds, hleft, hds⟩)
        exact hexchange x (List.mem_cons_of_mem a hx) y (List.mem_cons_of_mem a hy) b'
          (hperm'.subset (List.mem_cons_of_mem b hb')) c'
          (hperm'.subset (List.mem_cons_of_mem b hc'))

/-- Identical terms are equal. -/
theorem equals_of_identical {s t : Term} (h : s.identical t = true) : Equals table s t := by
  cases s with
  | atom a =>
    cases t with
    | atom b =>
      rw [identical, beq_iff_eq] at h
      exact Atom.verdict_eq_equal.mpr (h ▸ rfl)
    | app k bs n => cases h
  | app j as m =>
    cases t with
    | atom b => cases h
    | app k bs n =>
      have hlength : as.length = bs.length :=
        (identical_app h).2.length_eq
      rw [Equals, verdict, if_neg (not_not_intro hlength), if_pos h]

/-- The search for a match: in any order under an orderless head, else place by place. -/
def argsMatch (table : SymbolTable) (head : Term) (as bs : List Term) : Bool :=
  if freePlaces table head then pairsOff table as bs else equalInPlace table as bs

theorem verdict_app {h k : Term} {as bs : List Term} {m n : Marks}
    (hlength : as.length = bs.length) :
    (Term.app h as m).verdict table (.app k bs n)
      = if (Term.app h as m).identical (.app k bs n)
          || (h.verdict table k == .equal && argsMatch table h as bs) then .equal
        else .undecided := by
  rw [verdict, if_neg (not_not_intro hlength), argsMatch, freePlaces]
  split_ifs <;> simp_all

theorem verdict_app_of_length_ne {h k : Term} {as bs : List Term} {m n : Marks}
    (hlength : as.length ≠ bs.length) :
    (Term.app h as m).verdict table (.app k bs n) = .different := by
  rw [verdict, if_pos hlength]

theorem matched_of_argsMatch {h : Term} {as bs : List Term}
    (hmatch : argsMatch table h as bs = true) :
    Matched (Equals table) (freePlaces table h) as bs := by
  unfold argsMatch at hmatch
  cases hfree : freePlaces table h with
  | true =>
    rw [hfree] at hmatch
    exact matched_of_pairsOff hmatch
  | false =>
    rw [hfree] at hmatch
    exact matched_of_forall₂ (equalInPlace_iff.mp hmatch)

theorem argsMatch_of_matched {h : Term} {as bs : List Term} (hexchange : Exchanges table as bs)
    (hmatch : Matched (Equals table) (freePlaces table h) as bs) :
    argsMatch table h as bs = true := by
  unfold argsMatch
  cases hfree : freePlaces table h with
  | true =>
    rw [hfree] at hmatch
    exact pairsOff_of_matched hexchange hmatch
  | false =>
    rw [hfree] at hmatch
    exact equalInPlace_iff.mpr (matched_false.mp hmatch)

/-- What equal applications consist of, however that was found out. -/
theorem matched_of_equals {h k : Term} {as bs : List Term} {m n : Marks}
    (heq : Equals table (.app h as m) (.app k bs n)) :
    Equals table h k ∧ Matched (Equals table) (freePlaces table h) as bs := by
  unfold Equals at heq
  by_cases hlength : as.length = bs.length
  · rw [verdict_app hlength] at heq
    split at heq
    · next hcond =>
      rw [Bool.or_eq_true, Bool.and_eq_true, beq_iff_eq] at hcond
      rcases hcond with hid | ⟨hhead, hargs⟩
      · obtain ⟨hhead, hargs⟩ := identical_app hid
        exact ⟨equals_of_identical hhead,
          matched_of_forall₂ (hargs.imp fun _ _ => equals_of_identical)⟩
      · exact ⟨hhead, matched_of_argsMatch hargs⟩
    · cases heq
  · rw [verdict_app_of_length_ne hlength] at heq
    cases heq

theorem equals_of_matched {h k : Term} {as bs : List Term} {m n : Marks}
    (hexchange : Exchanges table as bs) (hhead : Equals table h k)
    (hmatch : Matched (Equals table) (freePlaces table h) as bs) :
    Equals table (.app h as m) (.app k bs n) := by
  unfold Equals
  rw [verdict_app hmatch.length_eq, hhead, argsMatch_of_matched hexchange hmatch]
  simp

/-- Applications to equally many arguments have one verdict if they are equal together. -/
theorem verdict_app_congr {h k h' k' : Term} {as bs as' bs' : List Term} {m n m' n' : Marks}
    (hlength : as.length = bs.length) (hlength' : as'.length = bs'.length)
    (hequals : Equals table (.app h as m) (.app k bs n)
      ↔ Equals table (.app h' as' m') (.app k' bs' n')) :
    (Term.app h as m).verdict table (.app k bs n)
      = (Term.app h' as' m').verdict table (.app k' bs' n') := by
  unfold Equals at hequals
  rw [verdict_app hlength, verdict_app hlength'] at *
  split_ifs at * <;> simp_all

/-! ## The equivalence -/

/-- The verdicts on a term and any other agree both ways, and equality carries over from it. -/
structure Balanced (table : SymbolTable) (s : Term) : Prop where
  comm : ∀ t, s.verdict table t = t.verdict table s
  trans : ∀ t u, Equals table s t → Equals table t u → Equals table s u

namespace Balanced

theorem symm {s t : Term} (hs : Balanced table s) (h : Equals table s t) : Equals table t s :=
  (hs.comm t).symm.trans h

theorem symm' {s t : Term} (hs : Balanced table s) (h : Equals table t s) : Equals table s t :=
  (hs.comm t).trans h

/-- Equality of the arguments is an equivalence, so one of them does as well as an equal one. -/
theorem exchanges {as bs : List Term} (has : ∀ a ∈ as, Balanced table a) :
    Exchanges table as bs := by
  intro a ha x hx b _ c _ hab hac hxb
  have hxa := (has x hx).trans b a hxb ((has a ha).symm hab)
  exact (has x hx).trans a c hxa hac

/-- The same for arguments that are searched for: what they are equal to is balanced. -/
theorem exchanges' {as bs : List Term} (has : ∀ a ∈ as, Balanced table a) :
    Exchanges table bs as := by
  intro b _ y _ a ha c hc hba hbc hya
  have hca := (has c hc).trans b a ((has c hc).symm' hbc) hba
  have hcy := (has c hc).trans a y hca ((has a ha).symm' hya)
  exact (has c hc).symm hcy

theorem equals_app_iff {h k : Term} {as bs : List Term} {m n : Marks}
    (has : ∀ a ∈ as, Balanced table a) :
    Equals table (.app h as m) (.app k bs n)
      ↔ Equals table h k ∧ Matched (Equals table) (freePlaces table h) as bs :=
  ⟨matched_of_equals, fun ⟨hhead, hmatch⟩ => equals_of_matched (exchanges has) hhead hmatch⟩

theorem app_comm {h k : Term} {as bs : List Term} {m n : Marks} (hh : Balanced table h)
    (has : ∀ a ∈ as, Balanced table a) :
    Equals table (.app h as m) (.app k bs n) ↔ Equals table (.app k bs n) (.app h as m) := by
  constructor
  · intro heq
    obtain ⟨hhead, hmatch⟩ := matched_of_equals heq
    refine equals_of_matched (exchanges' has) (hh.symm hhead) ?_
    rw [← freePlaces_congr hhead]
    exact hmatch.symm fun a ha b _ hab => (has a ha).symm hab
  · intro heq
    obtain ⟨hhead, hmatch⟩ := matched_of_equals heq
    refine equals_of_matched (exchanges has) (hh.symm' hhead) ?_
    rw [← freePlaces_congr hhead]
    exact hmatch.symm fun b _ a ha hba => (has a ha).symm' hba

end Balanced

/-- **Every term is balanced:** the verdict on an application comes from its head and its arguments,
for which equality is an equivalence already. -/
theorem balanced (s : Term) : Balanced table s := by
  induction s using induct with
  | atom a =>
    refine ⟨fun t => ?_, fun t u hst htu => ?_⟩
    · cases t with
      | atom b => exact Atom.verdict_comm a b
      | app k bs n => rfl
    · cases t with
      | atom b =>
        cases u with
        | atom c =>
          have hrep := (Atom.verdict_eq_equal.mp hst).trans (Atom.verdict_eq_equal.mp htu)
          exact Atom.verdict_eq_equal.mpr hrep
        | app l cs o => cases htu
      | app k bs n => cases hst
  | app h as m ihhead ihargs =>
    refine ⟨fun t => ?_, fun t u hst htu => ?_⟩
    · cases t with
      | atom b => rfl
      | app k bs n =>
        by_cases hlength : as.length = bs.length
        · exact verdict_app_congr hlength hlength.symm (Balanced.app_comm ihhead ihargs)
        · rw [verdict_app_of_length_ne hlength, verdict_app_of_length_ne (Ne.symm hlength)]
    · cases t with
      | atom b => cases hst
      | app k bs n =>
        cases u with
        | atom c => cases htu
        | app l cs o =>
          obtain ⟨hhk, hasbs⟩ := matched_of_equals hst
          obtain ⟨hkl, hbscs⟩ := matched_of_equals htu
          rw [← freePlaces_congr hhk] at hbscs
          refine (Balanced.equals_app_iff ihargs).mpr ⟨ihhead.trans k l hhk hkl, ?_⟩
          exact hasbs.trans (fun a ha => (ihargs a ha).trans) hbscs

/-- **What equal applications are:** their heads are equal and their arguments match. -/
theorem equals_app_iff {h k : Term} {as bs : List Term} {m n : Marks} :
    Equals table (.app h as m) (.app k bs n)
      ↔ Equals table h k ∧ Matched (Equals table) (freePlaces table h) as bs :=
  Balanced.equals_app_iff fun a _ => balanced a

theorem equals_unmarked (t : Term) : Equals table t t.unmarked := by
  induction t using induct with
  | atom a => exact equals_of_identical (identical_rfl _)
  | app h as m ihhead ihargs =>
    rw [unmarked_app]
    refine equals_app_iff.mpr ⟨ihhead, matched_of_forall₂ ?_⟩
    rw [List.forall₂_map_right_iff]
    exact List.forall₂_same.mpr ihargs

/-- **The verdict is that on the structures**, even where a remembered fingerprint is wrong. -/
theorem verdict_unmarked (s t : Term) :
    s.unmarked.verdict table t.unmarked = s.verdict table t := by
  cases s with
  | atom a =>
    cases t with
    | atom b => rfl
    | app k bs n => rw [unmarked_app]; rfl
  | app h as m =>
    cases t with
    | atom b => rw [unmarked_app]; rfl
    | app k bs n =>
      have hs : Equals table (.app h as m) _ := equals_unmarked _
      have ht : Equals table (.app k bs n) _ := equals_unmarked _
      rw [unmarked_app] at hs ht
      rw [unmarked_app, unmarked_app]
      by_cases hlength : as.length = bs.length
      · refine verdict_app_congr (by simpa using hlength) hlength ⟨fun h => ?_, fun h => ?_⟩
        · exact (balanced _).trans _ _ hs ((balanced _).trans _ _ h ((balanced _).symm ht))
        · exact (balanced _).trans _ _ ((balanced _).symm hs) ((balanced _).trans _ _ h ht)
      · rw [verdict_app_of_length_ne hlength, verdict_app_of_length_ne (by simpa using hlength)]

/-- **Equality is an equivalence**, whatever the nodes remember: the verdict is the same both ways,
identical terms are equal, and equality is transitive. -/
theorem verdict_equivalence (table : SymbolTable) :
    (∀ s t : Term, s.verdict table t = t.verdict table s)
      ∧ (∀ s t : Term, s.identical t = true → s.verdict table t = .equal)
      ∧ ∀ s t u : Term, s.verdict table t = .equal → t.verdict table u = .equal →
          s.verdict table u = .equal :=
  ⟨fun s => (balanced s).comm, fun _ _ => equals_of_identical, fun s => (balanced s).trans⟩

/-- Under an orderless head, with a negative zero, an integer zero, a NaN and wrong fingerprints. -/
theorem verdict_equivalence_zeros :
    let table : SymbolTable := .ofAttributes [("f", .orderless)]
    let nan := real ⟨0x7ff8000000000001⟩
    let s := Term.app (symbol "f") [real ⟨0x8000000000000000⟩, nan] { fingerprint := some 1 }
    let t := Term.app (symbol "f") [nan, integer 0] { fingerprint := some 2 }
    let u := call "f" [real ⟨0⟩, nan]
    s.verdict table t = .equal ∧ t.verdict table u = .equal ∧ s.verdict table u = .equal
      ∧ t.verdict table s = .equal ∧ u.identical u = true ∧ u.verdict table u = .equal := by
  intro table nan s t u
  have hst : s.verdict table t = .equal := by decide +kernel
  have htu : t.verdict table u = .equal := by decide +kernel
  have hu : u.identical u = true := by decide +kernel
  obtain ⟨hcomm, hidentical, htrans⟩ := verdict_equivalence table
  exact ⟨hst, htu, htrans s t u hst htu, (hcomm t s).trans hst, hu, hidentical u u hu⟩

end Term

end TermRewriting
