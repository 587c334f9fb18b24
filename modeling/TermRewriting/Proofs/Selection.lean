import Mathlib.Data.List.Perm.Subperm
import Mathlib.Data.Nat.Factorial.Basic
import TermRewriting.Selection

/-!
# The selections of a list

`selections r as` goes through all ways to take `r` elements of a list one after another
(`subperm_iff_mem_selections`), of which there are as many as arrangements (`length_selections`).
Of a list without duplicates it takes each element at most once and leaves the others in their order
(`mem_selections_iff`), and of a sorted list it takes them in lexicographic order
(`pairwise_selections`).

To select elements is to select their places: what is taken from a list, and what is left of it,
stands at the places that are taken from the numbers below its length, and at those that are left
(`selections_eq_map_range`).
-/

namespace TermRewriting

variable {α : Type}

/-! ## One element -/

theorem exists_mem_pickOne {a : α} {as : List α} (h : a ∈ as) :
    ∃ rest, (a, rest) ∈ pickOne as := by
  induction as with
  | nil => cases h
  | cons b bs ih =>
    rw [pickOne]
    rcases List.mem_cons.mp h with rfl | h
    · exact ⟨bs, List.mem_cons_self⟩
    · obtain ⟨rest, hrest⟩ := ih h
      exact ⟨b :: rest, List.mem_cons_of_mem _ (List.mem_map_of_mem hrest)⟩

theorem map_fst_pickOne (as : List α) : (pickOne as).map Prod.fst = as := by
  induction as with
  | nil => rfl
  | cons a as ih =>
    rw [pickOne, List.map_cons, List.map_map]
    exact congrArg (a :: ·) ih

/-- Two elements can be picked in either order. -/
theorem pickOne_swap {as left rest : List α} {a b : α} (ha : (a, left) ∈ pickOne as)
    (hb : (b, rest) ∈ pickOne left) :
    ∃ left', (b, left') ∈ pickOne as ∧ (a, rest) ∈ pickOne left' := by
  induction as generalizing left rest with
  | nil => cases ha
  | cons c cs ih =>
    rw [pickOne] at ha
    rcases List.mem_cons.mp ha with h | h
    · -- the first element comes first: then the other one is picked behind it
      obtain ⟨rfl, rfl⟩ := Prod.mk.inj h
      exact ⟨a :: rest, List.mem_cons_of_mem _ (List.mem_map.mpr ⟨_, hb, rfl⟩), List.mem_cons_self⟩
    · obtain ⟨⟨a, behind⟩, hbehind, h⟩ := List.mem_map.mp h
      obtain ⟨rfl, rfl⟩ := Prod.mk.inj h
      rw [pickOne] at hb
      rcases List.mem_cons.mp hb with h | h
      · obtain ⟨rfl, rfl⟩ := Prod.mk.inj h
        exact ⟨cs, List.mem_cons_self, hbehind⟩
      · obtain ⟨⟨b, others⟩, hothers, h⟩ := List.mem_map.mp h
        obtain ⟨rfl, rfl⟩ := Prod.mk.inj h
        obtain ⟨left', hb', ha'⟩ := ih hbehind hothers
        exact ⟨c :: left', List.mem_cons_of_mem _ (List.mem_map.mpr ⟨_, hb', rfl⟩),
          List.mem_cons_of_mem _ (List.mem_map.mpr ⟨_, ha', rfl⟩)⟩

theorem length_of_mem_pickOne {as : List α} {p : α × List α} (h : p ∈ pickOne as) :
    p.2.length + 1 = as.length := (pickOne_perm h).length_eq

/-- Where nothing occurs twice, the pick leaves the elements that differ from it. -/
theorem mem_pickOne_iff [DecidableEq α] {as : List α} (has : as.Nodup) {p : α × List α} :
    p ∈ pickOne as ↔ p.1 ∈ as ∧ p.2 = as.filter (· ≠ p.1) := by
  induction as generalizing p with
  | nil => simp [pickOne]
  | cons a as ih =>
    obtain ⟨hnot, has⟩ := List.nodup_cons.mp has
    obtain ⟨b, rest⟩ := p
    rw [pickOne, List.mem_cons, List.mem_map]
    by_cases hab : a = b
    · subst hab
      have hall : as.filter (· ≠ a) = as :=
        List.filter_eq_self.mpr fun x hx => decide_eq_true fun hxa => hnot (hxa ▸ hx)
      rw [List.filter_cons_of_neg (by simp), hall]
      constructor
      · rintro (h | ⟨q, hq, h⟩)
        · exact ⟨List.mem_cons_self, (Prod.mk.inj h).2⟩
        · -- the later picks are other elements
          obtain ⟨hmem, _⟩ := (ih has).mp hq
          exact absurd ((Prod.mk.inj h).1 ▸ hmem) hnot
      · rintro ⟨_, rfl⟩
        exact .inl rfl
    · rw [List.filter_cons_of_pos (by simpa using hab), List.mem_cons]
      dsimp only
      constructor
      · rintro (h | ⟨q, hq, h⟩)
        · exact absurd (Prod.mk.inj h).1.symm hab
        · obtain ⟨hmem, hrest⟩ := (ih has).mp hq
          obtain ⟨rfl, rfl⟩ := Prod.mk.inj h
          exact ⟨.inr hmem, by rw [hrest]⟩
      · rintro ⟨hmem, hrest⟩
        have hlater := hmem.resolve_left (Ne.symm hab)
        exact .inr ⟨(b, as.filter (· ≠ b)), (ih has).mpr ⟨hlater, rfl⟩, Prod.ext rfl hrest.symm⟩

theorem pickOne_eq_map {α : Type} [DecidableEq α] {as : List α} (has : as.Nodup) :
    pickOne as = as.map fun a => (a, as.filter (· ≠ a)) := by
  calc pickOne as
      = (pickOne as).map fun p => (p.1, as.filter (· ≠ p.1)) := by
        refine (List.map_id'' (fun p => rfl) _).symm.trans (List.map_congr_left fun p hp => ?_)
        exact Prod.ext rfl ((mem_pickOne_iff has).mp hp).2
    _ = ((pickOne as).map Prod.fst).map fun a => (a, as.filter (· ≠ a)) := by
        rw [List.map_map]; rfl
    _ = _ := by rw [map_fst_pickOne]

/-! ## Several elements -/

/-- A selection picks an element and selects the others from those that are left. -/
theorem cons_mem_selections_iff {r : Nat} {as picked rest : List α} {a : α} :
    (a :: picked, rest) ∈ selections r as
      ↔ ∃ r' left, r = r' + 1 ∧ (a, left) ∈ pickOne as ∧ (picked, rest) ∈ selections r' left := by
  constructor
  · intro h
    obtain rfl : picked.length + 1 = r := length_of_mem_selections h
    obtain ⟨⟨a', left⟩, hpick, hs⟩ := List.mem_flatMap.mp h
    obtain ⟨q, hq, heq⟩ := List.mem_map.mp hs
    obtain ⟨hcons, rfl⟩ := Prod.mk.inj heq
    obtain ⟨rfl, rfl⟩ := List.cons_eq_cons.mp hcons
    exact ⟨_, left, rfl, hpick, hq⟩
  · rintro ⟨r, left, rfl, hpick, hrest⟩
    exact List.mem_flatMap.mpr ⟨_, hpick, List.mem_map.mpr ⟨_, hrest, rfl⟩⟩

/-- **The selections are all ways to take some of the elements in some order.** -/
theorem subperm_iff_mem_selections {picked as : List α} :
    picked.Subperm as ↔ ∃ rest, (picked, rest) ∈ selections picked.length as := by
  constructor
  · intro h
    induction picked generalizing as with
    | nil => exact ⟨as, List.mem_singleton.mpr rfl⟩
    | cons a picked ih =>
      obtain ⟨left, hleft⟩ := exists_mem_pickOne (h.subset List.mem_cons_self)
      -- what the others are taken from is what the first pick leaves
      have hpicked := ih ((List.subperm_cons a).mp ((pickOne_perm hleft).subperm_left.mpr h))
      obtain ⟨rest, hrest⟩ := hpicked
      exact ⟨rest, cons_mem_selections_iff.mpr ⟨_, left, rfl, hleft, hrest⟩⟩
  · rintro ⟨rest, hmem⟩
    exact (List.sublist_append_left picked rest).subperm.trans (selections_perm hmem).subperm

/-- **Elements selected in another order leave the same elements over.** -/
theorem mem_selections_of_perm {r : Nat} {as picked picked' rest : List α}
    (h : (picked, rest) ∈ selections r as) (hperm : picked.Perm picked') :
    (picked', rest) ∈ selections r as := by
  induction hperm generalizing r as with
  | nil => exact h
  | cons a _ ih =>
    obtain ⟨r, left, rfl, hpick, hrest⟩ := cons_mem_selections_iff.mp h
    exact cons_mem_selections_iff.mpr ⟨r, left, rfl, hpick, ih hrest⟩
  | swap a b others =>
    obtain ⟨r, left, rfl, hpick, hrest⟩ := cons_mem_selections_iff.mp h
    obtain ⟨r, left', rfl, hnext, hrest⟩ := cons_mem_selections_iff.mp hrest
    obtain ⟨left, ha, hb⟩ := pickOne_swap hpick hnext
    exact cons_mem_selections_iff.mpr
      ⟨r + 1, left, rfl, ha, cons_mem_selections_iff.mpr ⟨r, left', rfl, hb, hrest⟩⟩
  | trans _ _ ih ih' => exact ih' (ih h)

/-- To select all elements is to reorder them. -/
theorem mem_selections_length {as picked rest : List α} :
    (picked, rest) ∈ selections as.length as ↔ picked.Perm as ∧ rest = [] := by
  have hlength {rest : List α} (h : (picked ++ rest).Perm as)
      (hpicked : picked.length = as.length) : rest = [] := by
    have := h.length_eq
    rw [List.length_append, hpicked] at this
    exact List.length_eq_zero_iff.mp (by omega)
  constructor
  · intro h
    obtain rfl := hlength (selections_perm h) (length_of_mem_selections h)
    exact ⟨by simpa using selections_perm h, rfl⟩
  · rintro ⟨hperm, rfl⟩
    obtain ⟨rest, hmem⟩ := subperm_iff_mem_selections.mp hperm.subperm
    rw [hperm.length_eq] at hmem
    obtain rfl := hlength (selections_perm hmem) hperm.length_eq
    exact hmem

theorem selections_map {β : Type} (f : α → β) (r : Nat) (as : List α) :
    selections r (as.map f) = (selections r as).map fun s => (s.1.map f, s.2.map f) := by
  induction r generalizing as with
  | zero => rfl
  | succ r ih =>
    rw [selections, selections, pickOne_map, List.flatMap_map, List.map_flatMap]
    congr 1
    funext p
    rw [ih, List.map_map, List.map_map]
    rfl

/-- There are `n · (n - 1) ⋯` selections, with `r` factors. -/
theorem length_selections (r : Nat) (as : List α) :
    (selections r as).length = as.length.descFactorial r := by
  induction r generalizing as with
  | zero => rfl
  | succ r ih =>
    rw [selections, List.length_flatMap]
    cases as with
    | nil => exact (Nat.zero_descFactorial_succ r).symm
    | cons a as =>
      -- every pick leaves as many elements
      have hsame : (pickOne (a :: as)).map
            (fun p => ((selections r p.2).map fun q => (p.1 :: q.1, q.2)).length)
          = List.replicate (pickOne (a :: as)).length (as.length.descFactorial r) := by
        refine List.map_eq_replicate_iff.mpr fun p hp => ?_
        rw [List.length_map, ih, Nat.succ_inj.mp (length_of_mem_pickOne hp)]
      rw [hsame, List.sum_replicate_nat, length_pickOne, List.length_cons,
        Nat.succ_descFactorial_succ]

theorem selections_eq_nil {r : Nat} {as : List α} (h : as.length < r) : selections r as = [] := by
  rw [← List.length_eq_zero_iff, length_selections, Nat.descFactorial_of_lt h]

/-- **What is selected from a list without duplicates:** distinct elements, in any order; what is
left over are the others in their order. -/
theorem mem_selections_iff [DecidableEq α] {r : Nat} {as : List α} (has : as.Nodup)
    {s : List α × List α} :
    s ∈ selections r as
      ↔ s.1.length = r ∧ s.1.Nodup ∧ s.1 ⊆ as ∧ s.2 = as.filter (· ∉ s.1) := by
  induction r generalizing as s with
  | zero =>
    obtain ⟨picked, rest⟩ := s
    rw [selections, List.mem_singleton, List.length_eq_zero_iff]
    dsimp only
    constructor
    · rintro h
      obtain ⟨rfl, rfl⟩ := Prod.mk.inj h
      exact ⟨rfl, .nil, List.nil_subset _, by simp⟩
    · rintro ⟨rfl, _, _, hrest⟩
      exact Prod.ext rfl (hrest.trans (by simp))
  | succ r ih =>
    obtain ⟨picked, rest⟩ := s
    rw [selections, List.mem_flatMap]
    have hleft : ∀ a, (as.filter (· ≠ a)).Nodup := fun a => has.filter _
    -- without the first pick and without the others is without all picks
    have hfilter : ∀ (a : α) (others : List α),
        (as.filter (· ≠ a)).filter (· ∉ others) = as.filter (· ∉ a :: others) := by
      intro a others
      rw [List.filter_filter]
      refine List.filter_congr fun x _ => ?_
      simp [Bool.and_comm]
    constructor
    · rintro ⟨p, hp, hs⟩
      obtain ⟨q, hq, h⟩ := List.mem_map.mp hs
      obtain ⟨rfl, rfl⟩ := Prod.mk.inj h
      obtain ⟨hmem, hrest⟩ := (mem_pickOne_iff has).mp hp
      obtain ⟨hlength, hnodup, hsub, hq⟩ := (ih (hrest ▸ hleft p.1)).mp hq
      rw [hrest] at hsub hq
      refine ⟨congrArg (· + 1) hlength, ?_, ?_, hq.trans (hfilter _ _)⟩
      · refine List.nodup_cons.mpr ⟨fun hin => ?_, hnodup⟩
        simpa using (List.mem_filter.mp (hsub hin)).2
      · exact List.cons_subset.mpr ⟨hmem, fun x hx => (List.mem_filter.mp (hsub hx)).1⟩
    · rintro ⟨hlength, hnodup, hsub, hrest⟩
      cases picked with
      | nil => cases hlength
      | cons a others =>
        obtain ⟨hnot, hnodup⟩ := List.nodup_cons.mp hnodup
        obtain ⟨hmem, hsub⟩ := List.cons_subset.mp hsub
        refine ⟨(a, as.filter (· ≠ a)), (mem_pickOne_iff has).mpr ⟨hmem, rfl⟩, ?_⟩
        refine List.mem_map.mpr ⟨(others, rest), (ih (hleft a)).mpr ⟨?_, hnodup, ?_, ?_⟩, rfl⟩
        · exact Nat.succ_inj.mp hlength
        · intro x hx
          exact List.mem_filter.mpr ⟨hsub hx, decide_eq_true fun hxa => hnot (hxa ▸ hx)⟩
        · exact hrest.trans (hfilter a others).symm

/-- **The selections from a sorted list come in lexicographic order.** -/
theorem pairwise_selections (r : Nat) {as : List Nat} (has : as.Pairwise (· < ·)) :
    ((selections r as).map Prod.fst).Pairwise (List.Lex (· < ·)) := by
  induction r generalizing as with
  | zero => exact List.pairwise_singleton _ _
  | succ r ih =>
    have hnodup : as.Nodup := has.imp Nat.ne_of_lt
    have hpicks : (pickOne as).Pairwise fun p q => p.1 < q.1 := by
      rw [← map_fst_pickOne as] at has
      exact List.pairwise_map.mp has
    rw [selections, List.map_flatMap, List.pairwise_flatMap]
    refine ⟨fun p hp => ?_, hpicks.imp fun {p q} hpq x hx y hy => ?_⟩
    · -- one first pick: the others decide
      have hrest : p.2.Pairwise (· < ·) := by
        rw [((mem_pickOne_iff hnodup).mp hp).2]
        exact has.filter _
      have hothers := ih hrest
      rw [List.pairwise_map] at hothers ⊢
      rw [List.pairwise_map]
      exact hothers.imp fun h => .cons h
    · rw [List.map_map, List.mem_map] at hx hy
      obtain ⟨s, _, rfl⟩ := hx
      obtain ⟨t, _, rfl⟩ := hy
      exact .rel hpq

/-! ## Places -/

/-- A tuple of `r` different places below `n`. -/
def PlaceTuple (n r : Nat) (t : List Nat) : Prop := t.length = r ∧ t.Nodup ∧ ∀ i ∈ t, i < n

theorem mem_map_fst_selections_range {n r : Nat} {t : List Nat} :
    t ∈ (selections r (List.range n)).map Prod.fst ↔ PlaceTuple n r t := by
  constructor
  · intro h
    obtain ⟨s, hs, rfl⟩ := List.mem_map.mp h
    obtain ⟨hlength, hnodup, hsub, _⟩ := (mem_selections_iff List.nodup_range).mp hs
    exact ⟨hlength, hnodup, fun i hi => List.mem_range.mp (hsub hi)⟩
  · rintro ⟨hlength, hnodup, hbound⟩
    refine List.mem_map.mpr ⟨(t, (List.range n).filter (· ∉ t)), ?_, rfl⟩
    exact (mem_selections_iff List.nodup_range).mpr
      ⟨hlength, hnodup, fun i hi => List.mem_range.mpr (hbound i hi), rfl⟩

theorem length_elementsAt {items : List α} {t : List Nat} (h : ∀ i ∈ t, i < items.length) :
    (elementsAt items t).length = t.length := by
  refine List.filterMap_length_eq_length.mpr fun i hi => ?_
  rw [List.getElem?_eq_getElem (h i hi)]
  rfl

theorem map_snd_zipIdx (items : List α) :
    items.zipIdx.map Prod.snd = List.range items.length := by
  rw [List.zipIdx_map_snd, List.range_eq_range']

theorem elementsAt_map_snd {items : List α} {placed : List (α × Nat)}
    (h : placed ⊆ items.zipIdx) : elementsAt items (placed.map Prod.snd) = placed.map Prod.fst := by
  induction placed with
  | nil => rfl
  | cons p placed ih =>
    obtain ⟨hp, hplaced⟩ := List.cons_subset.mp h
    have hitem : items[p.2]? = some p.1 := List.mk_mem_zipIdx_iff_getElem?.mp hp
    rw [List.map_cons, List.map_cons, ← ih hplaced, elementsAt, List.filterMap_cons, hitem]
    rfl

theorem elementsAt_others (items : List α) (t : List Nat) :
    elementsAt items ((List.range items.length).filter (· ∉ t)) = elementsElsewhere items t := by
  rw [← map_snd_zipIdx, List.filter_map, elementsAt_map_snd (List.filter_subset_self _),
    elementsElsewhere]
  refine congrArg (List.map Prod.fst) (List.filter_congr fun p _ => ?_)
  simp

/-- The elements at some places and those elsewhere are all elements. -/
theorem elementsAt_append_perm {items : List α} {t : List Nat} (hdistinct : t.Nodup)
    (h : ∀ i ∈ t, i < items.length) :
    (elementsAt items t ++ elementsElsewhere items t).Perm items := by
  have hplaces : (t ++ (List.range items.length).filter (· ∉ t)).Perm (List.range items.length) :=
    selections_perm (s := (t, _)) ((mem_selections_iff List.nodup_range).mpr
      ⟨rfl, hdistinct, fun i hi => List.mem_range.mpr (h i hi), rfl⟩)
  calc (elementsAt items t ++ elementsElsewhere items t).Perm
        (elementsAt items (List.range items.length)) := by
        rw [← elementsAt_others, elementsAt, elementsAt, ← List.filterMap_append]
        exact hplaces.filterMap _
    _ = items := by
        rw [← map_snd_zipIdx, elementsAt_map_snd (List.Subset.refl _)]
        exact List.zipIdx_map_fst 0 items

/-- **To select elements is to select their places.** -/
theorem selections_eq_map_range (r : Nat) (items : List α) :
    selections r items
      = (selections r (List.range items.length)).map fun s =>
          (elementsAt items s.1, elementsAt items s.2) := by
  have hitems : items.zipIdx.map Prod.fst = items := List.zipIdx_map_fst 0 items
  calc selections r items
      = selections r (items.zipIdx.map Prod.fst) := by rw [hitems]
    _ = (selections r items.zipIdx).map fun s => (s.1.map Prod.fst, s.2.map Prod.fst) :=
        selections_map _ _ _
    _ = (selections r items.zipIdx).map fun s =>
          (elementsAt items (s.1.map Prod.snd), elementsAt items (s.2.map Prod.snd)) := by
        refine List.map_congr_left fun s hs => ?_
        have hsub : s.1 ++ s.2 ⊆ items.zipIdx := (selections_perm hs).subset
        rw [elementsAt_map_snd (List.append_subset.mp hsub).1,
          elementsAt_map_snd (List.append_subset.mp hsub).2]
    _ = _ := by rw [← map_snd_zipIdx, selections_map, List.map_map]; rfl

end TermRewriting
