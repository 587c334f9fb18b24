import Mathlib.Data.List.FinRange
import Mathlib.Data.List.NodupEquivFin
import TermRewriting.Proofs.Equality

/-!
# Pairing off arguments

Arguments whose order does not matter are equal when they can be paired off: each place on one side
with a place on the other that holds an equal element, and no place twice (`Pairable`). The
comparison looks for such a pairing greedily and never takes a pick back. Equality is an
equivalence, so what is left after a pick can be paired off whenever the whole could be
(`pairable_of_pick`), and the search finds a pairing if there is one. The verdict is therefore one
on the two collections, not on the orders in which they are given.
-/

namespace TermRewriting

/-! ## Pairings of places -/

section

variable {α : Type} {R : α → α → Prop} {as bs : List α}

/-- Places can be paired off so that related elements meet exactly if one of the lists can be
reordered so that they meet place by place. -/
theorem exists_equiv_iff_matched :
    (∃ σ : Fin as.length ≃ Fin bs.length, ∀ i, R (as.get i) (bs.get (σ i)))
      ↔ Matched R true as bs := by
  rw [matched_true]
  constructor
  · rintro ⟨σ, hσ⟩
    refine ⟨((List.finRange as.length).map σ).map bs.get, ?_, ?_⟩
    · -- the pairing goes through all places of `bs`, each once
      have hplaces : ((List.finRange as.length).map σ).Perm (List.finRange bs.length) := by
        refine (List.perm_ext_iff_of_nodup ((List.nodup_finRange _).map σ.injective)
          (List.nodup_finRange _)).mpr fun j => ?_
        simpa using ⟨σ.symm j, σ.apply_symm_apply j⟩
      simpa using hplaces.map bs.get
    · have hall : List.Forall₂ R ((List.finRange as.length).map as.get)
          (((List.finRange as.length).map σ).map bs.get) := by
        rw [List.map_map, List.forall₂_map_left_iff, List.forall₂_map_right_iff]
        exact List.forall₂_same.mpr fun i _ => hσ i
      simpa using hall
  · rintro ⟨cs, hperm, hcs⟩
    -- the places of `bs`, reordered along with its elements
    have hget : List.Forall₂ (fun b j => b = bs.get j) bs (List.finRange bs.length) := by
      have hsame : List.Forall₂ (fun b j => b = bs.get j)
          ((List.finRange bs.length).map bs.get) (List.finRange bs.length) :=
        List.forall₂_map_left_iff.mpr (List.forall₂_same.mpr fun _ _ => rfl)
      simpa using hsame
    obtain ⟨places, hplaces, hpermuted⟩ := List.perm_comp_forall₂ hperm hget
    have hnodup : places.Nodup := hpermuted.nodup_iff.mpr (List.nodup_finRange _)
    have hmem : ∀ j, j ∈ places := fun j => hpermuted.mem_iff.mpr (List.mem_finRange j)
    have hlength : as.length = places.length := hcs.length_eq.trans hplaces.length_eq
    refine ⟨(finCongr hlength).trans (hnodup.getEquivOfForallMemList places hmem), fun i => ?_⟩
    have hi : i.val < cs.length := hcs.length_eq ▸ i.isLt
    have hrelated := hcs.get i.isLt hi
    have hplace := hplaces.get hi (hlength ▸ i.isLt)
    exact hplace ▸ hrelated

end

namespace Term

/-! ## Greedy pairing -/

/-- The elements of the lists can be paired off: each place of one with a place of the other that
holds an equal element, and no place twice. -/
def Pairable (table : SymbolTable) (as bs : List Term) : Prop :=
  ∃ σ : Fin as.length ≃ Fin bs.length, ∀ i,
    (as.get i).verdict table (bs.get (σ i)) = .equal

variable {table : SymbolTable} {a : Term} {as bs as' bs' rest : List Term}

theorem pairable_iff_matched : Pairable table as bs ↔ Matched (Equals table) true as bs :=
  exists_equiv_iff_matched (R := Equals table)

theorem pairsOff_iff_pairable : pairsOff table as bs = true ↔ Pairable table as bs := by
  rw [pairable_iff_matched]
  exact ⟨matched_of_pairsOff, pairsOff_of_matched (Balanced.exchanges fun a _ => balanced a)⟩

/-- **No pick takes away what a later element needs:** what is left after the first equal element
was picked can be paired off exactly if the whole could be. -/
theorem pairable_of_pick
    (hpick : eraseFirst? (fun b => a.verdict table b == .equal) bs = some rest) :
    Pairable table (a :: as) bs ↔ Pairable table as rest := by
  rw [← pairsOff_iff_pairable, ← pairsOff_iff_pairable, pairsOff, hpick]

theorem Pairable.perm (h : Pairable table as bs) (has : as'.Perm as) (hbs : bs'.Perm bs) :
    Pairable table as' bs' := by
  rw [pairable_iff_matched, matched_true] at *
  obtain ⟨cs, hperm, hcs⟩ := h
  obtain ⟨cs', hcs', hperm'⟩ := List.perm_comp_forall₂ has hcs
  exact ⟨cs', (hperm'.trans hperm).trans hbs.symm, hcs'⟩

theorem pairable_perm_iff (has : as'.Perm as) (hbs : bs'.Perm bs) :
    Pairable table as' bs' ↔ Pairable table as bs :=
  ⟨fun h => h.perm has.symm hbs.symm, fun h => h.perm has hbs⟩

theorem orderlessVerdict_of_length_eq (hlength : as.length = bs.length) :
    orderlessVerdict table as bs = if pairsOff table as bs then .equal else .undecided :=
  if_neg (not_not_intro hlength)

theorem orderlessVerdict_perm (has : as'.Perm as) (hbs : bs'.Perm bs) :
    orderlessVerdict table as' bs' = orderlessVerdict table as bs := by
  have hpairs : pairsOff table as' bs' = pairsOff table as bs := by
    rw [Bool.eq_iff_iff, pairsOff_iff_pairable, pairsOff_iff_pairable, pairable_perm_iff has hbs]
  unfold orderlessVerdict
  rw [has.length_eq, hbs.length_eq, hpairs]

/-- **The greedy comparison is complete.** Two lists of one length are equal without regard to order
exactly if they can be paired off; no pick makes that impossible; and neither list's order has a
part in the verdict. -/
theorem orderlessVerdict_complete (table : SymbolTable) {as bs : List Term}
    (hlength : as.length = bs.length) :
    (orderlessVerdict table as bs = .equal ↔ Pairable table as bs)
      ∧ (∀ a items rest, as = a :: items →
          eraseFirst? (fun b => a.verdict table b == .equal) bs = some rest →
          (Pairable table as bs ↔ Pairable table items rest))
      ∧ ∀ as' bs' : List Term, as'.Perm as → bs'.Perm bs →
          orderlessVerdict table as' bs' = orderlessVerdict table as bs := by
  refine ⟨?_, ?_, fun as' bs' has hbs => orderlessVerdict_perm has hbs⟩
  · rw [orderlessVerdict_of_length_eq hlength, ← pairsOff_iff_pairable]
    simp
  · rintro a items rest rfl hpick
    exact pairable_of_pick hpick

/-- The integer zero takes the positive zero, although the other integer zero is there too; what it
leaves is still enough for the negative zero and the NaN. -/
theorem orderlessVerdict_complete_zeros :
    let nan := real ⟨0x7ff8000000000001⟩
    let as := [integer 0, real ⟨0x8000000000000000⟩, nan]
    let bs := [nan, real ⟨0⟩, integer 0]
    as.length = bs.length ∧ Pairable .empty as bs ∧ Pairable .empty as.tail [nan, integer 0]
      ∧ orderlessVerdict .empty as.reverse bs = .equal := by
  intro nan as bs
  have hequal : orderlessVerdict .empty as bs = .equal := by decide +kernel
  have hpick : eraseFirst? (fun b => (integer 0).verdict .empty b == .equal) bs
      = some [nan, integer 0] := by
    rw [eraseFirst?, if_neg (by decide +kernel), eraseFirst?, if_pos (by decide +kernel)]
    rfl
  obtain ⟨hcomplete, hleft, hperm⟩ := @orderlessVerdict_complete .empty as bs rfl
  have hpairable := hcomplete.mp hequal
  refine ⟨rfl, hpairable, (hleft _ _ _ rfl hpick).mp hpairable, ?_⟩
  rw [hperm as.reverse bs as.reverse_perm (.refl bs), hequal]

end Term

end TermRewriting
