import Mathlib.Data.FinEnum
import Mathlib.Data.Sym.Sym2
import TermRewriting.Proofs.Digest
import TermRewriting.Proofs.Term.Unmarking

/-!
# Which generations a node can confuse

The stamp of a node under a generation is the digest of the eight bytes of the generation, seeded
with the node's fingerprint, with a fixed word in the place of zero. Under one seed the digest of a
word is a permutation of the words (`digest_wordBytes_bijective`), so the replacement of zero is all
that can give two generations one stamp: one of them has the digest zero, and the other has the word
that stands for zero (`Clash`). For each fingerprint there is exactly one such pair
(`exists_clash_iff`).
-/

namespace TermRewriting

namespace Digest

/-! ## The bytes of a word -/

/-- The lowest bytes of a word, the least significant first. -/
def lowBytes : Nat → UInt64 → List UInt8
  | 0, _ => []
  | n + 1, w => w.toUInt8 :: lowBytes n (w >>> 8)

/-- The eight bytes of a word, the least significant first. -/
def wordBytes (w : UInt64) : List UInt8 := lowBytes 8 w

/-- The digest of a text under a seed. -/
def digest (seed : UInt64) (text : List UInt8) : UInt64 :=
  let (lanes, tail) := lanesOf text
  xxh64 seed lanes tail

/-- Reading the lowest bytes of a word back gives its lowest bits. -/
theorem bit_littleEndian_lowBytes (n : Nat) (w : UInt64) (i : Nat) (hi : i < 64) :
    (littleEndian (lowBytes n w)).toBitVec.getLsbD i
      = (decide (i < 8 * n) && w.toBitVec.getLsbD i) := by
  induction n generalizing w i with
  | zero => simp [lowBytes, littleEndian]
  | succ n ih =>
    have hshift : (littleEndian (lowBytes n (w >>> 8)) <<< 8).toBitVec
        = (littleEndian (lowBytes n (w >>> 8))).toBitVec <<< 8 := rfl
    have hrest : (w >>> 8).toBitVec = w.toBitVec >>> 8 := rfl
    have hbyte : w.toUInt8.toUInt64.toBitVec = (w.toBitVec.setWidth 8).setWidth 64 := rfl
    rw [lowBytes, littleEndian, UInt64.toBitVec_or, BitVec.getLsbD_or, hshift, hbyte,
      BitVec.getLsbD_shiftLeft, BitVec.getLsbD_setWidth, BitVec.getLsbD_setWidth]
    by_cases hlow : i < 8
    · -- the bit is in the first byte
      have hbound : i < 8 * (n + 1) := by omega
      simp [hlow, hi, hbound]
    · have hback : 8 + (i - 8) = i := by omega
      have hbound : i - 8 < 8 * n ↔ i < 8 * (n + 1) := by omega
      rw [ih (w >>> 8) (i - 8) (by omega), hrest, BitVec.getLsbD_ushiftRight, hback]
      simp only [hlow, hi, hbound, decide_true, decide_false, Bool.true_and, Bool.false_and,
        Bool.not_false, Bool.false_or]

theorem littleEndian_wordBytes (w : UInt64) : littleEndian (wordBytes w) = w := by
  apply UInt64.toBitVec_inj.mp
  refine BitVec.eq_of_getLsbD_eq fun i hi => ?_
  rw [wordBytes, bit_littleEndian_lowBytes 8 w i hi]
  simp [hi]

/-- The bytes of a word are one lane. -/
theorem digest_wordBytes (seed w : UInt64) : digest seed (wordBytes w) = xxh64 seed [w] [] := by
  have hlanes : lanesOf (wordBytes w) = ([littleEndian (wordBytes w)], []) := rfl
  rw [digest, hlanes, littleEndian_wordBytes]

/-- **Under one seed the digest of a word is a permutation of the words.** -/
theorem digest_wordBytes_bijective (seed : UInt64) :
    Function.Bijective fun w => digest seed (wordBytes w) := by
  refine Finite.injective_iff_bijective.mp fun x y h => ?_
  have h : digest seed (wordBytes x) = digest seed (wordBytes y) := h
  rw [digest_wordBytes, digest_wordBytes] at h
  exact lane_eq_of_xxh64_eq h

end Digest

open Digest

/-! ## Stamps -/

/-- Seeded with the fingerprint, one of the generations has the digest zero and the other the word
that stands for zero. -/
def Clash (fingerprint generation other : UInt64) : Prop :=
  (digest fingerprint (wordBytes generation) = 0
      ∧ digest fingerprint (wordBytes other) = 0x9e3779b97f4a7c15)
    ∨ (digest fingerprint (wordBytes generation) = 0x9e3779b97f4a7c15
      ∧ digest fingerprint (wordBytes other) = 0)

/-- The word that stands for zero is the only one that two digests share. -/
theorem nonzero_eq_iff {x y : UInt64} :
    nonzero x = nonzero y ↔ x = y ∨ (x = 0 ∧ y = 0x9e3779b97f4a7c15)
      ∨ (x = 0x9e3779b97f4a7c15 ∧ y = 0) := by
  unfold nonzero
  by_cases hx : x = 0
  · by_cases hy : y = 0
    · simp [hx, hy]
    · simp [hx, hy, eq_comm]
  · by_cases hy : y = 0
    · simp [hx, hy]
    · simp [hx, hy]

theorem evaluationStamp_eq_nonzero (fingerprint generation : UInt64) :
    evaluationStamp fingerprint generation
      = nonzero (digest fingerprint (wordBytes generation)) := by
  rw [digest_wordBytes, evaluationStamp]

theorem evaluationStamp_eq_evaluationStamp_iff {fingerprint generation other : UInt64} :
    evaluationStamp fingerprint generation = evaluationStamp fingerprint other
      ↔ generation = other ∨ Clash fingerprint generation other := by
  rw [evaluationStamp_eq_nonzero, evaluationStamp_eq_nonzero, nonzero_eq_iff]
  exact or_congr_left (digest_wordBytes_bijective fingerprint).1.eq_iff

/-- **For each fingerprint two generations clash, and no others do.** -/
theorem exists_clash_iff (fingerprint : UInt64) :
    ∃ first second, first ≠ second ∧ ∀ generation other,
      Clash fingerprint generation other ↔ s(generation, other) = s(first, second) := by
  have hbijective := digest_wordBytes_bijective fingerprint
  obtain ⟨first, hfirst⟩ := hbijective.2 0
  obtain ⟨second, hsecond⟩ := hbijective.2 0x9e3779b97f4a7c15
  have hzero : ∀ g, digest fingerprint (wordBytes g) = 0 ↔ g = first := fun g =>
    ⟨fun h => hbijective.1 (h.trans hfirst.symm), fun h => h ▸ hfirst⟩
  have hremap : ∀ g, digest fingerprint (wordBytes g) = 0x9e3779b97f4a7c15 ↔ g = second := fun g =>
    ⟨fun h => hbijective.1 (h.trans hsecond.symm), fun h => h ▸ hsecond⟩
  refine ⟨first, second, fun heq => ?_, fun generation other => ?_⟩
  · have hboth : (0 : UInt64) = 0x9e3779b97f4a7c15 := by
      rw [← hfirst, ← hsecond, heq]
    exact absurd hboth (by decide)
  · rw [Clash, hzero, hremap, hremap, hzero, Sym2.eq_iff]

/-! ## Nodes -/

namespace Term

theorem isNormalUnder_iff {head : Term} {args : List Term} {marks : Marks} {generation : UInt64} :
    (Term.app head args marks).isNormalUnder generation = true
      ↔ marks.needsEval = false ∧ marks.stamp
          = some (evaluationStamp (Term.app head args marks).fingerprint generation) := by
  simp [isNormalUnder]

/-- A node marked under one generation is taken for marked under another exactly if the stamps are
the same. -/
theorem isNormalUnder_markNormal_iff (head : Term) (args : List Term) (marks : Marks)
    (generation other : UInt64) :
    ((Term.app head args marks).markNormal generation).isNormalUnder other = true
      ↔ evaluationStamp (Term.app head args marks).fingerprint generation
        = evaluationStamp (Term.app head args marks).fingerprint other := by
  have hsame := fingerprint_markNormal generation (Term.app head args marks)
  rw [markNormal] at hsame ⊢
  rw [isNormalUnder_iff, hsame]
  rw [fingerprint] at hsame
  simp [← hsame]

/-- A node that is taken for normal under two generations has one stamp under both. -/
theorem evaluationStamp_eq_of_isNormalUnder {head : Term} {args : List Term} {marks : Marks}
    {generation other : UInt64}
    (hgeneration : (Term.app head args marks).isNormalUnder generation = true)
    (hother : (Term.app head args marks).isNormalUnder other = true) :
    evaluationStamp (Term.app head args marks).fingerprint generation
      = evaluationStamp (Term.app head args marks).fingerprint other :=
  Option.some.inj
    ((isNormalUnder_iff.mp hgeneration).2.symm.trans (isNormalUnder_iff.mp hother).2)

end Term

/-- **A stamp tells every two generations apart but one pair.** It is the digest of the eight bytes
of the generation, or the word that stands for zero, so two different generations give a fingerprint
one stamp exactly if they clash. For each fingerprint one pair of generations does, and that pair is
all that a node with this fingerprint can confuse: both when it was marked under one generation and
is asked about another, and when it answers for two generations, whatever its marks. -/
theorem evaluationStamp_separates (fingerprint : UInt64) :
    (∀ generation, evaluationStamp fingerprint generation
      = nonzero (digest fingerprint (wordBytes generation)))
    ∧ (∀ generation other,
      evaluationStamp fingerprint generation = evaluationStamp fingerprint other
        ↔ generation = other ∨ Clash fingerprint generation other)
    ∧ ∃ first second, first ≠ second
      ∧ (∀ generation other,
        Clash fingerprint generation other ↔ s(generation, other) = s(first, second))
      ∧ ∀ head args marks, (Term.app head args marks).fingerprint = fingerprint →
        ∀ generation other,
          (((Term.app head args marks).markNormal generation).isNormalUnder other = true
            ↔ generation = other ∨ s(generation, other) = s(first, second))
          ∧ ((Term.app head args marks).isNormalUnder generation = true →
            (Term.app head args marks).isNormalUnder other = true →
            generation = other ∨ s(generation, other) = s(first, second)) := by
  obtain ⟨first, second, hne, hclash⟩ := exists_clash_iff fingerprint
  have hstamp : ∀ generation other,
      evaluationStamp fingerprint generation = evaluationStamp fingerprint other
        ↔ generation = other ∨ s(generation, other) = s(first, second) := fun generation other => by
    rw [evaluationStamp_eq_evaluationStamp_iff, hclash]
  refine ⟨evaluationStamp_eq_nonzero fingerprint,
    fun _ _ => evaluationStamp_eq_evaluationStamp_iff, first, second, hne, hclash, ?_⟩
  intro head args marks hnode generation other
  constructor
  · rw [Term.isNormalUnder_markNormal_iff, hnode, hstamp]
  · intro hgeneration hother
    have heq := Term.evaluationStamp_eq_of_isNormalUnder hgeneration hother
    rw [hnode] at heq
    exact (hstamp generation other).mp heq

/-- The pair that the node `f[]` confuses. -/
theorem evaluationStamp_separates_call :
    Clash (Term.call "f" []).fingerprint 0xd65aa34658ee09da 0xaffa409d24205c96
    ∧ ((Term.call "f" []).markNormal 0xd65aa34658ee09da).isNormalUnder 0xaffa409d24205c96
      = true := by
  have hclash : Clash (Term.call "f" []).fingerprint 0xd65aa34658ee09da 0xaffa409d24205c96 :=
    .inl ⟨by decide +kernel, by decide +kernel⟩
  obtain ⟨-, -, first, second, -, hpair, hnodes⟩ :=
    evaluationStamp_separates (Term.call "f" []).fingerprint
  obtain ⟨hasked, -⟩ := hnodes (.symbol "f") [] {} rfl 0xd65aa34658ee09da 0xaffa409d24205c96
  exact ⟨hclash, hasked.mpr (.inr ((hpair _ _).mp hclash))⟩

end TermRewriting
