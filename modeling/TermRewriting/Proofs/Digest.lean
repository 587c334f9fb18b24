import TermRewriting.Digest

/-!
# One lane enters a digest without loss

Multiplying by an odd number, rotating, and adding the upper bits of a word to its lower ones by
exclusive or can each be undone. So under a fixed seed the digests of different words are different
(`lane_eq_of_xxh64_eq`).
-/

namespace TermRewriting.Digest

/-! ## Steps that can be undone -/

/-- A factor that has an inverse can be cancelled. -/
theorem eq_of_mul_eq {x y factor : UInt64} (inverse : UInt64) (hinverse : factor * inverse = 1)
    (h : x * factor = y * factor) : x = y := by
  have hcancel : x * factor * inverse = y * factor * inverse := by rw [h]
  rw [UInt64.mul_assoc, UInt64.mul_assoc, hinverse, UInt64.mul_one, UInt64.mul_one] at hcancel
  exact hcancel

theorem eq_of_add_eq {x y z : UInt64} (h : x + z = y + z) : x = y := by
  have hcancel : x + z - z = y + z - z := by rw [h]
  rwa [UInt64.add_sub_cancel, UInt64.add_sub_cancel] at hcancel

theorem eq_of_xor_eq {x y z : UInt64} (h : z ^^^ x = z ^^^ y) : x = y := by
  have hcancel : z ^^^ (z ^^^ x) = z ^^^ (z ^^^ y) := by rw [h]
  rwa [← UInt64.xor_assoc, ← UInt64.xor_assoc, UInt64.xor_self, UInt64.zero_xor,
    UInt64.zero_xor] at hcancel

/-- The bits are recovered from the highest one down: above the shift they are the word's own. -/
theorem bit_eq_of_xorShift_eq {w k : Nat} (hk : 0 < k) {x y : BitVec w}
    (h : x ^^^ (x >>> k) = y ^^^ (y >>> k)) (i : Nat) : x.getLsbD i = y.getLsbD i := by
  by_cases hi : i < w
  · have hupper := bit_eq_of_xorShift_eq hk h (k + i)
    have hbit : (x ^^^ (x >>> k)).getLsbD i = (y ^^^ (y >>> k)).getLsbD i := by rw [h]
    rw [BitVec.getLsbD_xor, BitVec.getLsbD_xor, BitVec.getLsbD_ushiftRight,
      BitVec.getLsbD_ushiftRight, hupper] at hbit
    simpa using hbit
  · rw [BitVec.getLsbD_of_ge x i (by omega), BitVec.getLsbD_of_ge y i (by omega)]
termination_by w - i

theorem eq_of_xorShift_eq {w k : Nat} (hk : 0 < k) {x y : BitVec w}
    (h : x ^^^ (x >>> k) = y ^^^ (y >>> k)) : x = y :=
  BitVec.eq_of_getLsbD_eq fun i _ => bit_eq_of_xorShift_eq hk h i

/-- Every bit goes to another place, and no two to the same. -/
theorem eq_of_rotated_eq {w k : Nat} (hk : k < w) {x y : BitVec w}
    (h : x <<< k ||| x >>> (w - k) = y <<< k ||| y >>> (w - k)) : x = y := by
  have hbit : ∀ j,
      (x <<< k ||| x >>> (w - k)).getLsbD j = (y <<< k ||| y >>> (w - k)).getLsbD j := by
    intro j
    rw [h]
  simp only [BitVec.getLsbD_or, BitVec.getLsbD_shiftLeft, BitVec.getLsbD_ushiftRight] at hbit
  refine BitVec.eq_of_getLsbD_eq fun i hi => ?_
  -- a bit goes up by `k` places if there is room, and comes in from below otherwise
  by_cases hlow : i + k < w
  · have hplace := hbit (i + k)
    have hout : ¬ i + k < k := by omega
    rw [BitVec.getLsbD_of_ge x (w - k + (i + k)) (by omega),
      BitVec.getLsbD_of_ge y (w - k + (i + k)) (by omega)] at hplace
    simpa [hlow, hout] using hplace
  · have hplace := hbit (i + k - w)
    have hin : i + k - w < k := by omega
    have hback : w - k + (i + k - w) = i := by omega
    simpa [hin, hback] using hplace

/-! ## The digest of a word -/

theorem eq_of_rotate_eq {x y : UInt64} {k : UInt64} (hk : k = 27 ∨ k = 31)
    (h : rotate x k = rotate y k) : x = y := by
  apply UInt64.toBitVec_inj.mp
  have hbits : (rotate x k).toBitVec = (rotate y k).toBitVec := by rw [h]
  rcases hk with rfl | rfl
  · exact @eq_of_rotated_eq 64 27 (by decide) _ _ hbits
  · exact @eq_of_rotated_eq 64 31 (by decide) _ _ hbits

theorem eq_of_shifted_eq {x y : UInt64} {k : UInt64} (hk : k = 29 ∨ k = 32 ∨ k = 33)
    (h : x ^^^ (x >>> k) = y ^^^ (y >>> k)) : x = y := by
  apply UInt64.toBitVec_inj.mp
  have hbits : (x ^^^ (x >>> k)).toBitVec = (y ^^^ (y >>> k)).toBitVec := by rw [h]
  rcases hk with rfl | rfl | rfl
  · exact @eq_of_xorShift_eq 64 29 (by decide) _ _ hbits
  · exact @eq_of_xorShift_eq 64 32 (by decide) _ _ hbits
  · exact @eq_of_xorShift_eq 64 33 (by decide) _ _ hbits

theorem eq_of_mixLane_eq {x y : UInt64} (h : mixLane 0 x = mixLane 0 y) : x = y := by
  unfold mixLane at h
  have hrotated := eq_of_mul_eq 0x0887493432badb37 (by decide) h
  have hproduct := eq_of_rotate_eq (.inr rfl) hrotated
  rw [UInt64.zero_add, UInt64.zero_add] at hproduct
  exact eq_of_mul_eq 0x0ba79078168d4baf (by decide) hproduct

theorem eq_of_absorbLane_eq {start x y : UInt64} (h : absorbLane start x = absorbLane start y) :
    x = y := by
  unfold absorbLane at h
  have hrotated := eq_of_mul_eq 0x0887493432badb37 (by decide) (eq_of_add_eq h)
  exact eq_of_mixLane_eq (eq_of_xor_eq (eq_of_rotate_eq (.inl rfl) hrotated))

theorem eq_of_avalanche_eq {x y : UInt64} (h : avalanche x = avalanche y) : x = y := by
  unfold avalanche at h
  have hthird := eq_of_shifted_eq (.inr (.inl rfl)) h
  have hsecond := eq_of_shifted_eq (.inl rfl) (eq_of_mul_eq 0xe9e9f4c41d6df849 (by decide) hthird)
  exact eq_of_shifted_eq (.inr (.inr rfl)) (eq_of_mul_eq 0x0ba79078168d4baf (by decide) hsecond)

/-- **Under one seed, two words have one digest only if they are one word.** -/
theorem lane_eq_of_xxh64_eq {seed x y : UInt64} (h : xxh64 seed [x] [] = xxh64 seed [y] []) :
    x = y := by
  rw [xxh64_lane, xxh64_lane] at h
  exact eq_of_absorbLane_eq (eq_of_avalanche_eq h)

end TermRewriting.Digest
