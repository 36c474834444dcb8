import Mathlib

/-!
# Mixing steps of 32-bit hashes

The steps that integer hashes are made of lose nothing: a word xored with
itself shifted right, a rotation, and a product with an odd constant reach
every word.

* `xorShift_surjective`, `rotate_surjective`, `mul_surjective`,
  `xor_surjective`, `add_surjective`.
-/
namespace FlashDriver.Core.Mixing

theorem toBitVec_shiftRight_mod (x s : UInt32) :
    (x >>> s).toBitVec = x.toBitVec >>> (s.toNat % 32) := by
  rw [UInt32.toBitVec_shiftRight, BitVec.ushiftRight_eq', BitVec.toNat_umod]
  rfl

theorem toBitVec_shiftLeft_mod (x s : UInt32) :
    (x <<< s).toBitVec = x.toBitVec <<< (s.toNat % 32) := by
  rw [UInt32.toBitVec_shiftLeft, BitVec.shiftLeft_eq', BitVec.toNat_umod]
  rfl

theorem xorShift_surjective {s : UInt32} {n : Nat} (hs : s.toNat % 32 = n) (hn : 11 ≤ n) :
    Function.Surjective fun x : UInt32 => x ^^^ (x >>> s) := by
  intro y
  refine ⟨y ^^^ (y >>> s) ^^^ (y >>> s) >>> s, ?_⟩
  apply UInt32.toBitVec_inj.mp
  ext i hi
  have h3 : y.toBitVec.getLsbD (n + (n + (n + i))) = false := BitVec.getLsbD_of_ge _ _ (by omega)
  simp only [UInt32.toBitVec_xor, toBitVec_shiftRight_mod, hs, BitVec.getElem_eq_testBit_toNat,
    BitVec.testBit_toNat, BitVec.getLsbD_xor, BitVec.getLsbD_ushiftRight, h3]
  cases y.toBitVec.getLsbD (n + i) <;> cases y.toBitVec.getLsbD (n + (n + i)) <;> simp

theorem rotate_surjective {r : UInt32} {n : Nat} (hr : r.toNat = n) (hn : 0 < n) (hn' : n < 32) :
    Function.Surjective fun x : UInt32 => (x <<< r) ||| (x >>> (32 - r)) := by
  intro y
  refine ⟨(y >>> r) ||| (y <<< (32 - r)), ?_⟩
  have hr' : (32 - r).toNat % 32 = 32 - n := by
    rw [UInt32.toNat_sub_of_le _ _ (by rw [UInt32.le_iff_toNat_le, hr]; exact hn'.le), hr]
    exact Nat.mod_eq_of_lt (by show 32 - n < 32; omega)
  apply UInt32.toBitVec_inj.mp
  ext i hi
  simp only [UInt32.toBitVec_or, toBitVec_shiftRight_mod, toBitVec_shiftLeft_mod, hr, hr',
    Nat.mod_eq_of_lt hn', BitVec.getElem_eq_testBit_toNat, BitVec.testBit_toNat, BitVec.getLsbD_or,
    BitVec.getLsbD_ushiftRight, BitVec.getLsbD_shiftLeft]
  -- the low `n` bits come from the top, the others from `n` places below
  have htop : y.toBitVec.getLsbD (n + (32 - n + i)) = false := BitVec.getLsbD_of_ge _ _ (by omega)
  by_cases h : i < n
  · have hsub : 32 - n + i - (32 - n) = i := by omega
    have hlt : 32 - n + i < 32 := by omega
    simp [h, htop, hsub, hlt]
  · have hadd : n + (i - n) = i := by omega
    have hlt : i - n < 32 - n := by omega
    have hge : ¬ 32 - n + i < 32 := by omega
    simp [h, hi, htop, hadd, hlt, hge]

theorem mul_surjective {c d : UInt32} (h : d * c = 1) :
    Function.Surjective fun x : UInt32 => x * c := by
  intro y
  refine ⟨y * d, ?_⟩
  change y * d * c = y
  rw [UInt32.mul_assoc, h, UInt32.mul_one]

theorem xor_surjective (c : UInt32) : Function.Surjective fun x : UInt32 => x ^^^ c := by
  intro y
  refine ⟨y ^^^ c, ?_⟩
  change y ^^^ c ^^^ c = y
  rw [UInt32.xor_assoc, UInt32.xor_self, UInt32.xor_zero]

theorem add_surjective (c : UInt32) : Function.Surjective fun x : UInt32 => x + c :=
  fun y => ⟨y - c, UInt32.sub_add_cancel y c⟩

end FlashDriver.Core.Mixing
