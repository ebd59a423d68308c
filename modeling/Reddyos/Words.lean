import Mathlib.Data.Nat.Bitwise

/-! Power-of-two alignment of 64-bit words. The masks are those a C compiler sees;
the equations say which number the masked word is. -/
namespace Words

theorem and_not_low (x : BitVec 64) (k : Nat) :
    x &&& ~~~(BitVec.ofNat 64 (2^k - 1)) = (x >>> k) <<< k := by
  apply BitVec.eq_of_getLsbD_eq
  intro i inside
  simp only [BitVec.getLsbD_and,BitVec.getLsbD_not,BitVec.getLsbD_ofNat,BitVec.getLsbD_shiftLeft,
    BitVec.getLsbD_ushiftRight,Nat.testBit_two_pow_sub_one,inside,decide_true,Bool.true_and]
  by_cases low : i < k
  · simp [low]
  · have back : k + (i - k) = i := by omega
    simp [low,back]

theorem toNat_and_not_low (x : BitVec 64) (k : Nat) :
    (x &&& ~~~(BitVec.ofNat 64 (2^k - 1))).toNat = x.toNat / 2^k * 2^k := by
  rw [and_not_low x k]
  have le : x.toNat / 2^k * 2^k ≤ x.toNat := Nat.div_mul_le_self _ _
  have small := x.isLt
  rw [BitVec.toNat_shiftLeft,BitVec.toNat_ushiftRight,Nat.shiftRight_eq_div_pow,Nat.shiftLeft_eq]
  exact Nat.mod_eq_of_lt (Nat.lt_of_le_of_lt le small)

theorem toNat_and_low (x : BitVec 64) (k : Nat) (bound : k ≤ 64) :
    (x &&& BitVec.ofNat 64 (2^k - 1)).toNat = x.toNat % 2^k := by
  have small : 2^k - 1 < 2^64 := by
    have := Nat.pow_le_pow_right (show 0 < 2 by decide) bound
    omega
  rw [BitVec.toNat_and,BitVec.toNat_ofNat,Nat.mod_eq_of_lt small,Nat.and_two_pow_sub_one_eq_mod]

theorem toNat_field (x : BitVec 64) (shift width : Nat) (bound : width ≤ 64) :
    ((x >>> shift) &&& BitVec.ofNat 64 (2^width - 1)).toNat = x.toNat / 2^shift % 2^width := by
  rw [toNat_and_low _ _ bound,BitVec.toNat_ushiftRight,Nat.shiftRight_eq_div_pow]

/-- A product that is divided is right exactly as long as it does not wrap: what wraps is at least
2^w, more than any divisor makes up for. -/
theorem toNat_mul_div_iff {w : Nat} {d : BitVec w} (a b : BitVec w) (positive : d ≠ 0#w) :
    (a * b / d).toNat = a.toNat * b.toNat / d.toNat ↔ a.toNat * b.toNat < 2^w := by
  have divisor : 0 < d.toNat := Nat.pos_of_ne_zero fun zero => positive (BitVec.eq_of_toNat_eq zero)
  have below := d.isLt
  rw [BitVec.toNat_udiv,BitVec.toNat_mul]
  generalize a.toNat * b.toNat = product
  constructor
  · intro same
    by_contra wraps
    rw [Nat.not_lt] at wraps
    have split := Nat.div_add_mod product (2^w)
    have turns : 1 ≤ product / 2^w := (Nat.one_le_div_iff (Nat.two_pow_pos w)).mpr wraps
    have full : 2^w ≤ 2^w * (product / 2^w) := Nat.le_mul_of_pos_right _ turns
    have more : product % 2^w + d.toNat ≤ product := by omega
    have less := Nat.div_le_div_right (c := d.toNat) more
    rw [Nat.add_div_right _ divisor] at less
    omega
  · intro small
    rw [Nat.mod_eq_of_lt small]

end Words
