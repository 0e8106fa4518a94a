import Mathlib

/-! Bit fields of machine words. A word is written as the number whose fields are its digits in
mixed radix; masks, or, exclusive or and sums of words then become arithmetic on the digits. -/
namespace BitFields

open BitVec (ofNat toNat_ofNat toNat)
open Nat

theorem land_mask (n k b) : n &&& ((2 ^ b - 1) * 2 ^ k) = n / 2 ^ k % 2 ^ b * 2 ^ k := by
  apply eq_of_testBit_eq
  intro i
  simp only [testBit_and, testBit_mul_two_pow, testBit_two_pow_sub_one,
    testBit_mod_two_pow, testBit_div_two_pow]
  by_cases h : k ≤ i
  · simp [h, Bool.and_comm]
  · simp [h]

theorem xor_low {x y z k} (hy : y < 2 ^ k) (hz : z < 2 ^ k) :
    (2 ^ k * x + y) ^^^ z = 2 ^ k * x + (y ^^^ z) := by
  rw [← div_add_mod ((2 ^ k * x + y) ^^^ z) (2 ^ k), xor_div_two_pow, xor_mod_two_pow,
    mul_add_div (Nat.two_pow_pos k), div_eq_of_lt hy, div_eq_of_lt hz, mul_add_mod,
    mod_eq_of_lt hy, mod_eq_of_lt hz, add_zero, xor_zero]

variable {w x y z k : ℕ}

theorem ofNat_and_mask (w n k b) : ofNat w n &&& ofNat w ((2 ^ b - 1) * 2 ^ k) =
      ofNat w (n / 2 ^ k % 2 ^ b * 2 ^ k) := by
  rw [← BitVec.ofNat_and, land_mask]

theorem ofNat_or_low (h : y < 2 ^ k) :
    ofNat w (2 ^ k * x) ||| ofNat w y = ofNat w (2 ^ k * x + y) := by
  rw [← BitVec.ofNat_or, two_pow_add_eq_or_of_lt h]

theorem ofNat_xor_low (hy : y < 2 ^ k) (hz : z < 2 ^ k) : ofNat w (2 ^ k * x + y) ^^^ ofNat w z =
      ofNat w (2 ^ k * x + (y ^^^ z)) := by
  rw [← BitVec.ofNat_xor, xor_low hy hz]

theorem ofNat_inj (hx : x < 2 ^ w) (hy : y < 2 ^ w) : ofNat w x = ofNat w y ↔ x = y := by
  constructor
  · intro h
    have h := congrArg toNat h
    rwa [toNat_ofNat, toNat_ofNat, mod_eq_of_lt hx, mod_eq_of_lt hy] at h
  · rintro rfl
    rfl

theorem toNat_clear (x) (hk : k < w) :
    (x &&& ~~~(ofNat w (2 ^ k))).toNat + x.toNat / 2 ^ k % 2 * 2 ^ k = x.toNat := by
  have hb : (x &&& ofNat w (2 ^ k)).toNat = x.toNat / 2 ^ k % 2 * 2 ^ k := by
    have hm := land_mask x.toNat k 1
    rw [BitVec.toNat_and, toNat_ofNat, mod_eq_of_lt (Nat.pow_lt_pow_right Nat.one_lt_two hk)]
    simpa using hm
  have hd : (x &&& ~~~(ofNat w (2 ^ k))) &&& (x &&& ofNat w (2 ^ k)) = 0#w := by
    ext j hj
    simp
    grind
  have hs : (x &&& ~~~(ofNat w (2 ^ k))) ||| (x &&& ofNat w (2 ^ k)) = x := by
    ext j hj
    simp
    grind
  rw [← hb, ← BitVec.toNat_add_of_and_eq_zero hd, BitVec.add_eq_or_of_and_eq_zero _ _ hd, hs]

theorem toNat_set (x) (hk : k < w) :
    (x ||| ofNat w (2 ^ k)).toNat + x.toNat / 2 ^ k % 2 * 2 ^ k = x.toNat + 2 ^ k := by
  have hd : (x &&& ~~~(ofNat w (2 ^ k))) &&& ofNat w (2 ^ k) = 0#w := by
    ext j hj
    simp
  have ho : x ||| ofNat w (2 ^ k) = (x &&& ~~~(ofNat w (2 ^ k))) ||| ofNat w (2 ^ k) := by
    ext j hj
    simp
    grind
  have hc := toNat_clear x hk
  rw [ho, ← BitVec.add_eq_or_of_and_eq_zero _ _ hd, BitVec.toNat_add_of_and_eq_zero hd, toNat_ofNat,
    mod_eq_of_lt (Nat.pow_lt_pow_right Nat.one_lt_two hk)]
  omega

end BitFields
