import Mathlib

/-! Alignment and windows in machine words. Numbers are natural, a word has values below `n`, and
sums are taken modulo `n`. A window is a range that does not wrap; what is at distance `x` above
its start has the address `(s + x) % n`, wrapped or not. -/
namespace WordAlign

open Nat

def alignDown (p x : ℕ) : ℕ := x - x % p

def alignUp (p x : ℕ) : ℕ := alignDown p (x + (p - 1))

section
variable {p s n x y : ℕ}

theorem alignDown_le (p x) : alignDown p x ≤ x := sub_le _ _

theorem dvd_alignDown (p x) : p ∣ alignDown p x := dvd_sub_mod x

theorem alignDown_add_mod (p x) : alignDown p x + x % p = x :=
  Nat.sub_add_cancel (mod_le x p)

theorem dvd_alignUp (p x) : p ∣ alignUp p x := dvd_alignDown p _

theorem alignDown_add (h : p ∣ s) (x) : alignDown p (s + x) = s + alignDown p x := by
  have hm : (s + x) % p = x % p := by
    rw [add_mod, mod_eq_zero_of_dvd h, zero_add, mod_mod]
  have hl := mod_le x p
  rw [alignDown, alignDown, hm]
  omega

theorem alignDown_mod (h : p ∣ n) (x) : alignDown p (x % n) = alignDown p x % n := by
  have hd : alignDown p x = n * (x / n) + alignDown p (x % n) := by
    conv_lhs => rw [← div_add_mod x n]
    exact alignDown_add (h.mul_right _) _
  rcases Nat.eq_zero_or_pos n with rfl | hn
  · rw [mod_zero, mod_zero]
  · rw [hd, mul_add_mod, mod_eq_of_lt ((alignDown_le p _).trans_lt (mod_lt x hn))]

theorem le_alignUp (hp : 0 < p) (x) : x ≤ alignUp p x := by
  have hs := alignDown_add_mod p (x + (p - 1))
  have hl := mod_lt (x + (p - 1)) hp
  rw [alignUp]
  omega

theorem alignUp_lt (hp : 0 < p) (x) : alignUp p x < x + p := by
  have hl := alignDown_le p (x + (p - 1))
  rw [alignUp]
  omega

theorem alignUp_le_iff (hp : 0 < p) (hy : p ∣ y) : alignUp p x ≤ y ↔ x ≤ y := by
  refine ⟨(le_alignUp hp x).trans, fun h => ?_⟩
  have hl := alignUp_lt hp x
  obtain ⟨k, rfl⟩ := hy
  obtain ⟨j, hj⟩ := dvd_alignUp p x
  rw [hj] at hl ⊢
  have hjk : j < k + 1 := by
    by_contra hg
    have hm := mul_le_mul_left p (not_lt.mp hg)
    rw [mul_add] at hm
    omega
  exact mul_le_mul_left p (Nat.lt_succ_iff.mp hjk)

theorem add_sub_mod_le_iff (hy : p ∣ y) (hx : x % p ≠ 0) : x + (p - x % p) ≤ y ↔ x < y := by
  rcases Nat.eq_zero_or_pos p with rfl | hp
  · rw [zero_dvd_iff.mp hy]
    omega
  have hl := mod_lt x hp
  refine ⟨fun h => by omega, fun h => ?_⟩
  obtain ⟨j, rfl⟩ := hy
  have hd : x / p + 1 ≤ j := Nat.div_lt_of_lt_mul h
  have hm := mul_le_mul_left p hd
  have hs := div_add_mod x p
  rw [mul_add] at hm
  omega

theorem alignDown_wrapped (h : p ∣ n) (hs : p ∣ s) (x) :
    alignDown p (((s + x) % n + (p - 1)) % n) = (s + alignUp p x) % n := by
  rw [mod_add_mod, alignDown_mod h, add_assoc, alignDown_add hs]
  rfl

end

variable {n s l x y : ℕ}

theorem add_mod_of_lt (h : s + x < n) : (s + x) % n = s + x := mod_eq_of_lt h

theorem add_mod_of_le (hs : s < n) (hx : x < n) (h : n ≤ s + x) : (s + x) % n = s + x - n := by
  rw [mod_eq_sub_mod h, mod_eq_of_lt (by omega)]

theorem window_iff (hl : s + l < n) (hx : x < n) (len) :
    s ≤ (s + x) % n ∧ (s + x) % n + len ≤ s + l ↔ x + len ≤ l := by
  by_cases h : s + x < n
  · rw [add_mod_of_lt h]
    omega
  · rw [add_mod_of_le (by omega) hx (not_lt.mp h)]
    omega

theorem gap_iff (hl : s + l < n) (hx : x < n) (hy : y < n) :
    ((s + x) % n < (s + y) % n → s ≤ (s + x) % n ∧ (s + y) % n ≤ s + l) ↔
      if y ≤ x then n ≤ s + x → n ≤ s + y else y ≤ l ∨ s + x < n ∧ n ≤ s + y := by
  rcases lt_or_ge (s + x) n with hsx | hsx
  · rw [add_mod_of_lt hsx]
    rcases lt_or_ge (s + y) n with hs | hs
    · rw [add_mod_of_lt hs]
      split <;> omega
    · rw [add_mod_of_le (by omega) hy hs]
      split <;> omega
  rw [add_mod_of_le (by omega) hx hsx]
  rcases lt_or_ge (s + y) n with hs | hs
  · rw [add_mod_of_lt hs]
    split <;> omega
  · rw [add_mod_of_le (by omega) hy hs]
    split <;> omega

end WordAlign
