import Mathlib

/-! Memory as bytes. Numbers are stored with their low byte first, at any address and with any
number of bytes. A change is described by the range outside which nothing changes. Pointers and
sizes have 4 or 8 bytes. -/
namespace ByteMemory

open Nat

inductive Abi where
  | ilp32
  | lp64
  deriving DecidableEq

namespace Abi

/-- The size of a pointer and of a `size_t`. -/
def word : Abi → ℕ
  | ilp32 => 4
  | lp64 => 8

/-- How many values a `size_t` has. -/
def sizes (a : Abi) : ℕ := 256 ^ a.word

/-- One less, in a `size_t`. -/
def pred (a : Abi) (n : ℕ) : ℕ := (n + (a.sizes - 1)) % a.sizes

theorem word_cases (a : Abi) : a.word = 4 ∨ a.word = 8 := by
  cases a
  · exact .inl rfl
  · exact .inr rfl

theorem lt_sizes (a : Abi) : 4294967295 < a.sizes := by
  cases a <;> decide

theorem pred_of_pos {a : Abi} {n} (hn : 0 < n) (hl : n < a.sizes) : a.pred n = n - 1 := by
  have hs : n + (a.sizes - 1) = n - 1 + a.sizes := by omega
  rw [pred, hs, add_mod_right, mod_eq_of_lt (by omega)]

end Abi

abbrev Byte : Type := BitVec 8

abbrev Memory : Type := ℕ → Byte

/-- The number in the `n` bytes at `x`. -/
def load (m : Memory) : ℕ → ℕ → ℕ
  | 0, _ => 0
  | n + 1, x => (m x).toNat + 256 * load m n (x + 1)

def store (m : Memory) (n x v : ℕ) : Memory := fun y =>
  if x ≤ y ∧ y < x + n then BitVec.ofNat 8 (v / 256 ^ (y - x)) else m y

/-- `memset`. -/
def fill (m : Memory) (x n : ℕ) (b : Byte) : Memory := fun y =>
  if x ≤ y ∧ y < x + n then b else m y

/-- `memcpy`. -/
def copy (m : Memory) (dst src n : ℕ) : Memory := fun y =>
  if dst ≤ y ∧ y < dst + n then m (src + (y - dst)) else m y

def SameOutside (m m' : Memory) (x n : ℕ) : Prop := ∀ y, y < x ∨ x + n ≤ y → m' y = m y

variable {m m' m'' : Memory} {n k x y v : ℕ}

theorem SameOutside.refl (m x n) : SameOutside m m x n := fun _ _ => rfl

theorem SameOutside.trans (h : SameOutside m m' x n) (h' : SameOutside m' m'' x n) :
    SameOutside m m'' x n :=
  fun y hy => (h' y hy).trans (h y hy)

theorem SameOutside.mono (h : SameOutside m m' y k) (hx : x ≤ y) (hn : y + k ≤ x + n) :
    SameOutside m m' x n :=
  fun z hz => h z (by omega)

theorem sameOutside_store (m n x v) : SameOutside m (store m n x v) x n := by
  intro y hy
  exact if_neg (by omega)

theorem sameOutside_fill (m x n b) : SameOutside m (fill m x n b) x n := by
  intro y hy
  exact if_neg (by omega)

theorem SameOutside.store (h : SameOutside m m' x n) (v) (hx : x ≤ y) (hn : y + k ≤ x + n) :
    SameOutside m (store m' k y v) x n :=
  h.trans ((sameOutside_store m' k y v).mono hx hn)

theorem load_congr (h : ∀ z, x ≤ z → z < x + n → m' z = m z) : load m' n x = load m n x := by
  induction n generalizing x with
  | zero => rfl
  | succ n ih =>
    rw [load, load, h x (le_refl x) (by omega), ih fun z hz hz' => h z (by omega) (by omega)]

theorem load_lt (m n x) : load m n x < 256 ^ n := by
  induction n generalizing x with
  | zero => exact Nat.one_pos
  | succ n ih =>
    have hb : (m x).toNat < 256 := (m x).isLt
    have hr := ih (x + 1)
    rw [load, pow_succ']
    omega

theorem SameOutside.load_eq (h : SameOutside m m' y k) (hd : x + n ≤ y ∨ y + k ≤ x) :
    load m' n x = load m n x :=
  load_congr fun z hz hz' => h z (by omega)

theorem load_store_self (m n x v) : load (store m n x v) n x = v % 256 ^ n := by
  induction n generalizing m x v with
  | zero => rw [load, pow_zero, mod_one]
  | succ n ih =>
    have hr : load (store m (n + 1) x v) n (x + 1) =
        load (store m n (x + 1) (v / 256)) n (x + 1) := by
      apply load_congr
      intro z hz hz'
      have hp : v / 256 ^ (z - x) = v / 256 / 256 ^ (z - (x + 1)) := by
        rw [Nat.div_div_eq_div_mul, ← pow_succ']
        congr 2
        omega
      simp only [store]
      rw [if_pos (by omega), if_pos (by omega), hp]
    have hf : (store m (n + 1) x v x).toNat = v % 256 := by
      rw [store, if_pos (by omega), Nat.sub_self, pow_zero, Nat.div_one, BitVec.toNat_ofNat]
    rw [load, hr, ih, hf, pow_succ', mod_mul]

theorem load_store (hv : v < 256 ^ n) : load (store m n x v) n x = v := by
  rw [load_store_self, mod_eq_of_lt hv]

end ByteMemory
