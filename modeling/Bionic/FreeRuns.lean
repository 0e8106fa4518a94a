import Bionic.ByteMemory

/-! Free memory kept as runs of blocks of one size. The first block of a run holds two words, the
address of the next run and the number of blocks of its own; the other blocks of a run hold
nothing. Blocks are named by their addresses. -/
namespace FreeRuns
open ByteMemory
open List Nat

abbrev Run : Type := ℕ × ℕ

def blocks (size : ℕ) : ℕ → ℕ → List ℕ
  | _, 0 => []
  | x, n + 1 => x :: blocks size (x + size) n

def blocksOf (size : ℕ) (runs : List Run) : List ℕ := runs.flatMap fun r => blocks size r.1 r.2

def Apart (size x y : ℕ) : Prop := x + size ≤ y ∨ y + size ≤ x

/-- A linked list from `p` to a null link. -/
def Chain (next : ℕ → ℕ) : ℕ → List ℕ → Prop
  | p, [] => p = 0
  | p, x :: xs => p = x ∧ x ≠ 0 ∧ Chain next (next x) xs

/-- The runs that the memory describes, for words of `w` bytes. -/
structure Holds (m : Memory) (w p : ℕ) (runs : List Run) : Prop where
  chain : Chain (load m w) p (runs.map Prod.fst)
  count : ∀ r ∈ runs, load m w (r.1 + w) = r.2

section
variable {size x y b n : ℕ}

@[simp] theorem blocksOf_nil (size) : blocksOf size [] = [] := rfl

@[simp] theorem blocksOf_cons (size r runs) :
    blocksOf size (r :: runs) = blocks size r.1 r.2 ++ blocksOf size runs := rfl

theorem Apart.symm (h : Apart size x y) : Apart size y x := Or.symm h

instance (size : ℕ) : Std.Symm (Apart size) := ⟨fun _ _ => Apart.symm⟩

theorem Apart.ne (h : Apart size x y) (hs : 0 < size) : x ≠ y := by
  rintro rfl
  rcases h with h | h <;> omega

theorem mem_blocks : b ∈ blocks size x n ↔ ∃ k < n, b = x + k * size := by
  induction n generalizing x with
  | zero =>
    refine ⟨nofun, ?_⟩
    rintro ⟨k, hk, -⟩
    exact absurd hk (not_lt_zero k)
  | succ n ih =>
    rw [blocks, mem_cons, ih]
    constructor
    · rintro (rfl | ⟨k, hk, rfl⟩)
      · exact ⟨0, succ_pos n, by rw [zero_mul, add_zero]⟩
      · exact ⟨k + 1, succ_lt_succ hk, by rw [succ_mul]; omega⟩
    rintro ⟨k, hk, rfl⟩
    cases k with
    | zero => exact .inl (by rw [zero_mul, add_zero])
    | succ k => exact .inr ⟨k, lt_of_succ_lt_succ hk, by rw [succ_mul]; omega⟩

theorem bounds_of_mem_blocks (h : b ∈ blocks size x n) : x ≤ b ∧ b + size ≤ x + n * size := by
  obtain ⟨k, hk, rfl⟩ := mem_blocks.mp h
  have hm := mul_le_mul_right size (succ_le_of_lt hk)
  rw [succ_mul] at hm
  omega

theorem blocks_pairwise (size x n) : (blocks size x n).Pairwise (Apart size) := by
  induction n generalizing x with
  | zero => exact List.Pairwise.nil
  | succ n ih =>
    refine List.Pairwise.cons ?_ (ih (x + size))
    intro b hb
    exact .inl (bounds_of_mem_blocks hb).1

theorem covered_blocks_iff (size x n y) :
    (∃ b ∈ blocks size x n, b ≤ y ∧ y < b + size) ↔ x ≤ y ∧ y < x + n * size := by
  constructor
  · rintro ⟨b, hb, hl, hlt⟩
    have hbs := bounds_of_mem_blocks hb
    omega
  intro h
  induction n generalizing x with
  | zero => omega
  | succ n ih =>
    rw [succ_mul] at h
    by_cases hy : y < x + size
    · exact ⟨x, mem_cons_self, h.1, hy⟩
    · obtain ⟨b, hb, hby⟩ := ih (x + size) (by omega)
      exact ⟨b, mem_cons_of_mem x hb, hby⟩

theorem fst_mem_blocksOf {r runs} (hr : r ∈ runs) (hn : 0 < r.2) : r.1 ∈ blocksOf size runs := by
  refine List.mem_flatMap.mpr ⟨r, hr, mem_blocks.mpr ⟨0, hn, ?_⟩⟩
  rw [zero_mul, add_zero]

end

variable {m m' : Memory} {next next' : ℕ → ℕ} {w p x n : ℕ} {xs : List ℕ} {runs : List Run}

theorem Chain.congr (h : Chain next p xs) (hn : ∀ x ∈ xs, next' x = next x) : Chain next' p xs := by
  induction xs generalizing p with
  | nil => exact h
  | cons x xs ih =>
    obtain ⟨hp, hx, hxs⟩ := h
    refine ⟨hp, hx, ?_⟩
    rw [hn x mem_cons_self]
    exact ih hxs fun y hy => hn y (mem_cons_of_mem x hy)

theorem Chain.ne_zero (h : Chain next p xs) (hx : x ∈ xs) : x ≠ 0 := by
  induction xs generalizing p with
  | nil => cases hx
  | cons y ys ih =>
    rcases List.mem_cons.mp hx with rfl | hx
    · exact h.2.1
    · exact ih h.2.2 hx

theorem Chain.eq_nil (h : Chain next 0 xs) : xs = [] := by
  cases xs with
  | nil => rfl
  | cons x xs => exact absurd h.1.symm h.2.1

theorem Holds.nil (m w) : Holds m w 0 [] :=
  ⟨rfl, nofun⟩

theorem Holds.eq_nil (h : Holds m w 0 runs) : runs = [] :=
  List.map_eq_nil_iff.mp h.chain.eq_nil

theorem Holds.tail (h : Holds m w p ((x, n) :: runs)) : Holds m w (load m w x) runs :=
  ⟨h.chain.2.2, fun r hr => h.count r (mem_cons_of_mem _ hr)⟩

variable (h : Holds m w p runs)
include h

theorem Holds.exists_cons (hp : p ≠ 0) : ∃ n rest, runs = (p, n) :: rest := by
  cases runs with
  | nil => exact absurd h.chain hp
  | cons r rest =>
    obtain ⟨rfl, -, -⟩ : p = r.1 ∧ _ := h.chain
    exact ⟨r.2, rest, rfl⟩

theorem Holds.frame {y k} (hm : SameOutside m m' y k)
    (ha : ∀ r ∈ runs, r.1 + (w + w) ≤ y ∨ y + k ≤ r.1) : Holds m' w p runs := by
  constructor
  · refine h.chain.congr fun x hx => ?_
    obtain ⟨r, hr, rfl⟩ := List.mem_map.mp hx
    have := ha r hr
    exact hm.load_eq (by omega)
  · intro r hr
    have := ha r hr
    rw [hm.load_eq (by omega)]
    exact h.count r hr

theorem Holds.cons (hx : x ≠ 0) (hn : load m w x = p)
    (hc : load m w (x + w) = n) : Holds m w x ((x, n) :: runs) := by
  refine ⟨⟨rfl, hx, ?_⟩, List.forall_mem_cons.mpr ⟨hc, h.count⟩⟩
  rw [hn]
  exact h.chain

end FreeRuns
