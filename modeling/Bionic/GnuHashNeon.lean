import Bionic.LinkerLookup

/-! `calculate_gnu_hash_neon` reads a name in aligned chunks of eight bytes, with the bytes around
the name in the first and the last one. -/
namespace GnuHashNeon

open LinkerLookup Nat
open List

/-- `kStep0` to `kStep11`. -/
def kStep (n : ℕ) : BitVec 32 := 33 ^ n

/-- `kStepN1` to `kStepN7`. -/
def kStepN (n : ℕ) : BitVec 32 := 0x3e0f83e1 ^ n

abbrev Chunk : Type := ℕ → BitVec 8
abbrev Lanes : Type := Fin 4 → BitVec 32

/-- `accum` of `kInitTable`. -/
def initAccum (offset : ℕ) : BitVec 32 :=
  (List.range offset).foldl (fun accum i => accum - 0xff * kStepN (i + 1)) (5381 * kStepN offset)

def ignoreMask (offset : ℕ) : Chunk := fun i => if i < offset then 0xff else 0

def kInclineVec : Lanes := fun j => kStep (3 - j)

def kFinalInclineTable (i : ℕ) : BitVec 32 := if i = 0 ∨ 8 ≤ i then 0 else kStep (7 - i)

section
variable (mem : ℕ → BitVec 8)

def load (ptr : ℕ) : Chunk := fun i => mem (ptr + i)

/-- `vmlal_u16` of four bytes of the chunk. -/
def accumulate (accum : Lanes) (chunk : Chunk) (i : ℕ) : Lanes := fun j =>
  accum j * kStep 8 + (chunk (i + j)).setWidth 32 * kInclineVec j

/-- The loop, with fuel for the chunks. -/
def hashChunks : ℕ → ℕ → Chunk → Lanes → Lanes → Option (ℕ × Chunk × Lanes × Lanes)
  | 0, _, _, _, _ => none
  | fuel + 1, chunkPtr, chunk, accumLo, accumHi =>
    if ∃ i < 8, chunk i = 0 then some (chunkPtr, chunk, accumLo, accumHi)
    else hashChunks fuel (chunkPtr + 8) (load mem (chunkPtr + 8)) (accumulate accumLo chunk 0)
      (accumulate accumHi chunk 4)

def isNul (chunk : Chunk) : List Bool := (List.range 8).map fun i => chunk i = 0

/-- One word after `vrev64_u8`: the first lane is the highest byte. -/
def reversed (lanes : List Bool) : BitVec 64 :=
  lanes.foldl (fun word lane => word <<< 8 ||| if lane then 0xff else 0) 0

def numValidBits (chunk : Chunk) : ℕ := (reversed (isNul chunk)).clz.toNat

def finish (chunk : Chunk) (accumLo accumHi : Lanes) : BitVec 32 :=
  let k := numValidBits chunk >>> 3
  let incline := fun i => kFinalInclineTable (8 - k + i)
  let sum : Lanes := fun j => accumLo j * kStep (4 + k) + accumHi j * kStep k +
    (chunk j).setWidth 32 * incline j + (chunk (4 + j)).setWidth 32 * incline (4 + j)
  (sum 0 + sum 2) + (sum 1 + sum 3)

def calculateGnuHashNeon (fuel name : ℕ) : Option (BitVec 32 × BitVec 32) := do
  let offset := name % 8
  let chunkPtr := name - offset
  let chunk := fun i => load mem chunkPtr i ||| ignoreMask offset i
  let accumHi : Lanes := fun j => if j = 0 then initAccum offset else 0
  let (chunkPtr, chunk, accumLo, accumHi) ← hashChunks mem fuel chunkPtr chunk (fun _ => 0) accumHi
  let nameLen := BitVec.ofNat 32 chunkPtr - BitVec.ofNat 32 name +
    BitVec.ofNat 32 (numValidBits chunk >>> 3)
  some (finish chunk accumLo accumHi, nameLen)

end

def stringAt (other : ℕ → BitVec 8) (name : ℕ) (s : CString) (addr : ℕ) : BitVec 8 :=
  if name ≤ addr ∧ addr ≤ name + s.bytes.length then (s.bytes.getD (addr - name) 0).toBitVec
  else other addr

def hashTo (v : ℕ → BitVec 8) (h : BitVec 32) : ℕ → BitVec 32
  | 0 => h
  | n + 1 => hashTo v h n * 33 + (v n).setWidth 32

def value (accumLo accumHi : Lanes) : BitVec 32 :=
  (accumLo 0 + accumLo 1 + accumLo 2 + accumLo 3) * kStep 4 +
    (accumHi 0 + accumHi 1 + accumHi 2 + accumHi 3)

/-- All of the stream before the chunk at `c` is in the accumulators. -/
structure Hashed (v : ℕ → BitVec 8) (h : BitVec 32) (c : ℕ) (chunk : Chunk)
    (accumLo accumHi : Lanes) : Prop where
  chunk : ∀ i < 8, chunk i = v (c + i)
  accum : value accumLo accumHi = hashTo v h c

variable {mem v : ℕ → BitVec 8} {h : BitVec 32} {chunk : Chunk} {accumLo accumHi : Lanes}
  {base c n : ℕ} {offset : ℕ}

structure EndsAt (v : ℕ → BitVec 8) (n : ℕ) : Prop where
  nul : v n = 0
  before : ∀ i < n, v i ≠ 0

theorem clz_reversed : ∀ a b c d e f g h,
    (reversed [a, b, c, d, e, f, g, h]).clz.toNat >>> 3 = [a, b, c, d, e, f, g, h].findIdx id := by
  decide +kernel

section
variable (hc : Hashed v h c chunk accumLo accumHi)
include hc

theorem Hashed.next :
    value (accumulate accumLo chunk 0) (accumulate accumHi chunk 4) = hashTo v h (c + 8) := by
  simp only [hashTo, ← hc.accum, value, accumulate, kInclineVec, kStep]
  simp (disch := decide) [hc.chunk]
  ring

theorem Hashed.last {k} (hk : numValidBits chunk >>> 3 = k) (hl : k < 8) :
    finish chunk accumLo accumHi = hashTo v h (c + k) := by
  rw [finish, hk]
  interval_cases k <;>
    simp only [add_zero, hashTo, ← hc.accum, value, kFinalInclineTable, kStep] <;>
    simp (disch := decide) [hc.chunk] <;> ring

theorem Hashed.numValidBits_eq (hv : EndsAt v n)
    (hle : c ≤ n) (hlt : n < c + 8) : numValidBits chunk >>> 3 = n - c := by
  have hl : n - c < (isNul chunk).length := by
    rw [isNul, length_map, length_range]
    omega
  refine (clz_reversed ..).trans ((findIdx_eq hl).mpr ⟨?_, fun j hj => ?_⟩)
  · simp [isNul, hc.chunk (n - c) (by omega), Nat.add_sub_cancel' hle, hv.nul]
  · simpa [isNul, hc.chunk j (by omega)] using hv.before (c + j) (by omega)

end

theorem hashChunks_eq (hv : EndsAt v n) (hm : ∀ i, 8 ≤ i → mem (base + i) = v i) (fuel)
    (hf : n < 8 * c + 8 * fuel) (hl : 8 * c ≤ n) (hc : Hashed v h (8 * c) chunk accumLo accumHi) :
    ∃ chunk' lo hi, hashChunks mem fuel (base + 8 * c) chunk accumLo accumHi =
      some (base + 8 * (n / 8), chunk', lo, hi) ∧ Hashed v h (8 * (n / 8)) chunk' lo hi := by
  induction fuel generalizing c chunk accumLo accumHi with
  | zero => omega
  | succ fuel ih =>
    rw [hashChunks]
    by_cases hlt : n < 8 * c + 8
    · have hn : chunk (n - 8 * c) = 0 := by
        rw [hc.chunk _ (by omega), Nat.add_sub_cancel' hl]
        exact hv.nul
      obtain rfl : n / 8 = c := by omega
      rw [if_pos ⟨_, by omega, hn⟩]
      exact ⟨chunk, accumLo, accumHi, rfl, hc⟩
    have hno : ¬∃ i < 8, chunk i = 0 := by
      rintro ⟨i, hi, hn⟩
      exact hv.before (8 * c + i) (by omega) (hc.chunk i hi ▸ hn)
    rw [if_neg hno]
    refine ih (c := c + 1) (by omega) (by omega) ⟨fun i hi => ?_, hc.next⟩
    exact (congrArg mem (by omega)).trans (hm _ (by omega))

theorem hashTo_initAccum (hl : offset < 8) (hf : ∀ i < offset, v i = 0xff) :
    hashTo v (initAccum offset) offset = 5381 := by
  interval_cases offset <;> simp (disch := decide) only [hashTo, hf] <;> decide +kernel

theorem hashTo_toNat (s) (hs : hashTo v h offset = 5381)
    (hn : ∀ i ≤ s.bytes.length, v (offset + i) = (s.bytes.getD i 0).toBitVec) :
    (hashTo v h (offset + s.bytes.length)).toNat = (calculateGnuHash s).1 := by
  suffices ht : ∀ n ≤ s.bytes.length, (hashTo v h (offset + n)).toNat =
      (s.bytes.take n).foldl (fun h c => (h + h <<< 5 + c.toNat) % 2 ^ 32) 5381 by
    rw [ht _ le_rfl, take_length, calculateGnuHash]
  intro n hl
  induction n with
  | zero => exact congrArg BitVec.toNat hs
  | succ n ih =>
    rw [take_add_one, getElem?_eq_getElem (by omega), Option.toList_some, foldl_append,
      ← ih (by omega), ← add_assoc, hashTo, hn n (by omega), getD_eq_getElem _ _ hl]
    simp [shiftLeft_eq]
    omega

structure Holds (v : ℕ → BitVec 8) (offset : ℕ) (s : CString) : Prop where
  front : ∀ i < offset, v i = 0xff
  name : ∀ i ≤ s.bytes.length, v (offset + i) = (s.bytes.getD i 0).toBitVec

theorem Holds.endsAt {s} (h : Holds v offset s) : EndsAt v (offset + s.bytes.length) := by
  refine ⟨by rw [h.name _ le_rfl]; simp, fun i hi => ?_⟩
  by_cases hio : i < offset
  · rw [h.front i hio]
    decide
  obtain ⟨j, rfl⟩ := Nat.exists_eq_add_of_le (not_lt.mp hio)
  rw [h.name j (by omega), getD_eq_getElem _ _ (by omega)]
  intro hz
  exact s.nonzero (mem_of_getElem (UInt8.toBitVec_inj.mp hz))

/-- Whatever is in memory around the name, both versions agree. -/
theorem calculateGnuHashNeon_eq (other : ℕ → BitVec 8) (name fuel : ℕ) (s : CString) :
    calculateGnuHashNeon (stringAt other name s) (s.bytes.length / 8 + 2 + fuel) name =
      some (BitVec.ofNat 32 (calculateGnuHash s).1, BitVec.ofNat 32 (calculateGnuHash s).2) := by
  obtain ⟨base, offset, rfl, ho, hl⟩ :
      ∃ base offset, base + offset = name ∧ name % 8 = offset ∧ offset < 8 :=
    ⟨name - name % 8, name % 8, by omega, rfl, by omega⟩
  set mem := stringAt other (base + offset) s with hm
  set v : ℕ → BitVec 8 := fun i => load mem base i ||| ignoreMask offset i with hv
  have hb (i : ℕ) (hi : offset ≤ i) : v i = mem (base + i) := by
    simp [hv, ignoreMask, if_neg (not_lt.mpr hi), load]
  have hho : Holds v offset s := by
    refine ⟨fun i hi => ?_, fun i hi => ?_⟩
    · simp only [hv, ignoreMask, if_pos hi]
      exact BitVec.or_allOnes
    rw [hb _ (by omega), hm, stringAt, if_pos (by omega)]
    congr 2
    omega
  have hin : Hashed v (initAccum offset) (8 * 0) v (fun _ => 0)
      (fun j => if j = 0 then initAccum offset else 0) :=
    ⟨fun i _ => congrArg v (zero_add i).symm, by simp [value, hashTo]⟩
  obtain ⟨chunk, lo, hi, hcu, hc⟩ :=
    hashChunks_eq hho.endsAt (fun i hi => (hb i (by omega)).symm)
      (s.bytes.length / 8 + 2 + fuel) (by omega) (by omega) hin
  set n := offset + s.bytes.length
  have hvl : numValidBits chunk >>> 3 = n - 8 * (n / 8) :=
    hc.numValidBits_eq hho.endsAt (by omega) (by omega)
  have hh : finish chunk lo hi = BitVec.ofNat 32 (calculateGnuHash s).1 := by
    rw [hc.last hvl (by omega), Nat.add_sub_cancel' (by omega),
      ← hashTo_toNat s (hashTo_initAccum hl hho.front) hho.name, BitVec.ofNat_toNat,
      BitVec.setWidth_eq]
  simp only [mul_zero, add_zero] at hcu
  simp only [calculateGnuHashNeon, ho, Nat.add_sub_cancel]
  rw [hcu]
  simp only [Option.bind_eq_bind, Option.bind_some, hh, hvl]
  refine congrArg some (Prod.ext rfl ?_)
  rw [sub_add_eq_add_sub, sub_eq_iff_eq_add, ← BitVec.ofNat_add, ← BitVec.ofNat_add,
    calculateGnuHash]
  congr 1
  omega

end GnuHashNeon
