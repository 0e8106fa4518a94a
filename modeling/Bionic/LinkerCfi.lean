import Bionic.LinkerPhdr

/-! The CFI shadow: how the loader writes it and how a check reads it. A shadow is a function from
the number of a cell, an aligned range of 256 KiB, to its 16-bit value. The loader never writes a
mapped shadow: it prepares whole pages on the side and moves them into place. Addresses are 64-bit
ones, without tags. -/
namespace LinkerCfi

open WordAlign
open LinkerPhdr (PageSize)
open Nat Function

def kShadowGranularity : ℕ := 18
def kCfiCheckGranularity : ℕ := 12
def kShadowAlign : ℕ := 2 ^ kShadowGranularity
def kCfiCheckAlign : ℕ := 2 ^ kCfiCheckGranularity
def kMaxTargetAddr : ℕ := 0xffffffffffff

def kInvalidShadow : ℕ := 0
def kUncheckedShadow : ℕ := 1
def kRegularShadowMin : ℕ := 2

abbrev Shadow := ℕ → ℕ

def memToShadow (x : ℕ) : ℕ := x >>> kShadowGranularity

def pageCells (page : PageSize) : ℕ := page.bytes / 2

section
variable (page : PageSize) (shadow : Shadow) (shadowStart shadowEnd : ℕ)

def alignedStart : ℕ := alignDown (pageCells page) shadowStart

def alignedEnd : ℕ := alignUp (pageCells page) shadowEnd

/-- The constructor of `ShadowWrite`: new zero pages with the cells before and after the range
copied into them. Cells are counted from `aligned_start` on. -/
def shadowWrite : ℕ → ℕ := fun i =>
  let start := alignedStart page shadowStart
  if i < shadowStart - start ∨
    shadowEnd - start ≤ i ∧ i < alignedEnd page shadowEnd - start then shadow (start + i)
  else 0

def mremap (tmp : ℕ → ℕ) : Shadow := fun cell =>
  let start := alignedStart page shadowStart
  if start ≤ cell ∧ cell < alignedEnd page shadowEnd then tmp (cell - start) else shadow cell

def fillCells (tmp : ℕ → ℕ) (first last v : ℕ) : ℕ → ℕ := fun i =>
  if first ≤ i ∧ i < last then v else tmp i

def addConstant (first last v : ℕ) : Shadow :=
  let shadowBegin := memToShadow first
  let shadowEnd := memToShadow (last - 1) + 1
  let start := alignedStart page shadowBegin
  mremap page shadow shadowBegin shadowEnd
    (fillCells (shadowWrite page shadow shadowBegin shadowEnd) (shadowBegin - start)
      (shadowEnd - start) v)

def addUnchecked (first last : ℕ) : Shadow := addConstant page shadow first last kUncheckedShadow

def addInvalid (first last : ℕ) : Shadow := addConstant page shadow first last kInvalidShadow

def svStep : ℕ := 1 <<< (kShadowGranularity - kCfiCheckGranularity)

/-- The loop of `Add`: cells left, the next one and `sv`. -/
def addLoop (svBegin : ℕ) : ℕ → ℕ → ℕ → (ℕ → ℕ) → (ℕ → ℕ)
  | 0, _, _, tmp => tmp
  | n + 1, i, sv, tmp =>
    if sv < svBegin then
      addLoop svBegin n (i + 1) sv (fun j => if j = i then kUncheckedShadow else tmp j)
    else
      addLoop svBegin n (i + 1) ((sv + svStep) % 2 ^ 16) fun j =>
        if j = i then if tmp i = kInvalidShadow then sv else kUncheckedShadow else tmp j

/-- The first shadow value, for the cells from `first` on. -/
def svBeginOf (first cfiCheck : ℕ) : ℕ :=
  (((first + kShadowAlign - cfiCheck) >>> kCfiCheckGranularity) + kRegularShadowMin) % 2 ^ 16

/-- `CFIShadowWriter::Add`. An unaligned `cfi_check` fails a CHECK. -/
def add (first last cfiCheck : ℕ) : Option Shadow :=
  if cfiCheck % kCfiCheckAlign ≠ 0 then none
  else
    let first := alignDown kShadowAlign (max first cfiCheck)
    let shadowBegin := memToShadow first
    let shadowEnd := memToShadow (last - 1) + 1
    let start := alignedStart page shadowBegin
    let svBegin := svBeginOf first cfiCheck
    some (mremap page shadow shadowBegin shadowEnd
      (addLoop svBegin (shadowEnd - shadowBegin) (shadowBegin - start) svBegin
        (shadowWrite page shadow shadowBegin shadowEnd)))

end

/-- From the value of the cell of an address to `__cfi_check`. -/
def cfiCheckAddr (v ptr : ℕ) : ℕ :=
  let alignedAddr := alignDown kShadowAlign ptr + kShadowAlign
  (alignedAddr + (2 ^ 64 - ((v - kRegularShadowMin) <<< kCfiCheckGranularity) % 2 ^ 64)) % 2 ^ 64

variable {page : PageSize} {shadow : Shadow} {first last : ℕ}

section
variable {s e : ℕ} {tmp : ℕ → ℕ}

theorem pageCells_pos (page) : 0 < pageCells page := by
  cases page <;> decide

theorem shadowWrite_inside {i} (hs : s - alignedStart page s ≤ i)
    (he : i < e - alignedStart page s) : shadowWrite page shadow s e i = kInvalidShadow := by
  unfold shadowWrite
  rw [if_neg (by omega)]
  rfl

theorem mremap_apply (hs : s ≤ e)
    (hkp : ∀ i, ¬(s - alignedStart page s ≤ i ∧ i < e - alignedStart page s) →
      tmp i = shadowWrite page shadow s e i) (cell) : mremap page shadow s e tmp cell =
      if s ≤ cell ∧ cell < e then tmp (cell - alignedStart page s) else shadow cell := by
  have hst : alignedStart page s ≤ s := alignDown_le _ _
  have hed : e ≤ alignedEnd page e := le_alignUp (pageCells_pos page) e
  unfold mremap
  by_cases hc : s ≤ cell ∧ cell < e
  · rw [if_pos hc, if_pos (by omega)]
  rw [if_neg hc]
  by_cases hp : alignedStart page s ≤ cell ∧ cell < alignedEnd page e
  · rw [if_pos hp, hkp _ (by omega)]
    unfold shadowWrite
    rw [if_pos (by omega), Nat.add_sub_cancel' hp.1]
  · rw [if_neg hp]

theorem memToShadow_eq (x) : memToShadow x = x / 2 ^ 18 := shiftRight_eq_div_pow x 18

theorem memToShadow_mono {x y} (h : x ≤ y) : memToShadow x ≤ memToShadow y := by
  rw [memToShadow_eq, memToShadow_eq]
  exact Nat.div_le_div_right h

theorem fillCells_outside (v i)
    (h : ¬(first ≤ i ∧ i < last)) : fillCells tmp first last v i = tmp i := if_neg h

theorem addConstant_apply (h : first < last) (v cell) : addConstant page shadow first last v cell =
      if memToShadow first ≤ cell ∧ cell ≤ memToShadow (last - 1) then v else shadow cell := by
  have hl : memToShadow first ≤ memToShadow (last - 1) := memToShadow_mono (by omega)
  have hs : alignedStart page (memToShadow first) ≤ memToShadow first := alignDown_le _ _
  unfold addConstant
  rw [mremap_apply (by omega) (fillCells_outside v)]
  by_cases hc : memToShadow first ≤ cell ∧ cell ≤ memToShadow (last - 1)
  · rw [if_pos (by omega), if_pos hc, fillCells, if_pos (by omega)]
  · rw [if_neg (by omega), if_neg hc]

end

def nextSv (svBegin sv : ℕ) : ℕ := if sv < svBegin then sv else (sv + svStep) % 2 ^ 16

def cellOf (svBegin sv : ℕ) : ℕ := if sv < svBegin then kUncheckedShadow else sv

theorem addLoop_apply (svBegin n i sv) (tmp : ℕ → ℕ)
    (hz : ∀ j, i ≤ j → j < i + n → tmp j = kInvalidShadow) (j) : addLoop svBegin n i sv tmp j =
      if i ≤ j ∧ j < i + n then cellOf svBegin ((nextSv svBegin)^[j - i] sv) else tmp j := by
  induction n generalizing i sv tmp with
  | zero => rw [if_neg (by omega), addLoop]
  | succ n ih =>
    have hs : addLoop svBegin (n + 1) i sv tmp = addLoop svBegin n (i + 1) (nextSv svBegin sv)
          fun j => if j = i then cellOf svBegin sv else tmp j := by
      have hi := hz i le_rfl (by omega)
      unfold nextSv cellOf
      rw [addLoop]
      by_cases hsv : sv < svBegin
      · rw [if_pos hsv, if_pos hsv, if_pos hsv]
      · rw [if_neg hsv, if_neg hsv, if_neg hsv, if_pos hi]
    have hz' : ∀ j, i + 1 ≤ j → j < i + 1 + n →
        (if j = i then cellOf svBegin sv else tmp j) = kInvalidShadow := by
      intro j h1 h2
      rw [if_neg (by omega), hz j (by omega) (by omega)]
    rw [hs, ih _ _ _ hz']
    rcases lt_trichotomy j i with hl | rfl | hg
    · rw [if_neg (by omega), if_neg (by omega), if_neg (by omega)]
    · rw [if_neg (by omega), if_pos rfl, if_pos (by omega), Nat.sub_self, iterate_zero_apply]
    by_cases hin : j < i + (n + 1)
    · have hsb : j - i = j - (i + 1) + 1 := by omega
      rw [if_pos (by omega), if_pos (by omega), hsb, iterate_succ_apply]
    · rw [if_neg (by omega), if_neg (by omega), if_neg (by omega)]

/-- The shadow value `k` cells above that of `__cfi_check`. A first value `svBegin` below 64 comes
back after 1024 cells; from a higher one on the wrap is noticed. -/
def shadowValue (svBegin k : ℕ) : ℕ :=
  if svBegin < 64 then svBegin + 64 * (k % 1024)
  else if k < 1023 then svBegin + 64 * k
  else kUncheckedShadow

theorem svStep_eq : svStep = 64 := rfl

theorem iterate_nextSv {svBegin} (h : 3 ≤ svBegin ∧ svBegin ≤ 66) (k) :
    (nextSv svBegin)^[k] svBegin = if svBegin < 64 then svBegin + 64 * (k % 1024)
      else if k < 1023 then svBegin + 64 * k else svBegin - 64 := by
  induction k with
  | zero =>
    rw [iterate_zero_apply]
    split_ifs <;> omega
  | succ k ih =>
    rw [iterate_succ_apply', ih, nextSv, svStep_eq]
    split_ifs <;> omega

theorem cellOf_iterate {svBegin} (h : 3 ≤ svBegin ∧ svBegin ≤ 66) (k) :
    cellOf svBegin ((nextSv svBegin)^[k] svBegin) = shadowValue svBegin k := by
  rw [iterate_nextSv h, cellOf, shadowValue]
  split_ifs <;> omega

section
variable {cfiCheck : ℕ}

/-- The pages from `__cfi_check` to the end of its cell, and 2. -/
def firstValue (cfiCheck : ℕ) : ℕ := 66 - cfiCheck % 2 ^ 18 / 2 ^ 12

theorem firstValue_bounds (cfiCheck) : 3 ≤ firstValue cfiCheck ∧ firstValue cfiCheck ≤ 66 := by
  unfold firstValue
  omega

variable {k ptr : ℕ}

theorem memToShadow_alignDown (x) : memToShadow (alignDown kShadowAlign x) = memToShadow x := by
  rw [memToShadow_eq, memToShadow_eq]
  unfold alignDown kShadowAlign kShadowGranularity
  omega

/-- The value stands for every address, or leads to `__cfi_check`. -/
def Decodes (v ptr cfiCheck : ℕ) : Prop :=
  v = kUncheckedShadow ∨ kRegularShadowMin ≤ v ∧ cfiCheckAddr v ptr = cfiCheck

section
variable (han : cfiCheck % kCfiCheckAlign = 0)
include han

theorem svBeginOf_eq :
    svBeginOf (alignDown kShadowAlign cfiCheck) cfiCheck = firstValue cfiCheck := by
  unfold svBeginOf firstValue alignDown kShadowAlign kShadowGranularity kCfiCheckGranularity
  unfold kCfiCheckAlign kCfiCheckGranularity at han
  rw [shiftRight_eq_div_pow, kRegularShadowMin]
  omega

theorem cfiCheckAddr_eq {j}
    (hpr : ptr ≤ kMaxTargetAddr) (hk : memToShadow ptr = memToShadow cfiCheck + k) (hj : j ≤ k) :
    cfiCheckAddr (firstValue cfiCheck + 64 * j) ptr = cfiCheck + 2 ^ 18 * (k - j) := by
  rw [memToShadow_eq, memToShadow_eq] at hk
  unfold kCfiCheckAlign kCfiCheckGranularity at han
  unfold kMaxTargetAddr at hpr
  unfold cfiCheckAddr firstValue alignDown kShadowAlign kShadowGranularity kCfiCheckGranularity
  rw [shiftLeft_eq, kRegularShadowMin]
  dsimp only
  omega

theorem high_firstValue_iff : 64 ≤ firstValue cfiCheck ↔ cfiCheck % kShadowAlign ≤ 8192 := by
  unfold firstValue kShadowAlign kShadowGranularity
  unfold kCfiCheckAlign kCfiCheckGranularity at han
  omega

end

theorem add_apply (page) (shadow : Shadow) (han : cfiCheck % kCfiCheckAlign = 0)
    (hf : first ≤ cfiCheck) (hla : cfiCheck < last) :
    ∃ written, add page shadow first last cfiCheck = some written ∧ ∀ cell, written cell =
      if memToShadow cfiCheck ≤ cell ∧ cell ≤ memToShadow (last - 1) then
        shadowValue (firstValue cfiCheck) (cell - memToShadow cfiCheck) else shadow cell := by
  have hm : max first cfiCheck = cfiCheck := max_eq_right hf
  have hle : memToShadow cfiCheck ≤ memToShadow (last - 1) := memToShadow_mono (by omega)
  have hs : alignedStart page (memToShadow cfiCheck) ≤ memToShadow cfiCheck :=
    alignDown_le _ _
  unfold add
  rw [if_neg (not_not.mpr han), hm]
  dsimp only
  rw [memToShadow_alignDown, svBeginOf_eq han]
  refine ⟨_, rfl, fun cell => ?_⟩
  have hl := addLoop_apply (firstValue cfiCheck) (memToShadow (last - 1) + 1 - memToShadow cfiCheck)
    (memToShadow cfiCheck - alignedStart page (memToShadow cfiCheck)) (firstValue cfiCheck)
    (shadowWrite page shadow (memToShadow cfiCheck) (memToShadow (last - 1) + 1))
    fun j h1 h2 => shadowWrite_inside h1 (by omega)
  rw [mremap_apply (by omega) fun i hi => by rw [hl, if_neg (by omega)]]
  by_cases hc : memToShadow cfiCheck ≤ cell ∧ cell ≤ memToShadow (last - 1)
  · rw [if_pos (by omega), if_pos hc, hl, if_pos (by omega),
      cellOf_iterate (firstValue_bounds cfiCheck)]
    congr 1
    omega
  · rw [if_neg (by omega), if_neg hc]

theorem le_maxTargetAddr (hm : last ≤ kMaxTargetAddr + 1)
    (h : memToShadow ptr ≤ memToShadow (last - 1)) : ptr ≤ kMaxTargetAddr := by
  rw [memToShadow_eq, memToShadow_eq] at h
  unfold kMaxTargetAddr at hm ⊢
  omega

theorem shadowValue_of_high {svBegin} (h : 64 ≤ svBegin) (hk : 1023 ≤ k) :
    shadowValue svBegin k = kUncheckedShadow := by
  unfold shadowValue
  rw [if_neg (by omega), if_neg (by omega)]

section
variable (han : cfiCheck % kCfiCheckAlign = 0) (hpr : ptr ≤ kMaxTargetAddr)
include han hpr

variable (hk : memToShadow ptr = memToShadow cfiCheck + k)
include hk

theorem regular_shadowValue (hf : k < 1023 ∨ k < 1024 ∧ firstValue cfiCheck < 64) :
    kRegularShadowMin ≤ shadowValue (firstValue cfiCheck) k ∧
      cfiCheckAddr (shadowValue (firstValue cfiCheck) k) ptr = cfiCheck := by
  have hb := firstValue_bounds cfiCheck
  have hr := cfiCheckAddr_eq han hpr hk le_rfl
  rw [Nat.sub_self, mul_zero, add_zero] at hr
  have hv : shadowValue (firstValue cfiCheck) k = firstValue cfiCheck + 64 * k := by
    unfold shadowValue
    split_ifs <;> omega
  rw [hv]
  refine ⟨?_, hr⟩
  unfold kRegularShadowMin
  omega

theorem decodes_shadowValue (hf : k < 1024 ∨ 64 ≤ firstValue cfiCheck) :
    Decodes (shadowValue (firstValue cfiCheck) k) ptr cfiCheck := by
  by_cases hft : k < 1023 ∨ k < 1024 ∧ firstValue cfiCheck < 64
  · exact .inr (regular_shadowValue han hpr hk hft)
  · exact .inl (shadowValue_of_high (by omega) (by omega))

end

/-- The addresses of the library from `__cfi_check` on whose cells were free are checked by it or
not at all, no cell leads elsewhere, and nothing else changes. -/
structure AddSound (shadow written : Shadow) (last cfiCheck : ℕ) : Prop where
  free : ∀ ptr, cfiCheck ≤ ptr → ptr < last → shadow (memToShadow ptr) = kInvalidShadow →
    Decodes (written (memToShadow ptr)) ptr cfiCheck
  filled : ∀ ptr, memToShadow cfiCheck ≤ memToShadow ptr →
    memToShadow ptr ≤ memToShadow (last - 1) → Decodes (written (memToShadow ptr)) ptr cfiCheck
  others : ∀ cell, ¬(memToShadow cfiCheck ≤ cell ∧ cell ≤ memToShadow (last - 1)) →
    written cell = shadow cell

/-- `Add` is right for the libraries with at most 1024 cells from that of `__cfi_check` on, and for
those with `__cfi_check` on one of the first three pages of its cell. -/
theorem add_sound_iff {written : Shadow} (han : cfiCheck % kCfiCheckAlign = 0)
    (hfirst : first ≤ cfiCheck) (hlast : cfiCheck < last) (hmax : last ≤ kMaxTargetAddr + 1)
    (hadd : add page shadow first last cfiCheck = some written) :
    AddSound shadow written last cfiCheck ↔
      memToShadow (last - 1) < memToShadow cfiCheck + 1024 ∨ cfiCheck % kShadowAlign ≤ 8192 := by
  obtain ⟨_, ha', ha⟩ := add_apply page shadow han hfirst hlast
  cases hadd.symm.trans ha'
  rw [← high_firstValue_iff han]
  constructor
  · intro hs
    by_contra hn
    rw [not_or, not_lt, not_le] at hn
    obtain ⟨hm, hsa⟩ := hn
    obtain ⟨ptr, hpr⟩ : ∃ ptr, memToShadow ptr = memToShadow cfiCheck + 1024 :=
      ⟨(memToShadow cfiCheck + 1024) * 2 ^ 18, by
        rw [memToShadow_eq, Nat.mul_div_cancel _ (by decide)]⟩
    have hh : memToShadow ptr ≤ memToShadow (last - 1) := hpr.le.trans hm
    have hd := hs.filled ptr (by omega) hh
    rw [ha, hpr, if_pos ⟨by omega, hm⟩, Nat.add_sub_cancel_left] at hd
    have hb := firstValue_bounds cfiCheck
    have hwo := cfiCheckAddr_eq han (le_maxTargetAddr hmax hh) hpr (zero_le 1024)
    rw [shadowValue, if_pos hsa] at hd
    rcases hd with h | ⟨-, h⟩
    · unfold kUncheckedShadow at h
      omega
    · rw [hwo] at h
      omega
  · intro hf
    have hw : ∀ ptr, memToShadow cfiCheck ≤ memToShadow ptr →
        memToShadow ptr ≤ memToShadow (last - 1) →
          Decodes (written (memToShadow ptr)) ptr cfiCheck := by
      intro ptr hl hh
      rw [ha, if_pos ⟨hl, hh⟩]
      exact decodes_shadowValue han (le_maxTargetAddr hmax hh) (by omega) (by omega)
    refine ⟨?_, hw, ?_⟩
    · intro ptr hl hh _
      exact hw ptr (memToShadow_mono hl) (memToShadow_mono (by omega))
    · intro cell hc
      rw [ha, if_neg hc]

end

/-- A library of 1025 cells with `__cfi_check` on the fourth page: the value comes back in the last
cell, and addresses there lead 256 MiB above `__cfi_check`. -/
theorem wrap_is_missed :
    ∃ written, add .k4 (fun _ => kInvalidShadow) (2 ^ 40) (2 ^ 40 + 2 ^ 28 + 2 ^ 18)
        (2 ^ 40 + 0x3000) = some written ∧ written (memToShadow (2 ^ 40 + 2 ^ 28)) = 63 ∧
      cfiCheckAddr 63 (2 ^ 40 + 2 ^ 28) = 2 ^ 40 + 0x3000 + 2 ^ 28 := by
  obtain ⟨written, ha, hap⟩ := add_apply .k4 (fun _ => kInvalidShadow)
    (by decide : (2 ^ 40 + 0x3000) % kCfiCheckAlign = 0) (by decide : 2 ^ 40 ≤ 2 ^ 40 + 0x3000)
    (by decide : 2 ^ 40 + 0x3000 < 2 ^ 40 + 2 ^ 28 + 2 ^ 18)
  refine ⟨written, ha, ?_, by decide⟩
  rw [hap]
  decide

theorem add_sound_iff_four_cells :
    ∃ written, add .k4 (fun _ => kInvalidShadow) (2 ^ 40) (2 ^ 40 + 2 ^ 20) (2 ^ 40 + 0x3000) =
        some written ∧
      AddSound (fun _ => kInvalidShadow) written (2 ^ 40 + 2 ^ 20) (2 ^ 40 + 0x3000) := by
  obtain ⟨written, ha, -⟩ := add_apply .k4 (fun _ => kInvalidShadow)
    (by decide : (2 ^ 40 + 0x3000) % kCfiCheckAlign = 0) (by decide : 2 ^ 40 ≤ 2 ^ 40 + 0x3000)
    (by decide : 2 ^ 40 + 0x3000 < 2 ^ 40 + 2 ^ 20)
  exact ⟨written, ha, (add_sound_iff (by decide) (by decide) (by decide) (by decide) ha).mpr
    (.inl (by decide))⟩

end LinkerCfi
