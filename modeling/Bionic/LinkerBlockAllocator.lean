import Bionic.FreeRuns
import Bionic.WordAlign

/-! The linker's allocator of blocks of one size, linker_block_allocator.cpp. Pages, free runs and
blocks are in a memory of bytes, the kernel maps fresh pages of zeros, and the blocks that are
handed out are written by their owners. The list of live blocks is a ghost. -/
namespace LinkerBlockAllocator
open ByteMemory FreeRuns WordAlign
open List Nat Abi

def kMaxPageSize : ℕ := 65536
def kAllocateSize : ℕ := kMaxPageSize * 6

/-- Where `bytes` is in a page, after `next` and its padding. -/
def offsetofBytes : ℕ := 16
def sizeofBytes : ℕ := kAllocateSize - 16

def kBlockSizeAlign (a : Abi) : ℕ := a.word
def kBlockSizeMin (a : Abi) : ℕ := a.word * 2

def blockSizeOf (a : Abi) (blockSize : ℕ) : ℕ :=
  alignDown (kBlockSizeAlign a)
    ((max blockSize (kBlockSizeMin a) + (kBlockSizeAlign a - 1)) % a.sizes)

structure State where
  mem : Memory
  /-- The pages that the kernel has mapped for the allocator, the last one first. -/
  mapped : List ℕ
  pageList : ℕ
  freeBlockList : ℕ
  allocated : ℕ
  live : List ℕ

def initial (mem : Memory) : State := ⟨mem, [], 0, 0, 0, []⟩

inductive Stop where
  | mapFailed
  | divideByZero
  | noPage
  | badOffset
  | unending
  deriving DecidableEq

def initPage (a : Abi) (blockSize page : ℕ) (s : State) : State :=
  let mem := fill s.mem page kAllocateSize 0
  let firstBlock := page + offsetofBytes
  let mem := store mem a.word firstBlock s.freeBlockList
  let mem := store mem a.word (firstBlock + a.word) (sizeofBytes / blockSize)
  let mem := store mem a.word page s.pageList
  { s with mem := mem, mapped := page :: s.mapped, freeBlockList := firstBlock, pageList := page }

def createNewPage (a : Abi) (blockSize : ℕ) (mmap : Option ℕ) (s : State) : Except Stop State :=
  match mmap with
  | none => .error .mapFailed
  | some page =>
    if blockSize = 0 then .error .divideByZero else .ok (initPage a blockSize page s)

/-- The second block of the run becomes the first of a shorter one. -/
def splitRun (a : Abi) (blockSize blockInfo : ℕ) (mem : Memory) : Memory :=
  let nextBlockInfo := blockInfo + blockSize
  let mem := store mem a.word nextBlockInfo (load mem a.word blockInfo)
  store mem a.word (nextBlockInfo + a.word) (a.pred (load mem a.word (blockInfo + a.word)))

/-- `alloc` after its first test. -/
def unlinkBlock (a : Abi) (blockSize : ℕ) (s : State) : State :=
  let blockInfo := s.freeBlockList
  if 1 < load s.mem a.word (blockInfo + a.word) then
    { s with
      mem := splitRun a blockSize blockInfo s.mem, freeBlockList := blockInfo + blockSize }
  else { s with freeBlockList := load s.mem a.word blockInfo }

/-- The rest of `alloc`. -/
def handOut (a : Abi) (blockSize block : ℕ) (s : State) : State :=
  { s with
    mem := fill s.mem block blockSize 0, allocated := (s.allocated + 1) % a.sizes,
    live := block :: s.live }

def takeBlock (a : Abi) (blockSize : ℕ) (s : State) : State :=
  handOut a blockSize s.freeBlockList (unlinkBlock a blockSize s)

def alloc (a : Abi) (blockSize : ℕ) (mmap : Option ℕ) (s : State) : Except Stop State :=
  if s.freeBlockList = 0 then (createNewPage a blockSize mmap s).map (takeBlock a blockSize)
  else .ok (takeBlock a blockSize s)

def findPage (a : Abi) (mem : Memory) (block : ℕ) : ℕ → ℕ → Except Stop ℕ
  | 0, _ => .error .unending
  | fuel + 1, page =>
    if page = 0 then .error .noPage
    else if page + a.word ≤ block ∧ block < page + kAllocateSize then .ok page
    else findPage a mem block fuel (load mem a.word page)

/-- `block - page->bytes`, as the `size_t` that it is divided as. -/
def offsetIn (a : Abi) (page block : ℕ) : ℕ :=
  (block + (a.sizes - (page + offsetofBytes))) % a.sizes

def singleRun (a : Abi) (blockSize block next : ℕ) (mem : Memory) : Memory :=
  let mem := fill mem block blockSize 0
  let mem := store mem a.word block next
  store mem a.word (block + a.word) 1

/-- `free` after its checks. -/
def pushBlock (a : Abi) (blockSize block : ℕ) (s : State) : State :=
  { s with
    mem := singleRun a blockSize block s.freeBlockList s.mem, freeBlockList := block,
    allocated := a.pred s.allocated, live := s.live.erase block }

def free (a : Abi) (blockSize block : ℕ) (s : State) : Except Stop State :=
  if block = 0 then .ok s
  else
    match findPage a s.mem block (s.mapped.length + 1) s.pageList with
    | .error e => .error e
    | .ok page =>
      if blockSize = 0 then .error .divideByZero
      else if offsetIn a page block % blockSize ≠ 0 then .error .badOffset
      else .ok (pushBlock a blockSize block s)

/-- The loop of `purge`: the pages that are mapped after it. -/
def unmapPages (a : Abi) (mem : Memory) : ℕ → ℕ → List ℕ → Except Stop (List ℕ)
  | 0, _, _ => .error .unending
  | fuel + 1, page, mapped =>
    if page = 0 then .ok mapped
    else unmapPages a mem fuel (load mem a.word page) (mapped.erase page)

def purge (a : Abi) (s : State) : Except Stop State :=
  if s.allocated ≠ 0 then .ok s
  else (unmapPages a s.mem (s.mapped.length + 1) s.pageList s.mapped).map fun mapped =>
    { s with mapped := mapped, pageList := 0, freeBlockList := 0 }

inductive Op where
  | alloc (mmap : Option ℕ)
  | free (block : ℕ)
  | purge
  /-- The owner of a block writes a byte of it. -/
  | write (x : ℕ) (b : Byte)

def apply (a : Abi) (blockSize : ℕ) (s : State) : Op → Except Stop State
  | .alloc mmap => alloc a blockSize mmap s
  | .free block => free a blockSize block s
  | .purge => purge a s
  | .write x b => .ok { s with mem := fill s.mem x 1 b }

/-- What `mmap` may answer: in user space, on a page boundary, away from the others. -/
structure Fresh (a : Abi) (s : State) (page : ℕ) : Prop where
  ne_zero : page ≠ 0
  aligned : 4096 ∣ page
  below : page + kAllocateSize ≤ a.sizes
  apart : ∀ p ∈ s.mapped, Apart kAllocateSize page p

/-- Pointers are null or live, and owners write their own blocks. -/
def Valid (a : Abi) (blockSize : ℕ) (s : State) : Op → Prop
  | .alloc mmap => ∀ page, mmap = some page → Fresh a s page
  | .free block => block = 0 ∨ block ∈ s.live
  | .purge => True
  | .write x _ => ∃ block ∈ s.live, block ≤ x ∧ x < block + blockSize

inductive Reachable (a : Abi) (blockSize : ℕ) : State → Prop where
  | initial (mem : Memory) : Reachable a blockSize (initial mem)
  | step {s s' : State} {op : Op} : Reachable a blockSize s → Valid a blockSize s op →
      apply a blockSize s op = .ok s' → Reachable a blockSize s'

def usable (blockSize page : ℕ) : Run := (page + offsetofBytes, sizeofBytes / blockSize)

/-- Free and live blocks tile the pages, and the live ones are counted. -/
structure Sound (a : Abi) (blockSize : ℕ) (s : State) (runs : List Run) : Prop where
  holds : Holds s.mem a.word s.freeBlockList runs
  disjoint : (blocksOf blockSize runs ++ s.live).Pairwise (Apart blockSize)
  tile : ∀ y, (∃ b ∈ blocksOf blockSize runs ++ s.live, b ≤ y ∧ y < b + blockSize) ↔
    ∃ page ∈ s.mapped, page + offsetofBytes ≤ y ∧
      y < page + offsetofBytes + sizeofBytes / blockSize * blockSize
  counted : s.allocated = s.live.length

/-- The call returns, unless `mmap` fails; a block it returns is new, aligned and zero; pages are
released only when no block is live. -/
def Answered (a : Abi) (blockSize : ℕ) (s : State) (op : Op) : Prop :=
  (op = .alloc none ∧ apply a blockSize s op = .error .mapFailed) ∨
  ∃ s', apply a blockSize s op = .ok s' ∧ (∀ page ∈ s.mapped, page ∈ s'.mapped ∨ s.live = []) ∧
    ∀ mmap, op = .alloc mmap → ∃ block, s'.live = block :: s.live ∧ block ∉ s.live ∧
      kBlockSizeAlign a ∣ block ∧ ∀ y, block ≤ y → y < block + blockSize → s'.mem y = 0

variable {a : Abi} {blockSize : ℕ}

structure Fits (a : Abi) (blockSize : ℕ) : Prop where
  min : kBlockSizeMin a ≤ blockSize
  aligned : kBlockSizeAlign a ∣ blockSize
  max : blockSize ≤ sizeofBytes

theorem Fits.pos (h : Fits a blockSize) : 0 < blockSize := by
  have hm := h.min
  have hw := word_cases a
  rw [kBlockSizeMin] at hm
  omega

theorem word_dvd_sizeofBytes (a : Abi) : a.word ∣ sizeofBytes := by
  cases a <;> decide

theorem fits_blockSizeOf (h : blockSize ≤ sizeofBytes) : Fits a (blockSizeOf a blockSize) := by
  have hs := lt_sizes a
  have hwd := word_cases a
  have hbs : sizeofBytes = 393200 := rfl
  have hw : (max blockSize (a.word * 2) + (a.word - 1)) % a.sizes =
      max blockSize (a.word * 2) + (a.word - 1) := mod_eq_of_lt (by omega)
  have hsz : blockSizeOf a blockSize = alignUp a.word (max blockSize (a.word * 2)) := by
    rw [blockSizeOf, kBlockSizeAlign, kBlockSizeMin, hw, alignUp]
  have hp : 0 < a.word := by omega
  refine ⟨?_, ?_, ?_⟩
  · rw [hsz, kBlockSizeMin]
    exact (le_max_right _ _).trans (le_alignUp hp _)
  · rw [hsz]
    exact dvd_alignUp a.word _
  · rw [hsz, alignUp_le_iff hp (word_dvd_sizeofBytes a)]
    omega

theorem blockSizeOf_of_lt (h : sizeofBytes < blockSize) (hl : blockSize < a.sizes) :
    blockSizeOf a blockSize = 0 ∨ sizeofBytes < blockSizeOf a blockSize := by
  have hwd := word_cases a
  have hbs : sizeofBytes = 393200 := rfl
  have hm : max blockSize (a.word * 2) = blockSize := by omega
  rw [blockSizeOf, kBlockSizeAlign, kBlockSizeMin, hm]
  rcases lt_or_ge (blockSize + (a.word - 1)) a.sizes with hs | hs
  · right
    rw [mod_eq_of_lt hs]
    exact h.trans_le (le_alignUp (by omega) blockSize)
  left
  have hw : (blockSize + (a.word - 1)) % a.sizes = blockSize + (a.word - 1) - a.sizes := by
    rw [mod_eq_sub_mod hs, mod_eq_of_lt (by omega)]
  rw [hw, alignDown, mod_eq_of_lt (by omega), Nat.sub_self]

/-- The pages are linked from the last one on; the free runs with the live blocks are their blocks
in some order. -/
structure Inv (a : Abi) (blockSize : ℕ) (s : State) (runs : List Run) : Prop where
  chain : Chain (load s.mem a.word) s.pageList s.mapped
  holds : Holds s.mem a.word s.freeBlockList runs
  pos : ∀ r ∈ runs, 0 < r.2
  tiles : (blocksOf blockSize runs ++ s.live).Perm
    (blocksOf blockSize (s.mapped.map (usable blockSize)))
  aligned : ∀ page ∈ s.mapped, 4096 ∣ page
  below : ∀ page ∈ s.mapped, page + kAllocateSize ≤ a.sizes
  apart : s.mapped.Pairwise (Apart kAllocateSize)
  counted : s.allocated = s.live.length

section
variable {b page : ℕ} {s : State} {runs : List Run}

theorem bounds_of_mem_usable (h : b ∈ blocks blockSize (usable blockSize page).1
    (usable blockSize page).2) :
    page + offsetofBytes ≤ b ∧ b + blockSize ≤ page + kAllocateSize := by
  have hbs := bounds_of_mem_blocks h
  have hl := div_mul_le_self sizeofBytes blockSize
  have hbt : offsetofBytes + sizeofBytes = kAllocateSize := rfl
  simp only [usable] at hbs
  omega

theorem pageBlocks_pairwise {pages : List ℕ} (h : pages.Pairwise (Apart kAllocateSize)) :
    (blocksOf blockSize (pages.map (usable blockSize))).Pairwise (Apart blockSize) := by
  induction pages with
  | nil => exact List.Pairwise.nil
  | cons page pages ih =>
    obtain ⟨hpg, hp⟩ := pairwise_cons.mp h
    rw [map_cons, blocksOf_cons, pairwise_append]
    refine ⟨blocks_pairwise _ _ _, ih hp, ?_⟩
    intro b hb c hc
    obtain ⟨r, hr, hc⟩ := List.mem_flatMap.mp hc
    obtain ⟨page', hpg', rfl⟩ := List.mem_map.mp hr
    have hbb := bounds_of_mem_usable hb
    have hcc := bounds_of_mem_usable hc
    have ha := hpg page' hpg'
    rw [Apart] at ha ⊢
    omega

variable {x n head : ℕ} {rest : List Run} {pages : List ℕ} {m : Memory} {p fuel : ℕ}

theorem sameOutside_initPage (a blockSize page s) :
    SameOutside s.mem (initPage a blockSize page s).mem page kAllocateSize := by
  have hw := word_cases a
  have ho : offsetofBytes = 16 := rfl
  have hs : kAllocateSize = 393216 := rfl
  have hf := sameOutside_fill s.mem page kAllocateSize 0
  have hn := hf.store (k := a.word) (y := page + offsetofBytes) s.freeBlockList
    (by omega) (by omega)
  have hc := hn.store (k := a.word) (y := page + offsetofBytes + a.word)
    (sizeofBytes / blockSize) (by omega) (by omega)
  exact hc.store s.pageList (le_refl page) (by omega)

theorem load_initPage (blockSize page) (hl : s.pageList < a.sizes)
    (hf : s.freeBlockList < a.sizes) :
    load (initPage a blockSize page s).mem a.word page = s.pageList ∧
    load (initPage a blockSize page s).mem a.word (page + offsetofBytes) = s.freeBlockList ∧
    load (initPage a blockSize page s).mem a.word (page + offsetofBytes + a.word) =
      sizeofBytes / blockSize := by
  have hw := word_cases a
  have ho : offsetofBytes = 16 := rfl
  have hc : sizeofBytes / blockSize < a.sizes := by
    have hle := div_le_self sizeofBytes blockSize
    have hbs : sizeofBytes = 393200 := rfl
    have := lt_sizes a
    omega
  refine ⟨load_store hl, ?_, ?_⟩
  · rw [initPage, (sameOutside_store _ _ _ _).load_eq (by omega),
      (sameOutside_store _ _ _ _).load_eq (by omega)]
    exact load_store hf
  · rw [initPage, (sameOutside_store _ _ _ _).load_eq (by omega)]
    exact load_store hc

theorem findPage_eq (hf : pages.length < fuel)
    (hc : Chain (load m a.word) p pages) (hap : pages.Pairwise (Apart kAllocateSize))
    (hpg : page ∈ pages) (hb : page + a.word ≤ b ∧ b < page + kAllocateSize) :
    findPage a m b fuel p = .ok page := by
  induction pages generalizing p fuel with
  | nil => cases hpg
  | cons x xs ih =>
    obtain ⟨rfl, hp, hx⟩ := hc
    obtain ⟨fuel, rfl⟩ : ∃ k, fuel = k + 1 := exists_eq_succ_of_ne_zero (by omega)
    rw [findPage, if_neg hp]
    by_cases heq : page = p
    · subst heq
      rw [if_pos hb]
    have hm := (List.mem_cons.mp hpg).resolve_left heq
    have ha := (pairwise_cons.mp hap).1 page hm
    rw [Apart] at ha
    rw [if_neg (by omega)]
    rw [length_cons] at hf
    exact ih (by omega) hx (pairwise_cons.mp hap).2 hm

theorem offsetIn_mod (hbl : page + kAllocateSize ≤ a.sizes)
    (hb : b ∈ blocks blockSize (usable blockSize page).1 (usable blockSize page).2) :
    offsetIn a page b % blockSize = 0 := by
  have hbs := bounds_of_mem_usable hb
  have hsz : kAllocateSize = 393216 := rfl
  have ho : offsetofBytes = 16 := rfl
  obtain ⟨k, -, rfl⟩ := mem_blocks.mp hb
  have hs : (usable blockSize page).1 + k * blockSize + (a.sizes - (page + offsetofBytes)) =
      k * blockSize + a.sizes := by
    simp only [usable]
    omega
  have hl : k * blockSize < a.sizes := by
    omega
  rw [offsetIn, hs, add_mod_right, mod_eq_of_lt hl, mul_mod_left]

theorem load_singleRun (blockSize b m) (hh : head < a.sizes) :
    load (singleRun a blockSize b head m) a.word b = head ∧
    load (singleRun a blockSize b head m) a.word (b + a.word) = 1 := by
  have ho : 1 < a.sizes := by
    have := lt_sizes a
    omega
  constructor
  · rw [singleRun, (sameOutside_store _ _ _ _).load_eq (.inl le_rfl)]
    exact load_store hh
  · exact load_store ho

theorem unmapPages_eq (hf : pages.length < fuel)
    (hc : Chain (load m a.word) p pages) : unmapPages a m fuel p pages = .ok [] := by
  induction pages generalizing p fuel with
  | nil =>
    obtain ⟨fuel, rfl⟩ : ∃ k, fuel = k + 1 := exists_eq_succ_of_ne_zero (by omega)
    have h0 : p = 0 := hc
    rw [unmapPages, if_pos h0]
  | cons x xs ih =>
    obtain ⟨rfl, hp, hx⟩ := hc
    obtain ⟨fuel, rfl⟩ : ∃ k, fuel = k + 1 := exists_eq_succ_of_ne_zero (by omega)
    rw [length_cons] at hf
    rw [unmapPages, if_neg hp, erase_cons_head]
    exact ih (by omega) hx

theorem unlinkBlock_live (a blockSize s) : (unlinkBlock a blockSize s).live = s.live := by
  rw [unlinkBlock]
  split <;> rfl

theorem unlinkBlock_mapped (a blockSize s) : (unlinkBlock a blockSize s).mapped = s.mapped := by
  rw [unlinkBlock]
  split <;> rfl

section
variable (h : Inv a blockSize s runs)
include h

theorem Inv.disjoint : (blocksOf blockSize runs ++ s.live).Pairwise (Apart blockSize) :=
  (h.tiles.pairwise_iff Apart.symm).mpr (pageBlocks_pairwise h.apart)

section
variable (hb : b ∈ blocksOf blockSize runs ++ s.live)
include hb

theorem Inv.exists_page : ∃ page ∈ s.mapped,
      b ∈ blocks blockSize (usable blockSize page).1 (usable blockSize page).2 := by
  obtain ⟨r, hr, hb⟩ := List.mem_flatMap.mp (h.tiles.mem_iff.mp hb)
  obtain ⟨page, hp, rfl⟩ := List.mem_map.mp hr
  exact ⟨page, hp, hb⟩

theorem Inv.ne_zero : b ≠ 0 := by
  obtain ⟨page, -, hb⟩ := h.exists_page hb
  have hbs := bounds_of_mem_usable hb
  have ho : offsetofBytes = 16 := rfl
  omega

theorem Inv.away_from_page (hp : page ∈ s.mapped) : page + a.word ≤ b ∨ b + blockSize ≤ page := by
  obtain ⟨page', hp', hb⟩ := h.exists_page hb
  have hbs := bounds_of_mem_usable hb
  have hw := word_cases a
  have ho : offsetofBytes = 16 := rfl
  by_cases heq : page = page'
  · subst heq
    omega
  have ha := h.apart.forall hp hp' heq
  rw [Apart] at ha
  omega

end

theorem Inv.frame {y k} (hm : SameOutside s.mem m y k)
    (hp : ∀ page ∈ s.mapped, page + a.word ≤ y ∨ y + k ≤ page)
    (hr : ∀ r ∈ runs, r.1 + (a.word + a.word) ≤ y ∨ y + k ≤ r.1) :
    Inv a blockSize { s with mem := m } runs where
  chain := h.chain.congr fun page hpg => hm.load_eq (hp page hpg)
  holds := h.holds.frame hm hr
  pos := h.pos
  tiles := h.tiles
  aligned := h.aligned
  below := h.below
  apart := h.apart
  counted := h.counted

theorem Inv.pageList_lt : s.pageList < a.sizes := by
  have hs := lt_sizes a
  have hc := h.chain
  have hbl := h.below
  have hsz : kAllocateSize = 393216 := rfl
  cases hp : s.mapped with
  | nil =>
    rw [hp] at hc
    have h0 : s.pageList = 0 := hc
    omega
  | cons page pages =>
    rw [hp] at hc hbl
    have h0 : s.pageList = page := hc.1
    have := hbl page mem_cons_self
    omega

theorem Inv.purge : (s.live ≠ [] ∧ purge a s = .ok s) ∨ (s.live = [] ∧
      purge a s = .ok { s with mapped := [], pageList := 0, freeBlockList := 0 }) := by
  have hc := h.counted
  by_cases hlv : s.live = []
  · right
    rw [hlv, length_nil] at hc
    refine ⟨hlv, ?_⟩
    rw [LinkerBlockAllocator.purge, if_neg (not_not.mpr hc), unmapPages_eq (lt_succ_self _) h.chain]
    rfl
  · left
    have hl := List.length_pos_iff.mpr hlv
    refine ⟨hlv, ?_⟩
    rw [LinkerBlockAllocator.purge, if_pos (by omega)]

theorem Inv.sound : Sound a blockSize s runs := by
  refine ⟨h.holds, h.disjoint, fun y => ?_, h.counted⟩
  constructor
  · rintro ⟨b, hb, hy⟩
    obtain ⟨page, hp, hbk⟩ := h.exists_page hb
    exact ⟨page, hp, (covered_blocks_iff _ _ _ y).mp ⟨b, hbk, hy⟩⟩
  rintro ⟨page, hp, hy⟩
  obtain ⟨b, hbk, hby⟩ := (covered_blocks_iff blockSize _ _ y).mpr hy
  refine ⟨b, h.tiles.mem_iff.mpr (List.mem_flatMap.mpr ?_), hby⟩
  exact ⟨usable blockSize page, mem_map_of_mem hp, hbk⟩

end

section
variable (hft : Fits a blockSize)
include hft

section
variable (h : Inv a blockSize s runs)
include h

theorem Inv.live_length_lt : (blocksOf blockSize runs ++ s.live).length < a.sizes := by
  have hn : (0 :: (blocksOf blockSize runs ++ s.live)).Nodup := by
    refine List.nodup_cons.mpr ⟨?_, h.disjoint.imp fun ha => ha.ne hft.pos⟩
    exact fun h0 => h.ne_zero h0 rfl
  have hs : 0 :: (blocksOf blockSize runs ++ s.live) ⊆ range a.sizes := by
    intro b hb
    rw [mem_range]
    rcases List.mem_cons.mp hb with rfl | hb
    · have := lt_sizes a
      omega
    obtain ⟨page, hpg, hb⟩ := h.exists_page hb
    have hbs := bounds_of_mem_usable hb
    have hbl := h.below page hpg
    have hp := hft.pos
    omega
  have hl := (subperm_of_subset hn hs).length_le
  rw [length_cons, length_range] at hl
  omega

theorem Inv.frame_block (hb : b ∈ blocksOf blockSize runs ++ s.live)
    (hh : ∀ r ∈ runs, r.1 ≠ b)
    (hm : SameOutside s.mem m b blockSize) : Inv a blockSize { s with mem := m } runs := by
  refine h.frame hm (fun page hp => h.away_from_page hb hp) fun r hr => ?_
  have hr' : r.1 ∈ blocksOf blockSize runs := fst_mem_blocksOf hr (h.pos r hr)
  have ha := h.disjoint.forall (mem_append_left s.live hr') hb (hh r hr)
  have hmn := hft.min
  rw [kBlockSizeMin] at hmn
  rw [Apart] at ha
  omega

theorem Inv.live_not_head (hb : b ∈ s.live) : ∀ r ∈ runs, r.1 ≠ b := by
  intro r hr
  have hc := (pairwise_append.mp h.disjoint).2.2
  exact (hc r.1 (fst_mem_blocksOf hr (h.pos r hr)) b hb).ne hft.pos

end

theorem Inv.initPage (h : Inv a blockSize s []) (hf : Fresh a s page) :
    Inv a blockSize (initPage a blockSize page s) [usable blockSize page] := by
  have hfe : s.freeBlockList = 0 := h.holds.chain
  have hs := lt_sizes a
  have hw := word_cases a
  have hsz : kAllocateSize = 393216 := rfl
  have hsm := sameOutside_initPage a blockSize page s
  obtain ⟨hpg, hn, hc⟩ := load_initPage blockSize page h.pageList_lt (by omega)
  constructor
  · refine ⟨rfl, hf.ne_zero, ?_⟩
    rw [hpg]
    refine h.chain.congr fun p hp => hsm.load_eq ?_
    have ha := hf.apart p hp
    rw [Apart] at ha
    omega
  · exact (Holds.nil _ _).cons (Nat.add_pos_right page (by decide)).ne' (hn.trans hfe) hc
  · intro r hr
    rw [List.mem_singleton.mp hr]
    exact div_pos hft.max hft.pos
  · rw [LinkerBlockAllocator.initPage, map_cons, blocksOf_cons, blocksOf_cons, blocksOf_nil,
      append_nil]
    exact h.tiles.append_left _
  · exact forall_mem_cons.mpr ⟨hf.aligned, h.aligned⟩
  · exact forall_mem_cons.mpr ⟨hf.below, h.below⟩
  · exact pairwise_cons.mpr ⟨hf.apart, h.apart⟩
  · exact h.counted

theorem Inv.handOut (h : Inv a blockSize s ((x, n + 1) :: rest))
    (hh : Holds s.mem a.word head runs) (hp : ∀ r ∈ runs, 0 < r.2)
    (hr : blocksOf blockSize runs = blocks blockSize (x + blockSize) n ++ blocksOf blockSize rest) :
    Inv a blockSize (handOut a blockSize x { s with freeBlockList := head }) runs := by
  have hl := h.live_length_lt hft
  have hc : (s.allocated + 1) % a.sizes = s.live.length + 1 := by
    rw [blocksOf_cons, length_append, length_append, blocks, length_cons] at hl
    rw [h.counted, mod_eq_of_lt (by omega)]
  have ht : (blocksOf blockSize runs ++ x :: s.live).Perm
      (blocksOf blockSize (s.mapped.map (usable blockSize))) := by
    refine List.perm_middle.trans ?_
    rw [hr]
    exact h.tiles
  have ho : Inv a blockSize { s with
      freeBlockList := head, allocated := (s.allocated + 1) % a.sizes, live := x :: s.live } runs :=
    ⟨h.chain, hh, hp, ht, h.aligned, h.below, h.apart, hc⟩
  have hx : x ∈ x :: s.live := mem_cons_self
  exact ho.frame_block hft (mem_append_right _ hx) (ho.live_not_head hft hx)
    (sameOutside_fill s.mem x blockSize 0)

theorem sameOutside_splitRun (x m) :
    SameOutside m (splitRun a blockSize x m) (x + blockSize) blockSize := by
  have hm := hft.min
  rw [kBlockSizeMin] at hm
  have hn := (SameOutside.refl m (x + blockSize) blockSize).store (k := a.word)
    (load m a.word x) (le_refl (x + blockSize)) (by omega)
  exact hn.store _ (by omega) (by omega)

theorem load_splitRun (hc : load m a.word (x + a.word) = n + 2) :
    load (splitRun a blockSize x m) a.word (x + blockSize) = load m a.word x ∧
    load (splitRun a blockSize x m) a.word (x + blockSize + a.word) = n + 1 := by
  have hm := hft.min
  rw [kBlockSizeMin] at hm
  have hn : n + 2 < a.sizes := hc ▸ load_lt m a.word (x + a.word)
  have hr : load (store m a.word (x + blockSize) (load m a.word x)) a.word (x + a.word) =
      n + 2 := by
    rw [(sameOutside_store _ _ _ _).load_eq (by omega), hc]
  constructor
  · rw [splitRun, (sameOutside_store _ _ _ _).load_eq (by omega)]
    exact load_store (load_lt m a.word x)
  · rw [splitRun, hr, pred_of_pos (by omega) hn]
    exact load_store (by rw [← Abi.sizes]; omega)

theorem Inv.second_not_head (h : Inv a blockSize s ((x, n + 2) :: rest)) :
    ∀ r ∈ (x, n + 2) :: rest, r.1 ≠ x + blockSize := by
  have hp := hft.pos
  refine forall_mem_cons.mpr ⟨by dsimp only; omega, fun r hr => ?_⟩
  have hf := (pairwise_append.mp h.disjoint).1
  rw [blocksOf_cons, pairwise_append] at hf
  have hs : x + blockSize ∈ blocks blockSize x (n + 2) :=
    mem_cons_of_mem x mem_cons_self
  have hr' : r.1 ∈ blocksOf blockSize rest :=
    fst_mem_blocksOf hr (h.pos r (mem_cons_of_mem _ hr))
  exact (hf.2.2 _ hs r.1 hr').symm.ne hp

theorem Inv.takeBlock (h : Inv a blockSize s ((x, n) :: rest)) :
    ∃ runs, Inv a blockSize (takeBlock a blockSize s) runs := by
  have hf : s.freeBlockList = x := h.holds.chain.1
  have hc : load s.mem a.word (x + a.word) = n := h.holds.count _ mem_cons_self
  have hrs : ∀ r ∈ rest, 0 < r.2 := fun r hr => h.pos r (mem_cons_of_mem _ hr)
  obtain ⟨k, rfl⟩ : ∃ k, n = k + 1 := exists_eq_succ_of_ne_zero (h.pos _ mem_cons_self).ne'
  rw [LinkerBlockAllocator.takeBlock, unlinkBlock, hf]
  cases k with
  | zero =>
    rw [if_neg (by omega)]
    exact ⟨rest, h.handOut hft h.holds.tail hrs rfl⟩
  | succ k =>
    rw [if_pos (by omega)]
    have hsd : x + blockSize ∈ blocksOf blockSize ((x, k + 2) :: rest) :=
      mem_append_left _ (mem_cons_of_mem x mem_cons_self)
    have hs := h.frame_block hft (mem_append_left s.live hsd)
      (h.second_not_head hft) (sameOutside_splitRun hft x s.mem)
    obtain ⟨hn, hc'⟩ := load_splitRun hft hc
    have hx : load (splitRun a blockSize x s.mem) a.word x = load s.mem a.word x := by
      refine (sameOutside_splitRun hft x s.mem).load_eq (.inl ?_)
      have hm := hft.min
      rw [kBlockSizeMin] at hm
      omega
    have hp := hft.pos
    have hh := hs.holds.tail.cons (by omega) (hn.trans hx.symm) hc'
    refine ⟨_, hs.handOut hft hh ?_ rfl⟩
    exact forall_mem_cons.mpr ⟨succ_pos k, hrs⟩

theorem sameOutside_singleRun (b head m) :
    SameOutside m (singleRun a blockSize b head m) b blockSize := by
  have hm := hft.min
  rw [kBlockSizeMin] at hm
  have hn := (sameOutside_fill m b blockSize 0).store (k := a.word) head (le_refl b) (by omega)
  exact hn.store 1 (by omega) (by omega)

theorem Inv.takeBlock_answer (h : Inv a blockSize s ((s.freeBlockList, n) :: rest)) :
    s.freeBlockList ∉ s.live ∧ kBlockSizeAlign a ∣ s.freeBlockList ∧
    ∀ y, s.freeBlockList ≤ y → y < s.freeBlockList + blockSize →
      (LinkerBlockAllocator.takeBlock a blockSize s).mem y = 0 := by
  have hm : s.freeBlockList ∈ blocksOf blockSize ((s.freeBlockList, n) :: rest) :=
    fst_mem_blocksOf mem_cons_self (h.pos _ mem_cons_self)
  refine ⟨fun hl => ?_, ?_, fun y hle hlt => if_pos ⟨hle, hlt⟩⟩
  · exact h.live_not_head hft hl _ mem_cons_self rfl
  obtain ⟨page, hp, hbk⟩ := h.exists_page (mem_append_left s.live hm)
  obtain ⟨k, -, hk⟩ := mem_blocks.mp hbk
  have hf : a.word ∣ 4096 := by cases a <;> decide
  have ho : a.word ∣ offsetofBytes := by cases a <;> decide
  rw [hk]
  exact Nat.dvd_add (Nat.dvd_add (hf.trans (h.aligned page hp)) ho) (hft.aligned.mul_left k)

section
variable (h : Inv a blockSize s runs)
include h

theorem Inv.freeBlockList_lt : s.freeBlockList < a.sizes := by
  by_cases h0 : s.freeBlockList = 0
  · have := lt_sizes a
    omega
  obtain ⟨n, rest, rfl⟩ := h.holds.exists_cons h0
  have hm : s.freeBlockList ∈ blocksOf blockSize ((s.freeBlockList, n) :: rest) :=
    fst_mem_blocksOf mem_cons_self (h.pos _ mem_cons_self)
  obtain ⟨page, hpg, hb⟩ := h.exists_page (mem_append_left s.live hm)
  have hbs := bounds_of_mem_usable hb
  have hbl := h.below page hpg
  have hp := hft.pos
  omega

theorem Inv.pushBlock (hb : b ∈ s.live) :
    Inv a blockSize (pushBlock a blockSize b s) ((b, 1) :: runs) := by
  have hm := mem_append_right (blocksOf blockSize runs) hb
  have hc := h.frame_block hft hm (h.live_not_head hft hb)
    (sameOutside_singleRun hft b s.freeBlockList s.mem)
  obtain ⟨hn, hct⟩ := load_singleRun blockSize b s.mem (h.freeBlockList_lt hft)
  have hl := length_erase_add_one hb
  have hlt := h.live_length_lt hft
  rw [length_append] at hlt
  constructor
  · exact hc.chain
  · exact hc.holds.cons (h.ne_zero hm) hn hct
  · exact forall_mem_cons.mpr ⟨one_pos, h.pos⟩
  · refine List.Perm.trans ?_ h.tiles
    exact List.perm_middle.symm.trans ((perm_cons_erase hb).symm.append_left _)
  · exact h.aligned
  · exact h.below
  · exact h.apart
  · rw [LinkerBlockAllocator.pushBlock, h.counted, pred_of_pos (by omega) (by omega), ← hl,
      Nat.add_sub_cancel]

theorem Inv.free (hb : b ∈ s.live) :
    free a blockSize b s = .ok (LinkerBlockAllocator.pushBlock a blockSize b s) := by
  obtain ⟨page, hpg, hbk⟩ := h.exists_page (mem_append_right _ hb)
  have hbs := bounds_of_mem_usable hbk
  have hp := hft.pos
  have hw := word_cases a
  have ho : offsetofBytes = 16 := rfl
  rw [LinkerBlockAllocator.free, if_neg (by omega),
    findPage_eq (lt_succ_self _) h.chain h.apart hpg (by omega)]
  dsimp only
  rw [if_neg (by omega), offsetIn_mod (h.below page hpg) hbk, if_neg (by omega)]

theorem Inv.alloc {mmap} (hm : ∀ page, mmap = some page → Fresh a s page) :
    (mmap = none ∧ alloc a blockSize mmap s = .error .mapFailed) ∨
    ∃ t n rest, alloc a blockSize mmap s = .ok (LinkerBlockAllocator.takeBlock a blockSize t) ∧
      Inv a blockSize t ((t.freeBlockList, n) :: rest) ∧ t.live = s.live ∧ s.mapped ⊆ t.mapped := by
  rw [LinkerBlockAllocator.alloc]
  by_cases hf : s.freeBlockList = 0
  · rw [if_pos hf]
    cases mmap with
    | none => exact .inl ⟨rfl, rfl⟩
    | some page =>
      have hh := h.holds
      rw [hf] at hh
      obtain rfl := hh.eq_nil
      right
      refine ⟨LinkerBlockAllocator.initPage a blockSize page s, sizeofBytes / blockSize, [], ?_,
        h.initPage hft (hm page rfl), rfl, subset_cons_self page s.mapped⟩
      rw [createNewPage, if_neg hft.pos.ne']
      rfl
  · rw [if_neg hf]
    obtain ⟨n, rest, rfl⟩ := h.holds.exists_cons hf
    exact .inr ⟨s, n, rest, rfl, h, rfl, fun _ hp => hp⟩

theorem Inv.step {op s'} (hv : Valid a blockSize s op)
    (hs' : apply a blockSize s op = .ok s') : ∃ runs', Inv a blockSize s' runs' := by
  cases op with
  | alloc mmap =>
    rcases h.alloc hft hv with ⟨-, herr⟩ | ⟨t, n, rest, ho, ht, -, -⟩
    · cases hs'.symm.trans herr
    · cases hs'.symm.trans ho
      exact ht.takeBlock hft
  | free block =>
    rcases hv with rfl | hb
    · cases hs'
      exact ⟨runs, h⟩
    · cases hs'.symm.trans (h.free hft hb)
      exact ⟨_, h.pushBlock hft hb⟩
  | purge =>
    rcases h.purge with ⟨-, ho⟩ | ⟨hl, ho⟩ <;> cases hs'.symm.trans ho
    · exact ⟨runs, h⟩
    · refine ⟨[], rfl, Holds.nil _ _, nofun, ?_, nofun, nofun, List.Pairwise.nil, h.counted⟩
      rw [hl]
      exact List.Perm.nil
  | write x c =>
    obtain ⟨b, hb, hle, hlt⟩ := hv
    cases hs'
    refine ⟨runs, h.frame_block hft (mem_append_right _ hb) (h.live_not_head hft hb) ?_⟩
    exact (sameOutside_fill s.mem x 1 c).mono hle (by omega)

theorem Inv.answered {op} (hv : Valid a blockSize s op) : Answered a blockSize s op := by
  cases op with
  | alloc mmap =>
    rcases h.alloc hft hv with ⟨rfl, herr⟩ | ⟨t, n, rest, ho, ht, hl, hm⟩
    · exact .inl ⟨rfl, herr⟩
    obtain ⟨hn, ha, hz⟩ := ht.takeBlock_answer hft
    refine .inr ⟨_, ho, fun page hp => .inl ?_, fun _ _ => ⟨t.freeBlockList, ?_, ?_⟩⟩
    · exact (unlinkBlock_mapped a blockSize t).symm ▸ hm hp
    · rw [LinkerBlockAllocator.takeBlock, LinkerBlockAllocator.handOut, unlinkBlock_live, hl]
    · exact ⟨hl ▸ hn, ha, hz⟩
  | free block =>
    rcases hv with rfl | hb
    · exact .inr ⟨s, rfl, fun page hp => .inl hp, nofun⟩
    · exact .inr ⟨_, h.free hft hb, fun page hp => .inl hp, nofun⟩
  | purge =>
    rcases h.purge with ⟨-, ho⟩ | ⟨hl, ho⟩
    · exact .inr ⟨s, ho, fun page hp => .inl hp, nofun⟩
    · exact .inr ⟨_, ho, fun page _ => .inr hl, nofun⟩
  | write x c => exact .inr ⟨_, rfl, fun page hp => .inl hp, nofun⟩

end

theorem Inv.of_reachable (h : Reachable a blockSize s) : ∃ runs, Inv a blockSize s runs := by
  induction h with
  | initial mem =>
    exact ⟨[], rfl, Holds.nil _ _, nofun, List.Perm.nil, nofun, nofun, List.Pairwise.nil, rfl⟩
  | step _ hv hs' ih =>
    obtain ⟨runs, h⟩ := ih
    exact h.step hft hv hs'

end

theorem valid_initial (a blockSize mem) : Valid a blockSize (initial mem) (.alloc (some 4096)) := by
  rintro page hp
  cases hp
  have hs := lt_sizes a
  have hsz : kAllocateSize = 393216 := rfl
  exact ⟨by decide, by decide, by omega, nofun⟩

def oversized (a : Abi) (blockSize : ℕ) (mem : Memory) : State :=
  takeBlock a blockSize (initPage a blockSize 4096 (initial mem))

theorem alloc_oversized (hp : blockSize ≠ 0) (mem) :
    apply a blockSize (initial mem) (.alloc (some 4096)) = .ok (oversized a blockSize mem) := by
  have hf : (initial mem).freeBlockList = 0 := rfl
  rw [apply, alloc, if_pos hf, createNewPage, if_neg hp]
  rfl

theorem reachable_oversized (hp : blockSize ≠ 0) (mem) :
    Reachable a blockSize (oversized a blockSize mem) :=
  .step (.initial mem) (valid_initial a blockSize mem) (alloc_oversized hp mem)

theorem not_sound_oversized (hl : sizeofBytes < blockSize) (mem runs) :
    ¬Sound a blockSize (oversized a blockSize mem) runs := by
  intro h
  have hlv : 4096 + offsetofBytes ∈ (oversized a blockSize mem).live := mem_cons_self
  obtain ⟨page, hp, hle, hl'⟩ :=
    (h.tile (4096 + offsetofBytes)).mp ⟨_, mem_append_right _ hlv, le_rfl, by omega⟩
  have hm : (oversized a blockSize mem).mapped = [4096] :=
    unlinkBlock_mapped a blockSize (initPage a blockSize 4096 (initial mem))
  rw [hm, mem_singleton] at hp
  rw [hp, div_eq_of_lt hl, zero_mul] at hl'
  omega

end

/-- Free runs and live blocks tile the pages, and every call is answered right, exactly for the
block sizes that fit in a page. -/
theorem blocks_tile_iff (a : Abi) (blockSize : ℕ) (hsize : blockSize < a.sizes) :
    (∀ s, Reachable a (blockSizeOf a blockSize) s →
      (∃ runs, Sound a (blockSizeOf a blockSize) s runs) ∧
      ∀ op, Valid a (blockSizeOf a blockSize) s op → Answered a (blockSizeOf a blockSize) s op) ↔
    blockSize ≤ sizeofBytes := by
  constructor
  · intro h
    by_contra hg
    have mem : Memory := fun _ => 0
    rcases blockSizeOf_of_lt (not_le.mp hg) hsize with h0 | hl
    · rw [h0] at h
      have hf := (h (initial mem) (.initial mem)).2 _ (valid_initial a 0 mem)
      rcases hf with ⟨ho, -⟩ | ⟨s', hok, -⟩
      · cases ho
      · cases hok
    · have hp : blockSizeOf a blockSize ≠ 0 := by omega
      obtain ⟨⟨runs, hsu⟩, -⟩ := h _ (reachable_oversized hp mem)
      exact not_sound_oversized hl mem runs hsu
  · intro hle s hs
    have hft : Fits a (blockSizeOf a blockSize) := fits_blockSizeOf hle
    obtain ⟨runs, hiv⟩ := Inv.of_reachable hft hs
    exact ⟨⟨runs, hiv.sound⟩, fun op hv => hiv.answered hft hv⟩

theorem blocks_tile_iff_hundred : 100 < Abi.lp64.sizes ∧
    ((∀ s, Reachable .lp64 (blockSizeOf .lp64 100) s →
      (∃ runs, Sound .lp64 (blockSizeOf .lp64 100) s runs) ∧
      ∀ op, Valid .lp64 (blockSizeOf .lp64 100) s op →
        Answered .lp64 (blockSizeOf .lp64 100) s op) ↔ 100 ≤ sizeofBytes) :=
  ⟨by decide, blocks_tile_iff .lp64 100 (by decide)⟩

theorem oversized_block_untiled : blockSizeOf .lp64 400000 = 400000 ∧
    Reachable .lp64 400000 (oversized .lp64 400000 fun _ => 0) ∧
    ∀ runs, ¬Sound .lp64 400000 (oversized .lp64 400000 fun _ => 0) runs :=
  ⟨by decide, reachable_oversized (by decide) _, not_sound_oversized (by decide) _⟩

end LinkerBlockAllocator
