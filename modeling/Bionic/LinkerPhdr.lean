import Bionic.WordAlign

/-! Loading the segments of a 64-bit ELF file: the extent of the program header table, the
reservation of the address space, and the loop of `LoadSegments` with every range that it maps,
fills or reads into. Sums wrap as in the code. The calls into the kernel are parameters with what it
guarantees as fields. -/
namespace LinkerPhdr

open WordAlign
open List Nat

inductive PageSize where
  | k4
  | k16
  | k64
  deriving DecidableEq

def PageSize.bytes : PageSize → ℕ
  | .k4 => 4096
  | .k16 => 16384
  | .k64 => 65536

def wrap (n : ℕ) : ℕ := n % 2 ^ 64

/-- `x & ~(page_size() - 1)`. -/
def pageStart (page : PageSize) (x : ℕ) : ℕ := alignDown page.bytes x

def pageOffset (page : PageSize) (x : ℕ) : ℕ := x % page.bytes

def pageEnd (page : PageSize) (x : ℕ) : ℕ := pageStart page (wrap (x + (page.bytes - 1)))

def kCompatPageSize : ℕ := 0x1000

def ptLoad : ℕ := 1
def ptGnuRelro : ℕ := 0x6474e552
def pfX : ℕ := 1
def pfW : ℕ := 2
def pfR : ℕ := 4
def protRead : ℕ := 1
def protWrite : ℕ := 2
def protExec : ℕ := 4

structure Phdr where
  pType : ℕ
  pFlags : ℕ
  pOffset : ℕ
  pVaddr : ℕ
  pFilesz : ℕ
  pMemsz : ℕ
  pAlign : ℕ
  pOffset_lt : pOffset < 2 ^ 64
  pVaddr_lt : pVaddr < 2 ^ 64
  pFilesz_lt : pFilesz < 2 ^ 64
  pMemsz_lt : pMemsz < 2 ^ 64

def Phdr.has (phdr : Phdr) (flag : ℕ) : Bool := phdr.pFlags &&& flag != 0

def pflagsToProt (phdr : Phdr) : ℕ :=
  (if phdr.has pfX then protExec else 0) ||| (if phdr.has pfR then protRead else 0) |||
    (if phdr.has pfW then protWrite else 0)

/-- What it knows once the other headers and the notes have been read. -/
structure ElfReader where
  page : PageSize
  phdrTable : List Phdr
  fileOffset : ℕ
  fileSize : ℤ
  shouldPadSegments : Bool
  appCompatEnabled : Bool
  /-- What `Setup16KiBAppCompat` adds to the bias to move the boundary of the writable part. -/
  permBoundaryOffset : ℕ
  targetSdkVersion : ℕ
  pageSizeMigrationSupported : Bool

inductive LoadError where
  | invalidPhnum (phdrNum : ℕ)
  | noLoadableSegments
  | reservedTooSmall (missing needed : ℕ)
  | couldNotReserve (size : ℕ)
  | alignmentTooSmall (minAlign : ℕ)
  | invalidFileSize (fileSize : ℤ)
  | pastEndOfFile (pOffset pFilesz : ℕ)
  | writableAndExecutable
  | couldNotMap
  | couldNotMapBss
  | aborted
  deriving DecidableEq

/-- One round of the loop of `phdr_table_get_load_size`, with `min_vaddr`, `max_vaddr` and
`found_pt_load`. -/
def loadSizeStep (acc : ℕ × ℕ × Bool) (phdr : Phdr) : ℕ × ℕ × Bool :=
  if phdr.pType ≠ ptLoad then acc
  else
    let (minVaddr, maxVaddr, _) := acc
    let memEnd := wrap (phdr.pVaddr + phdr.pMemsz)
    (if phdr.pVaddr < minVaddr then phdr.pVaddr else minVaddr,
      if memEnd > maxVaddr then memEnd else maxVaddr, true)

def phdrTableGetLoadSize (page : PageSize) (phdrTable : List Phdr) : ℕ × ℕ :=
  let (minVaddr, maxVaddr, foundPtLoad) := phdrTable.foldl loadSizeStep (2 ^ 64 - 1, 0, false)
  let minVaddr := pageStart page (if foundPtLoad then minVaddr else 0)
  let maxVaddr := pageEnd page maxVaddr
  (wrap (maxVaddr + (2 ^ 64 - minVaddr)), minVaddr)

section
variable (r : ElfReader)

/-- The only RELRO segment, and `none` when there are several. -/
def hasAtMostOneRelroSegment : Option (Option Phdr) :=
  match r.phdrTable.filter fun phdr => phdr.pType == ptGnuRelro with
  | [] => some none
  | [relro] => some (some relro)
  | _ => none

def phdrTableGetRelroMinAlign (relro : Phdr) : List Phdr → ℕ
  | [] => 0
  | phdr :: rest =>
    if phdr.pType = ptLoad ∧ phdr.pVaddr = relro.pVaddr then
      if phdr.pMemsz ≤ relro.pMemsz then 0
      else
        let relroEnd := wrap (relro.pVaddr + relro.pMemsz)
        let relroAlign := relroEnd &&& wrap (2 ^ 64 - relroEnd)
        if kCompatPageSize ≤ relroAlign then relroAlign else 0
    else phdrTableGetRelroMinAlign relro rest

def overlapsOnPages : ℕ → List Phdr → Bool
  | _, [] => false
  | prevLoadEnd, phdr :: rest =>
    if phdr.pType ≠ ptLoad then overlapsOnPages prevLoadEnd rest
    else if prevLoadEnd > pageStart r.page phdr.pVaddr then true
    else overlapsOnPages (wrap (phdr.pVaddr + phdr.pMemsz)) rest

def fixMinAlignFor16KiB (minAlign : ℕ) : ℕ :=
  let minAlign := match hasAtMostOneRelroSegment r with
    | some (some relro) =>
      let relroMinAlign := phdrTableGetRelroMinAlign relro r.phdrTable
      if relroMinAlign ≠ 0 then min minAlign relroMinAlign else minAlign
    | _ => minAlign
  if minAlign < 16 * 1024 then minAlign
  else if overlapsOnPages r 0 r.phdrTable then 4 * 1024
  else minAlign

/-- An alignment that is no power of two is ignored. -/
def minAlign : ℕ :=
  let minAlign := r.phdrTable.foldl (fun minAlign phdr =>
    if phdr.pType = ptLoad ∧ phdr.pAlign &&& (phdr.pAlign - 1) = 0 ∧ 1 < phdr.pAlign then
      min minAlign phdr.pAlign
    else minAlign) r.page.bytes
  if r.page.bytes = 16 * 1024 then fixMinAlignFor16KiB r minAlign else minAlign

def shouldUse16kibAppCompat : Bool :=
  r.page.bytes == 16 * 1024 && decide (minAlign r < r.page.bytes) && r.appCompatEnabled

end

/-- A range that the caller has reserved, or an empty one. -/
structure AddressSpace where
  startAddr : ℕ
  reservedSize : ℕ
  mustUseAddress : Bool
  fits : startAddr + reservedSize < 2 ^ 64

/-- A reservation is a range of pages below the end of the address space; a mapping at a fixed
address may be refused. -/
structure Kernel (page : PageSize) where
  reserve : ℕ → Option ℕ
  mmap : ℕ → ℕ → Bool
  aligned : ∀ {size start}, reserve size = some start → page.bytes ∣ start
  fits : ∀ {size start}, reserve size = some start → start + size < 2 ^ 64

structure Reserved where
  loadStart : ℕ
  loadSize : ℕ
  loadBias : ℕ
  deriving DecidableEq

def reserveAddressSpace (r : ElfReader) (k : Kernel r.page) (space : AddressSpace) :
    Except LoadError Reserved :=
  let (size, minVaddr) := phdrTableGetLoadSize r.page r.phdrTable
  if size = 0 then .error .noLoadableSegments
  else
    let loadSize := if shouldUse16kibAppCompat r then wrap (size + r.page.bytes) else size
    let reserved := fun start => Reserved.mk start loadSize (wrap (start + (2 ^ 64 - minVaddr)))
    if space.reservedSize < loadSize then
      if space.mustUseAddress then
        .error (.reservedTooSmall (loadSize - space.reservedSize) loadSize)
      else
        match k.reserve loadSize with
        | none => .error (.couldNotReserve loadSize)
        | some start => .ok (reserved start)
    else .ok (reserved space.startAddr)

inductive Effect where
  /-- A mapping of the file with `MAP_FIXED`. -/
  | mapSegment (start len prot offset : ℕ)
  /-- A read of the file into the reservation, in compat mode. -/
  | compatRead (start len offset : ℕ)
  | zeroFill (start len : ℕ)
  /-- `madvise` on the pages that pad a segment. -/
  | dropPadding (start len : ℕ)
  /-- An anonymous mapping with `MAP_FIXED`. -/
  | mapBss (start len prot : ℕ)
  deriving DecidableEq

section
variable (r : ElfReader)

def extendLoadSegmentVma (phdr : Phdr) (next : Option Phdr) : ℕ × ℕ :=
  if shouldUse16kibAppCompat r then (phdr.pMemsz, phdr.pFilesz)
  else if phdr.pAlign ≤ r.page.bytes ∨ 64 * 1024 < phdr.pAlign ∨ r.shouldPadSegments = false then
    (phdr.pMemsz, phdr.pFilesz)
  else
    match next with
    | none => (phdr.pMemsz, phdr.pFilesz)
    | some next =>
      if next.pType ≠ ptLoad ∨ phdr.pMemsz ≠ phdr.pFilesz then (phdr.pMemsz, phdr.pFilesz)
      else
        let nextStart := pageStart r.page next.pVaddr
        let currEnd := pageEnd r.page (wrap (phdr.pVaddr + phdr.pMemsz))
        if nextStart ≤ currEnd then (phdr.pMemsz, phdr.pFilesz)
        else
          let extend := nextStart - currEnd
          (wrap (phdr.pMemsz + extend), wrap (phdr.pFilesz + extend))

variable (k : Kernel r.page) (loadBias : ℕ)

def mapSegment (phdr : Phdr) (len : ℕ) : Except LoadError (List Effect) :=
  let start := pageStart r.page (wrap (phdr.pVaddr + loadBias))
  if k.mmap start len then
    .ok [.mapSegment start len (pflagsToProt phdr)
      (wrap (r.fileOffset + pageStart r.page phdr.pOffset))]
  else .error .couldNotMap

def mapFilePart (phdr : Phdr) (len : ℕ) : Except LoadError (List Effect) :=
  if len = 0 then .ok [] else mapSegment r k loadBias phdr len

def compatMapSegment (phdr : Phdr) (len : ℕ) : List Effect :=
  [.compatRead
    (alignDown kCompatPageSize (wrap (phdr.pVaddr + loadBias + r.permBoundaryOffset))) len
    (wrap (r.fileOffset + alignDown kCompatPageSize phdr.pOffset))]

def zeroFillSegment (phdr : Phdr) : List Effect :=
  let unextendedSegFileEnd := wrap (wrap (phdr.pVaddr + loadBias) + phdr.pFilesz)
  if phdr.has pfW ∧ 0 < pageOffset r.page unextendedSegFileEnd then
    [.zeroFill unextendedSegFileEnd (r.page.bytes - pageOffset r.page unextendedSegFileEnd)]
  else []

def dropPaddingPages (phdr : Phdr) (segFileEnd : ℕ) : Except LoadError (List Effect) :=
  let unextendedSegFileEnd := wrap (wrap (phdr.pVaddr + loadBias) + phdr.pFilesz)
  let padStart := pageEnd r.page unextendedSegFileEnd
  let padEnd := pageEnd r.page segFileEnd
  if padEnd < padStart then .error .aborted
  else if padEnd = padStart ∨ r.pageSizeMigrationSupported = false then .ok []
  else .ok [.dropPadding padStart (padEnd - padStart)]

def mapBssSection (phdr : Phdr) (segPageEnd segFileEnd : ℕ) : Except LoadError (List Effect) :=
  let segFileEnd := pageEnd r.page segFileEnd
  if segPageEnd ≤ segFileEnd then .ok []
  else if k.mmap segFileEnd (segPageEnd - segFileEnd) then
    .ok [.mapBss segFileEnd (segPageEnd - segFileEnd) (pflagsToProt phdr)]
  else .error .couldNotMapBss

/-- The file part with what precedes it on its first page. -/
def fileLength (align : ℕ) (phdr : Phdr) (pFilesz : ℕ) : ℕ :=
  wrap (wrap (phdr.pOffset + pFilesz) + (2 ^ 64 - alignDown align phdr.pOffset))

def loadSegment (phdr : Phdr) (next : Option Phdr) : Except LoadError (List Effect) := do
  let compat := shouldUse16kibAppCompat r
  let (pMemsz, pFilesz) := extendLoadSegmentVma r phdr next
  let segStart := wrap (phdr.pVaddr + loadBias)
  let segPageEnd := pageEnd r.page (wrap (segStart + pMemsz))
  let segFileEnd := wrap (segStart + pFilesz)
  let len := fileLength (if compat then kCompatPageSize else r.page.bytes) phdr pFilesz
  if r.fileSize ≤ 0 then .error (.invalidFileSize r.fileSize)
  else if r.fileSize < wrap (phdr.pOffset + phdr.pFilesz) then
    .error (.pastEndOfFile phdr.pOffset phdr.pFilesz)
  else if len ≠ 0 ∧ phdr.has pfX ∧ phdr.has pfW ∧ 26 ≤ r.targetSdkVersion then
    .error .writableAndExecutable
  else if compat then
    .ok (if len = 0 then [] else compatMapSegment r loadBias phdr len)
  else
    let mapped ← mapFilePart r k loadBias phdr len
    let padding ← dropPaddingPages r loadBias phdr segFileEnd
    let bss ← mapBssSection r k phdr segPageEnd segFileEnd
    .ok (mapped ++ zeroFillSegment r loadBias phdr ++ padding ++ bss)

/-- The loop of `LoadSegments`. -/
def loadSegmentsFrom : List Phdr → Except LoadError (List Effect)
  | [] => .ok []
  | phdr :: rest => do
    if phdr.pType ≠ ptLoad then loadSegmentsFrom rest
    else
      let effects ← loadSegment r k loadBias phdr rest.head?
      let others ← loadSegmentsFrom rest
      .ok (effects ++ others)

def loadSegments : Except LoadError (List Effect) :=
  if 16384 ≤ r.page.bytes ∧ minAlign r < r.page.bytes ∧ shouldUse16kibAppCompat r = false then
    .error (.alignmentTooSmall (minAlign r))
  else loadSegmentsFrom r k loadBias r.phdrTable

/-- A table that is accepted, with its reservation and what loading does. -/
def load (space : AddressSpace) : Except LoadError (Reserved × List Effect) := do
  if r.phdrTable.length < 1 ∨ 65536 / 56 < r.phdrTable.length then
    .error (.invalidPhnum r.phdrTable.length)
  else
    let reserved ← reserveAddressSpace r k space
    let effects ← loadSegments r k reserved.loadBias
    .ok (reserved, effects)

end

/-- Where it starts, and its length. -/
def Effect.range : Effect → ℕ × ℕ
  | .mapSegment start len _ _ | .compatRead start len _ | .zeroFill start len |
    .dropPadding start len | .mapBss start len _ => (start, len)

/-- Maps at a fixed address or fills with zeros: all but the reads in compat mode and the hints. -/
def Effect.overwrites : Effect → Bool
  | .mapSegment .. | .zeroFill .. | .mapBss .. => true
  | .compatRead .. | .dropPadding .. => false

def Inside (reserved : Reserved) (e : Effect) : Prop := reserved.loadStart ≤ e.range.1 ∧
  e.range.1 + e.range.2 ≤ reserved.loadStart + reserved.loadSize

instance (reserved : Reserved) (e : Effect) : Decidable (Inside reserved e) :=
  inferInstanceAs (Decidable (_ ∧ _))

def loadEntries : List Phdr → List (Phdr × Option Phdr)
  | [] => []
  | phdr :: rest =>
    if phdr.pType = ptLoad then (phdr, rest.head?) :: loadEntries rest else loadEntries rest

section
variable (r : ElfReader)

def lowPage : ℕ :=
  pageStart r.page (((loadEntries r.phdrTable).map fun q => q.1.pVaddr).foldl min (2 ^ 64 - 1))

def above (x : ℕ) : ℕ := wrap (x + (2 ^ 64 - lowPage r))

def extent : ℕ :=
  above r (pageEnd r.page
    (((loadEntries r.phdrTable).map fun q => wrap (q.1.pVaddr + q.1.pMemsz)).foldl max 0))

def fileBytes (phdr : Phdr) (next : Option Phdr) : ℕ :=
  wrap ((extendLoadSegmentVma r phdr next).2 + phdr.pOffset % r.page.bytes)

def pageEndAbove (x : ℕ) : ℕ := wrap (alignUp r.page.bytes (above r x))

/-- The parts of a load segment stay within the extent of the table: its file pages, the rest of the
last one if it is zeroed, and the pages in memory only, if their end, which may wrap, is higher. -/
structure Fits (loadStart : ℕ) (phdr : Phdr) (next : Option Phdr) : Prop where
  file : fileBytes r phdr next ≠ 0 →
    above r (pageStart r.page phdr.pVaddr) + fileBytes r phdr next ≤ extent r
  tail : phdr.has pfW → (phdr.pVaddr + phdr.pFilesz) % r.page.bytes ≠ 0 →
    above r (phdr.pVaddr + phdr.pFilesz) < extent r
  bss : let x := pageEndAbove r (phdr.pVaddr + (extendLoadSegmentVma r phdr next).2)
    let y := pageEndAbove r (phdr.pVaddr + (extendLoadSegmentVma r phdr next).1)
    if y ≤ x then 2 ^ 64 ≤ loadStart + x → 2 ^ 64 ≤ loadStart + y
    else y ≤ extent r ∨ loadStart + x < 2 ^ 64 ∧ 2 ^ 64 ≤ loadStart + y

end

theorem page_dvd_word (page : PageSize) : page.bytes ∣ 2 ^ 64 := by
  cases page <;> decide

variable {r : ElfReader}

theorem foldl_loadSizeStep (table low high found) : table.foldl loadSizeStep (low, high, found) =
      (((loadEntries table).map fun q => q.1.pVaddr).foldl min low,
        ((loadEntries table).map fun q => wrap (q.1.pVaddr + q.1.pMemsz)).foldl max high,
        found || !(loadEntries table).isEmpty) := by
  induction table generalizing low high found with
  | nil => simp [loadEntries]
  | cons phdr rest ih =>
    rw [foldl_cons, loadSizeStep, loadEntries]
    by_cases hl : phdr.pType = ptLoad
    · rw [if_neg (not_not.mpr hl), if_pos hl, ih]
      have hm : (if phdr.pVaddr < low then phdr.pVaddr else low) = min low phdr.pVaddr := by
        split <;> omega
      have hmx : (if wrap (phdr.pVaddr + phdr.pMemsz) > high then
          wrap (phdr.pVaddr + phdr.pMemsz) else high) =
          max high (wrap (phdr.pVaddr + phdr.pMemsz)) := by
        split <;> omega
      simp [hm, hmx]
    · rw [if_pos hl, if_neg hl, ih]

theorem phdrTableGetLoadSize_eq (h : (phdrTableGetLoadSize r.page r.phdrTable).1 ≠ 0) :
    phdrTableGetLoadSize r.page r.phdrTable = (extent r, lowPage r) := by
  unfold phdrTableGetLoadSize at h ⊢
  rw [foldl_loadSizeStep] at h ⊢
  cases hes : loadEntries r.phdrTable with
  | nil =>
    rw [hes] at h
    exact absurd (by cases r.page <;> decide) h
  | cons q rest =>
    simp only [extent, above, lowPage, hes]
    rfl

theorem lowPage_dvd : r.page.bytes ∣ lowPage r := dvd_alignDown _ _

theorem above_lt (x) : above r x < 2 ^ 64 := mod_lt _ (by decide)

theorem pageEndAbove_lt (x) : pageEndAbove r x < 2 ^ 64 := mod_lt _ (by decide)

theorem dvd_complement : r.page.bytes ∣ 2 ^ 64 - lowPage r :=
  dvd_sub (page_dvd_word r.page) lowPage_dvd

theorem above_pageStart (x : ℕ) :
    above r (pageStart r.page x) = alignDown r.page.bytes (above r x) := by
  unfold above pageStart wrap
  rw [alignDown_mod (page_dvd_word r.page), add_comm x, alignDown_add dvd_complement, add_comm]

theorem above_mod (x : ℕ) : above r x % r.page.bytes = x % r.page.bytes := by
  unfold above wrap
  rw [mod_mod_of_dvd _ (page_dvd_word r.page), add_mod,
    mod_eq_zero_of_dvd dvd_complement, add_zero, mod_mod]

theorem extent_dvd : r.page.bytes ∣ extent r := by
  unfold extent pageEnd
  rw [above_pageStart]
  exact dvd_alignDown _ _

/-- The bias moves the lowest page to the start of the reservation. -/
structure Placed (r : ElfReader) (reserved : Reserved) : Prop where
  aligned : r.page.bytes ∣ reserved.loadStart
  fits : reserved.loadStart + reserved.loadSize < 2 ^ 64
  size : reserved.loadSize = extent r
  bias : reserved.loadBias = wrap (reserved.loadStart + (2 ^ 64 - lowPage r))

variable {effects : List Effect}

section
variable {k : Kernel r.page} {space : AddressSpace} {reserved : Reserved} {phdr : Phdr}
  {next : Option Phdr}

theorem reserveAddressSpace_placed (h : reserveAddressSpace r k space = .ok reserved)
    (ha : r.page.bytes ∣ space.startAddr) (hcp : shouldUse16kibAppCompat r = false) :
    Placed r reserved := by
  unfold reserveAddressSpace at h
  by_cases hz : (phdrTableGetLoadSize r.page r.phdrTable).1 = 0
  · simp only [hz, if_true] at h
    cases h
  rw [phdrTableGetLoadSize_eq hz] at h hz
  simp only [hz, hcp, if_false, Bool.false_eq_true] at h
  split_ifs at h
  · cases hr : k.reserve (extent r) with
    | none =>
      rw [hr] at h
      cases h
    | some start =>
      rw [hr] at h
      cases h
      exact ⟨k.aligned hr, k.fits hr, rfl, rfl⟩
  · cases h
    have hf := space.fits
    refine ⟨ha, ?_, rfl, rfl⟩
    dsimp only
    omega

theorem fileLength_eq (phdr pFilesz) :
    fileLength r.page.bytes phdr pFilesz = wrap (pFilesz + phdr.pOffset % r.page.bytes) := by
  have hs := alignDown_add_mod r.page.bytes phdr.pOffset
  have hl := phdr.pOffset_lt
  unfold fileLength wrap
  rw [mod_add_mod, ← add_mod_right (pFilesz + phdr.pOffset % r.page.bytes)]
  congr 1
  omega

theorem inside_dropPaddingPages {segFileEnd}
    (h : dropPaddingPages r reserved.loadBias phdr segFileEnd = .ok effects) :
    ∀ e ∈ effects, e.overwrites → Inside reserved e := by
  unfold dropPaddingPages at h
  dsimp only at h
  split_ifs at h <;> cases h
  · exact nofun
  · exact List.forall_mem_singleton.mpr fun h => by cases h

theorem bind_eq_ok {α β : Type} {x} {f : α → Except LoadError β} {b}
    (h : (x >>= f) = .ok b) : ∃ a, x = .ok a ∧ f a = .ok b := by
  cases x with
  | error e => cases h
  | ok a => exact ⟨a, rfl, h⟩

section
variable (hp : Placed r reserved)
include hp

theorem Placed.address (x) :
    wrap (x + reserved.loadBias) = (reserved.loadStart + above r x) % 2 ^ 64 := by
  rw [hp.bias]
  unfold above wrap
  rw [add_mod_mod, add_mod_mod]
  congr 1
  omega

theorem Placed.address_add (x y) :
    wrap (wrap (x + reserved.loadBias) + y) = (reserved.loadStart + above r (x + y)) % 2 ^ 64 := by
  rw [← hp.address]
  unfold wrap
  rw [mod_add_mod]
  congr 1
  omega

theorem Placed.pageEnd_address (x y : ℕ) :
    pageEnd r.page (wrap (wrap (x + reserved.loadBias) + y)) =
      (reserved.loadStart + pageEndAbove r (x + y)) % 2 ^ 64 := by
  rw [hp.address_add]
  unfold pageEnd pageStart pageEndAbove wrap
  rw [alignDown_wrapped (page_dvd_word r.page) hp.aligned, add_mod_mod]

theorem inside_mapSegment {len} (h : mapSegment r k reserved.loadBias phdr len = .ok effects) :
    (∀ e ∈ effects, e.overwrites → Inside reserved e) ↔
      above r (pageStart r.page phdr.pVaddr) + len ≤ extent r := by
  unfold mapSegment at h
  dsimp only at h
  split_ifs at h
  cases h
  rw [forall_mem_singleton]
  simp only [Effect.overwrites, Inside, Effect.range, true_imp_iff]
  rw [hp.address, pageStart,
    alignDown_mod (page_dvd_word r.page), alignDown_add hp.aligned, ← above_pageStart]
  rw [hp.size]
  exact window_iff (hp.size ▸ hp.fits) (above_lt _) len

theorem inside_mapFilePart {len} (h : mapFilePart r k reserved.loadBias phdr len = .ok effects) :
    (∀ e ∈ effects, e.overwrites → Inside reserved e) ↔
      (len ≠ 0 → above r (pageStart r.page phdr.pVaddr) + len ≤ extent r) := by
  unfold mapFilePart at h
  split_ifs at h with hl
  · cases h
    simp [hl]
  · rw [inside_mapSegment hp h]
    exact ⟨fun h _ => h, fun h => h hl⟩

theorem inside_zeroFillSegment (phdr : Phdr) :
    (∀ e ∈ zeroFillSegment r reserved.loadBias phdr, e.overwrites → Inside reserved e) ↔
      (phdr.has pfW → (phdr.pVaddr + phdr.pFilesz) % r.page.bytes ≠ 0 →
        above r (phdr.pVaddr + phdr.pFilesz) < extent r) := by
  have ho : pageOffset r.page (wrap (wrap (phdr.pVaddr + reserved.loadBias) + phdr.pFilesz)) =
      (phdr.pVaddr + phdr.pFilesz) % r.page.bytes := by
    rw [hp.address_add, pageOffset, mod_mod_of_dvd _ (page_dvd_word r.page), add_mod,
      mod_eq_zero_of_dvd hp.aligned, zero_add, mod_mod, above_mod]
  unfold zeroFillSegment
  simp only [ho]
  by_cases hf : phdr.has pfW ∧ 0 < (phdr.pVaddr + phdr.pFilesz) % r.page.bytes
  · rw [if_pos hf, forall_mem_singleton]
    simp only [Effect.overwrites, Inside, Effect.range, true_imp_iff]
    rw [hp.address_add, hp.size,
      window_iff (hp.size ▸ hp.fits) (above_lt _), ← above_mod,
      add_sub_mod_le_iff extent_dvd (by rw [above_mod]; exact hf.2.ne')]
    exact ⟨fun h _ _ => h, fun h => h hf.1 (by rw [above_mod]; exact hf.2.ne')⟩
  · rw [if_neg hf]
    simp only [not_mem_nil, false_imp_iff, implies_true, true_iff]
    exact fun hw hn => absurd ⟨hw, Nat.pos_of_ne_zero hn⟩ hf

theorem inside_mapBssSection {pMemsz pFilesz} (h : mapBssSection r k phdr
      (pageEnd r.page (wrap (wrap (phdr.pVaddr + reserved.loadBias) + pMemsz)))
      (wrap (wrap (phdr.pVaddr + reserved.loadBias) + pFilesz)) = .ok effects) :
    (∀ e ∈ effects, e.overwrites → Inside reserved e) ↔
      (let x := pageEndAbove r (phdr.pVaddr + pFilesz)
      let y := pageEndAbove r (phdr.pVaddr + pMemsz)
      if y ≤ x then 2 ^ 64 ≤ reserved.loadStart + x → 2 ^ 64 ≤ reserved.loadStart + y
      else y ≤ extent r ∨ reserved.loadStart + x < 2 ^ 64 ∧ 2 ^ 64 ≤ reserved.loadStart + y) := by
  rw [← gap_iff (hp.size ▸ hp.fits) (pageEndAbove_lt _) (pageEndAbove_lt _),
    ← hp.pageEnd_address, ← hp.pageEnd_address]
  unfold mapBssSection at h
  dsimp only at h
  split_ifs at h with hl hm <;> cases h
  · simp only [not_mem_nil, false_imp_iff, implies_true, true_iff]
    exact fun hlt => absurd hl (not_le.mpr hlt)
  · rw [forall_mem_singleton]
    simp only [Effect.overwrites, Inside, Effect.range, true_imp_iff]
    rw [hp.size, Nat.add_sub_cancel' (not_le.mp hl).le]
    exact ⟨fun h _ => h, fun h => h (not_le.mp hl)⟩

variable (hcp : shouldUse16kibAppCompat r = false)
include hcp

theorem inside_loadSegment (h : loadSegment r k reserved.loadBias phdr next = .ok effects) :
    (∀ e ∈ effects, e.overwrites → Inside reserved e) ↔ Fits r reserved.loadStart phdr next := by
  unfold loadSegment at h
  simp only [hcp, Bool.false_eq_true, if_false, fileLength_eq] at h
  split_ifs at h
  obtain ⟨mapped, hm, h⟩ := bind_eq_ok h
  obtain ⟨padding, hpd, h⟩ := bind_eq_ok h
  obtain ⟨bss, hb, h⟩ := bind_eq_ok h
  cases h
  simp only [forall_mem_append]
  rw [inside_mapFilePart hp hm, inside_zeroFillSegment hp, inside_mapBssSection hp hb]
  constructor
  · rintro ⟨⟨⟨hfi, ht⟩, -⟩, hb⟩
    exact ⟨hfi, ht, hb⟩
  · intro hf
    exact ⟨⟨⟨hf.file, hf.tail⟩, inside_dropPaddingPages hpd⟩, hf.bss⟩

theorem inside_loadSegmentsFrom {table : List Phdr}
    (h : loadSegmentsFrom r k reserved.loadBias table = .ok effects) :
    (∀ e ∈ effects, e.overwrites → Inside reserved e) ↔
      ∀ q ∈ loadEntries table, Fits r reserved.loadStart q.1 q.2 := by
  induction table generalizing effects with
  | nil =>
    cases h
    simp [loadEntries]
  | cons phdr rest ih =>
    unfold loadSegmentsFrom at h
    rw [loadEntries]
    by_cases hl : phdr.pType = ptLoad
    · rw [if_neg (not_not.mpr hl)] at h
      obtain ⟨own, ho, h⟩ := bind_eq_ok h
      obtain ⟨others, hos, h⟩ := bind_eq_ok h
      cases h
      rw [if_pos hl, forall_mem_append, forall_mem_cons, ih hos, inside_loadSegment hp hcp ho]
    · rw [if_pos hl] at h
      rw [if_neg hl, ih h]

end

theorem inside_of_compat (hcp : shouldUse16kibAppCompat r) {loadBias} {table : List Phdr}
    (h : loadSegmentsFrom r k loadBias table = .ok effects) (reserved) :
    ∀ e ∈ effects, e.overwrites → Inside reserved e := by
  induction table generalizing effects with
  | nil =>
    cases h
    exact nofun
  | cons phdr rest ih =>
    unfold loadSegmentsFrom at h
    by_cases hl : phdr.pType = ptLoad
    · rw [if_neg (not_not.mpr hl)] at h
      obtain ⟨own, ho, h⟩ := bind_eq_ok h
      obtain ⟨others, hos, h⟩ := bind_eq_ok h
      cases h
      refine List.forall_mem_append.mpr ⟨?_, ih hos⟩
      unfold loadSegment at ho
      simp only [hcp, if_true] at ho
      split_ifs at ho <;> cases ho
      · exact nofun
      · exact List.forall_mem_singleton.mpr fun h => by cases h
    · rw [if_pos hl] at h
      exact ih h

theorem load_cases (ha : r.page.bytes ∣ space.startAddr)
    (h : load r k space = .ok (reserved, effects)) :
    loadSegmentsFrom r k reserved.loadBias r.phdrTable = .ok effects ∧ (shouldUse16kibAppCompat r ∨
        shouldUse16kibAppCompat r = false ∧ Placed r reserved) := by
  unfold load at h
  split_ifs at h
  obtain ⟨placed, hpl, h⟩ := bind_eq_ok h
  obtain ⟨effects', hes, h⟩ := bind_eq_ok h
  cases h
  unfold loadSegments at hes
  split_ifs at hes
  refine ⟨hes, ?_⟩
  cases hcp : shouldUse16kibAppCompat r with
  | true => exact .inl rfl
  | false => exact .inr ⟨rfl, reserveAddressSpace_placed hpl ha hcp⟩

end

def phdrOf (pType pFlags pOffset pVaddr pFilesz pMemsz : Fin (2 ^ 64)) : Phdr where
  pType := pType
  pFlags := pFlags
  pOffset := pOffset
  pVaddr := pVaddr
  pFilesz := pFilesz
  pMemsz := pMemsz
  pAlign := 0x1000
  pOffset_lt := pOffset.isLt
  pVaddr_lt := pVaddr.isLt
  pFilesz_lt := pFilesz.isLt
  pMemsz_lt := pMemsz.isLt

def readerOf (phdrTable : List Phdr) : ElfReader where
  page := .k4
  phdrTable := phdrTable
  fileOffset := 0
  fileSize := 0x10000
  shouldPadSegments := false
  appCompatEnabled := false
  permBoundaryOffset := 0
  targetSdkVersion := 35
  pageSizeMigrationSupported := false

def roomyKernel : Kernel .k4 where
  reserve := fun size => if size < 2 ^ 32 then some 0x7000000000 else none
  mmap := fun _ _ => true
  aligned := by
    intro size start h
    split at h
    · cases h
      decide
    · cases h
  fits := by
    intro size start h
    split at h
    · cases h
      omega
    · cases h

def noReservation : AddressSpace where
  startAddr := 0
  reservedSize := 0
  mustUseAddress := false
  fits := by decide

def longFilePart : ElfReader :=
  readerOf [phdrOf 1 5 0 0 0x3000 0x1000, phdrOf 2 4 0x200 0x200 0x100 0x100]

def codeAndData : ElfReader :=
  readerOf [phdrOf 1 5 0 0 0x1234 0x1234, phdrOf 1 6 0x1300 0x2300 0x100 0x3000]

end LinkerPhdr
