import Mathlib

/-! Symbol lookup: the hash tables of one library, the list of libraries that a relocation
searches, and the loop over it. `none` stands for a lookup that does not come back: a fatal
error, a read outside the symbol tables, or a chain without an end. -/
namespace LinkerLookup

open List Nat Option

structure CString where
  bytes : List UInt8
  nonzero : 0 ∉ bytes

structure Sym where
  stName : ℕ
  stBind : ℕ
  stType : ℕ
  stShndx : ℕ
  stValue : ℕ
  deriving DecidableEq

structure Verdef where
  vdVersion : ℕ
  isBase : Bool
  vdCnt : ℕ
  vdHash : ℕ
  vdNdx : ℕ
  vdaName : ℕ

structure VersionInfo where
  elfHash : ℕ
  name : CString

/-- The fields of a soinfo that lookups read. `symbols` is the length of the symbol table; the
string table is memory from `strtab_` on, whatever its size is said to be. -/
structure Library where
  id : ℕ
  isGnuHash : Bool
  strtab : ℕ → UInt8
  strtabSize : ℕ
  symbols : ℕ
  symtab : ℕ → Sym
  versym : Option (ℕ → ℕ)
  verdefs : List Verdef
  gnuMaskwords : ℕ
  gnuShift2 : ℕ
  gnuBloomFilter : ℕ → ℕ
  gnuNbucket : ℕ
  gnuBucket : ℕ → ℕ
  gnuChain : ℕ → ℕ
  nbucket : ℕ
  bucket : ℕ → ℕ
  chain : ℕ → ℕ

def stbGlobal : ℕ := 1
def stbWeak : ℕ := 2
def shnUndef : ℕ := 0
def kVersymNotNeeded : ℕ := 0
def kVersymGlobal : ℕ := 1
def kVersymHiddenBit : ℕ := 0x8000

def calculateGnuHash (name : CString) : ℕ × ℕ :=
  (name.bytes.foldl (fun h c => (h + h <<< 5 + c.toNat) % 2 ^ 32) 5381, name.bytes.length)

def calculateElfHash (name : CString) : ℕ :=
  name.bytes.foldl (fun h c =>
    let h₁ := (h <<< 4 + c.toNat) % 2 ^ 32
    let g := h₁ &&& 0xf0000000
    (h₁ ^^^ g) ^^^ (g >>> 24)) 0

/-- The bytes from `i` on are `l` and a terminator: what `strcmp` tests, and `memcmp` over one byte
more than the length. -/
def cstringAt (mem : ℕ → UInt8) : ℕ → List UInt8 → Bool
  | i, [] => mem i == 0
  | i, c :: l => mem i == c && cstringAt mem (i + 1) l

def Library.getString (lib : Library) (index : ℕ) : Option ℕ :=
  if lib.strtabSize ≤ index then none else some index

def isSymbolGlobalAndDefined (s : Sym) : Bool :=
  if s.stBind = stbGlobal ∨ s.stBind = stbWeak then s.stShndx ≠ shnUndef else false

def checkSymbolVersion (verTable : Option (ℕ → ℕ)) (symIdx verneed : ℕ) : Bool :=
  match verTable with
  | none => true
  | some table =>
    if verneed = kVersymNotNeeded then table symIdx &&& kVersymHiddenBit = 0
    else verneed = table symIdx &&& 0x7fff

/-- `for_each_verdef` with the functor of `find_verdef_version_index`. -/
def findVerdef (lib : Library) (vi : VersionInfo) : List Verdef → Option ℕ
  | [] => some kVersymGlobal
  | d :: rest =>
    if d.vdVersion ≠ 1 then none
    else if d.isBase then findVerdef lib vi rest
    else if d.vdCnt = 0 then none
    else if d.vdHash = vi.elfHash then
      match lib.getString d.vdaName with
      | none => none
      | some i => if cstringAt lib.strtab i vi.name.bytes then some d.vdNdx
        else findVerdef lib vi rest
    else findVerdef lib vi rest

def findVerdefVersionIndex (lib : Library) : Option VersionInfo → Option ℕ
  | none => some kVersymNotNeeded
  | some vi => findVerdef lib vi lib.verdefs

section
variable (kBloomMaskBits : ℕ)

def bloomTest (lib : Library) (hash : ℕ) : ℕ :=
  let wordNum := (hash / kBloomMaskBits) &&& lib.gnuMaskwords
  let bloomWord := lib.gnuBloomFilter wordNum
  let h1 := hash % kBloomMaskBits
  let h2 := (hash >>> lib.gnuShift2) % kBloomMaskBits
  1 &&& (bloomWord >>> h1) &&& (bloomWord >>> h2)

/-- The do-while loop of `gnu_lookup`. -/
def gnuLookupChain (lib : Library) (name : CString) (hash verneed : ℕ) : ℕ → ℕ → Option (Option ℕ)
  | 0, _ => none
  | fuel + 1, n =>
    if lib.symbols ≤ n then none
    else
      let next := if lib.gnuChain n &&& 1 = 0 then gnuLookupChain lib name hash verneed fuel (n + 1)
        else some none
      if (lib.gnuChain n ^^^ hash) >>> 1 = 0 ∧ checkSymbolVersion lib.versym n verneed then
        match lib.getString (lib.symtab n).stName with
        | none => none
        | some i =>
          if cstringAt lib.strtab i name.bytes ∧
            isSymbolGlobalAndDefined (lib.symtab n) then some (some n) else next
      else next

/-- What a GNU hash lookup does with its tables on the way to a chain. -/
inductive Access where
  | bloomWord (i : ℕ)
  | divideBy (n : ℕ)
  | bucket (i : ℕ)
  deriving DecidableEq

/-- `gnu_lookup` with its accesses in order. -/
def gnuLookupLogged (lib : Library) (name : CString) (vi : Option VersionInfo) :
    Option (Option ℕ) × List Access :=
  let hash := (calculateGnuHash name).1
  let log := [.bloomWord ((hash / kBloomMaskBits) &&& lib.gnuMaskwords)]
  if bloomTest kBloomMaskBits lib hash = 0 then (some none, log)
  else
    let log := log ++ [.divideBy lib.gnuNbucket]
    if lib.gnuNbucket = 0 then (none, log)
    else
      let log := log ++ [.bucket (hash % lib.gnuNbucket)]
      let n := lib.gnuBucket (hash % lib.gnuNbucket)
      if n = 0 then (some none, log)
      else
        match findVerdefVersionIndex lib vi with
        | none => (none, log)
        | some verneed => (gnuLookupChain lib name hash verneed lib.symbols n, log)

def gnuLookup (lib : Library) (name : CString) (vi : Option VersionInfo) : Option (Option ℕ) :=
  (gnuLookupLogged kBloomMaskBits lib name vi).1

/-- The loop of `elf_lookup` over a chain, which ends with index 0. -/
def elfLookupChain (lib : Library) (name : CString) (verneed : ℕ) : ℕ → ℕ → Option (Option ℕ)
  | 0, n => if n = 0 then some none else none
  | fuel + 1, n =>
    if n = 0 then some none
    else if lib.symbols ≤ n then none
    else if checkSymbolVersion lib.versym n verneed then
      match lib.getString (lib.symtab n).stName with
      | none => none
      | some i =>
        if cstringAt lib.strtab i name.bytes ∧
          isSymbolGlobalAndDefined (lib.symtab n) then some (some n)
        else elfLookupChain lib name verneed fuel (lib.chain n)
    else elfLookupChain lib name verneed fuel (lib.chain n)

def elfLookup (lib : Library) (name : CString) (vi : Option VersionInfo) : Option (Option ℕ) :=
  match findVerdefVersionIndex lib vi with
  | none => none
  | some verneed =>
    if lib.nbucket = 0 then none
    else elfLookupChain lib name verneed lib.symbols
      (lib.bucket (calculateElfHash name % lib.nbucket))

def findSymbolByName (lib : Library) (name : CString) (vi : Option VersionInfo) :
    Option (Option ℕ) :=
  if lib.isGnuHash then gnuLookup kBloomMaskBits lib name vi else elfLookup lib name vi

/-- The inlined chain search: the version index is computed when the first hash matches, and the
name has to fit into the string table. -/
def chainSearch (lib : Library) (name : CString) (vi : Option VersionInfo) (hash nameLen : ℕ) :
    ℕ → ℕ → ℕ → Bool → Option (Option ℕ)
  | 0, _, _, _ => none
  | fuel + 1, symIdx, verneed, calculated =>
    if lib.symbols ≤ symIdx then none
    else
      let next := fun verneed calculated =>
        if lib.gnuChain symIdx &&& 1 = 0 then
          chainSearch lib name vi hash nameLen fuel (symIdx + 1) verneed calculated
        else some none
      if lib.gnuChain symIdx >>> 1 = hash >>> 1 then
        match if vi.isSome && !calculated then findVerdefVersionIndex lib vi else some verneed with
        | none => none
        | some verneed =>
          if checkSymbolVersion lib.versym symIdx verneed ∧
            (lib.symtab symIdx).stName + nameLen + 1 ≤ lib.strtabSize ∧
            cstringAt lib.strtab (lib.symtab symIdx).stName name.bytes ∧
            isSymbolGlobalAndDefined (lib.symtab symIdx) then some (some symIdx)
          else next verneed (calculated || vi.isSome)
      else next verneed calculated

/-- The lookup data has no Bloom filter. -/
def Library.needsSysvLookup (lib : Library) : Bool := !lib.isGnuHash

/-- The loop of `soinfo_do_lookup_impl` at one library, with the accesses to its GNU tables. -/
def lookupIn (isGeneral : Bool) (name : CString) (vi : Option VersionInfo) (lib : Library) :
    Option (Option ℕ) × List Access :=
  let (hash, nameLen) := calculateGnuHash name
  if isGeneral && lib.needsSysvLookup then (findSymbolByName kBloomMaskBits lib name vi, [])
  else if lib.needsSysvLookup then (none, [])
  else
    let log := [.bloomWord ((hash / kBloomMaskBits) &&& lib.gnuMaskwords)]
    if bloomTest kBloomMaskBits lib hash = 1 then
      let log := log ++ [.divideBy lib.gnuNbucket]
      if lib.gnuNbucket = 0 then (none, log)
      else
        let log := log ++ [.bucket (hash % lib.gnuNbucket)]
        let symIdx := lib.gnuBucket (hash % lib.gnuNbucket)
        if symIdx ≠ 0 then
          (chainSearch lib name vi hash nameLen lib.symbols symIdx kVersymNotNeeded false, log)
        else (some none, log)
    else (some none, log)

def soinfoDoLookupImpl (isGeneral : Bool) (name : CString) (vi : Option VersionInfo) :
    List Library → Option (Option (Library × ℕ))
  | [] => some none
  | lib :: rest =>
    match (lookupIn kBloomMaskBits isGeneral name vi lib).1 with
    | none => none
    | some (some sym) => some (some (lib, sym))
    | some none => soinfoDoLookupImpl isGeneral name vi rest

end

def sysvCount (libs : List Library) : ℕ := libs.countP Library.needsSysvLookup

/-- The DT_SYMBOLIC slot, if set, and the groups. The counter says whether the fast loop may be
used. -/
structure SymbolLookupList where
  debugLookup : Bool
  reserved : Bool
  symbolic : Option Library
  libs : List Library
  slowPathCount : ℕ
  counted : slowPathCount = debugLookup.toNat + sysvCount symbolic.toList + sysvCount libs

def SymbolLookupList.ofSoinfo (debugLookup : Bool) (si : Library) : SymbolLookupList where
  debugLookup := debugLookup
  reserved := false
  symbolic := none
  libs := [si]
  slowPathCount := debugLookup.toNat + si.needsSysvLookup.toNat
  counted := by cases h : si.needsSysvLookup <;> simp [sysvCount, h]

theorem foldl_slowPathCount (libs n) :
    libs.foldl (fun n si => n + si.needsSysvLookup.toNat) n = n + sysvCount libs := by
  induction libs generalizing n with
  | nil => rfl
  | cons si rest ih =>
    rw [foldl_cons, ih, sysvCount, sysvCount]
    cases h : si.needsSysvLookup <;> simp [h]
    omega

def SymbolLookupList.ofGroups (debugLookup : Bool) (globalGroup localGroup : List Library) :
    SymbolLookupList where
  debugLookup := debugLookup
  reserved := true
  symbolic := none
  libs := globalGroup ++ localGroup
  slowPathCount := localGroup.foldl (fun n si => n + si.needsSysvLookup.toNat)
    (globalGroup.foldl (fun n si => n + si.needsSysvLookup.toNat) debugLookup.toNat)
  counted := by
    rw [foldl_slowPathCount, foldl_slowPathCount]
    simp [sysvCount, Nat.add_assoc]

def SymbolLookupList.setDtSymbolicLib (l : SymbolLookupList) (lib : Option Library) :
    Option SymbolLookupList :=
  if l.reserved then
    some
      { l with
        symbolic := lib
        slowPathCount := l.slowPathCount - sysvCount l.symbolic.toList + sysvCount lib.toList
        counted := by have h := l.counted; omega }
  else none

/-- From `begin_` to `end_`. -/
def SymbolLookupList.order (l : SymbolLookupList) : List Library := l.symbolic.toList ++ l.libs

def SymbolLookupList.needsSlowPath (l : SymbolLookupList) : Bool := 0 < l.slowPathCount

def soinfoDoLookup (kBloomMaskBits : ℕ) (name : CString) (vi : Option VersionInfo)
    (lookupList : SymbolLookupList) : Option (Option (Library × ℕ)) :=
  if lookupList.needsSlowPath then
    soinfoDoLookupImpl kBloomMaskBits true name vi lookupList.order
  else soinfoDoLookupImpl kBloomMaskBits false name vi lookupList.order

/-- The name at `i` ends inside the string table. -/
def Terminated (lib : Library) (i : ℕ) : Prop :=
  ∃ k, i + k < lib.strtabSize ∧ lib.strtab (i + k) = 0

/-- The chain from `n` ends with index 0 after at most `k` symbols. -/
def sysvChainEnds (lib : Library) : ℕ → ℕ → Bool
  | 0, n => n == 0
  | k + 1, n => n == 0 || decide (n < lib.symbols) && sysvChainEnds lib k (lib.chain n)

/-- Tables as a static linker writes them: names end in the string table, versions are readable,
chains end in the symbol table. -/
structure WellFormed (lib : Library) : Prop where
  names : ∀ n < lib.symbols, Terminated lib (lib.symtab n).stName
  verdefs : ∀ d ∈ lib.verdefs, d.vdVersion = 1 ∧
    (d.isBase ∨ d.vdCnt ≠ 0 ∧ d.vdaName < lib.strtabSize)
  gnu : lib.isGnuHash → lib.gnuNbucket ≠ 0 ∧ ∀ b < lib.gnuNbucket, lib.gnuBucket b ≠ 0 →
    ∃ m, lib.gnuBucket b ≤ m ∧ m < lib.symbols ∧ lib.gnuChain m &&& 1 ≠ 0
  sysv : lib.isGnuHash = false → lib.nbucket ≠ 0 ∧ ∀ b < lib.nbucket,
    sysvChainEnds lib lib.symbols (lib.bucket b)

def firstDefinition (kBloomMaskBits : ℕ) (name : CString) (vi : Option VersionInfo) :
    List Library → Option (Option (Library × ℕ))
  | [] => some none
  | lib :: rest =>
    match findSymbolByName kBloomMaskBits lib name vi with
    | none => none
    | some (some sym) => some (some (lib, sym))
    | some none => firstDefinition kBloomMaskBits name vi rest

section
variable {lib : Library} {name : CString} {vi : Option VersionInfo}

theorem cstringAt_fits {mem l} (hl : 0 ∉ l) {i k}
    (h : cstringAt mem i l) (hk : mem (i + k) = 0) : l.length ≤ k := by
  induction l generalizing i k with
  | nil => exact zero_le _
  | cons c l ih =>
    obtain ⟨hc, hl'⟩ := not_or.mp (mt List.mem_cons.mpr hl)
    simp only [cstringAt, Bool.and_eq_true, beq_iff_eq] at h
    cases k with
    | zero => exact absurd (hk.symm.trans h.1) hc
    | succ k =>
      have hr := ih hl' (k := k) h.2 (by rw [← hk]; congr 1; omega)
      rw [length_cons]
      omega

theorem findVerdef_isSome (v) {l}
    (h : ∀ d ∈ l, d.vdVersion = 1 ∧ (d.isBase ∨ d.vdCnt ≠ 0 ∧ d.vdaName < lib.strtabSize)) :
    ∃ n, findVerdef lib v l = some n := by
  induction l with
  | nil => exact ⟨_, rfl⟩
  | cons d rest ih =>
    obtain ⟨n, hn⟩ := ih fun e he => h e (mem_cons_of_mem _ he)
    obtain ⟨hv, hd⟩ := h d mem_cons_self
    rw [findVerdef, if_neg (not_not.mpr hv)]
    by_cases hb : d.isBase
    · exact ⟨n, by rw [if_pos hb, hn]⟩
    obtain ⟨hc, hnm⟩ := hd.resolve_left hb
    rw [if_neg hb, if_neg hc]
    split
    · have hg : lib.getString d.vdaName = some d.vdaName := if_neg (not_le.mpr hnm)
      rw [hg]
      dsimp only
      split
      · exact ⟨_, rfl⟩
      · exact ⟨n, hn⟩
    · exact ⟨n, hn⟩

theorem xor_shiftRight_eq_zero (a b) : (a ^^^ b) >>> 1 = 0 ↔ a >>> 1 = b >>> 1 := by
  rw [shiftRight_xor_distrib, xor_eq_zero_iff]

theorem bloomTest_le_one (kBloomMaskBits lib hash) : bloomTest kBloomMaskBits lib hash ≤ 1 := by
  unfold bloomTest
  rw [Nat.and_assoc]
  exact and_le_left

variable (h : WellFormed lib)
include h

theorem WellFormed.version (vi) : ∃ n, findVerdefVersionIndex lib vi = some n := by
  cases vi with
  | none => exact ⟨_, rfl⟩
  | some v => exact findVerdef_isSome v h.verdefs

theorem WellFormed.getString {n} (hn : n < lib.symbols) :
    lib.getString (lib.symtab n).stName = some (lib.symtab n).stName := by
  obtain ⟨k, hk, -⟩ := h.names n hn
  exact if_neg (by omega)

theorem WellFormed.fits {n} (hn : n < lib.symbols)
    (hnm : cstringAt lib.strtab (lib.symtab n).stName name.bytes) :
    (lib.symtab n).stName + (calculateGnuHash name).2 + 1 ≤ lib.strtabSize := by
  obtain ⟨k, hk, hz⟩ := h.names n hn
  have hl := cstringAt_fits name.nonzero hnm hz
  simp only [calculateGnuHash]
  omega

theorem chainSearch_eq {hash v}
    (hv : findVerdefVersionIndex lib vi = some v) (fuel n verneed calculated)
    (hvr : verneed = v ∨ calculated = false ∧ vi.isSome) :
    chainSearch lib name vi hash (calculateGnuHash name).2 fuel n verneed calculated =
      gnuLookupChain lib name hash v fuel n := by
  induction fuel generalizing n verneed calculated with
  | zero => rfl
  | succ fuel ih =>
    rw [chainSearch, gnuLookupChain]
    by_cases hn : lib.symbols ≤ n
    · rw [if_pos hn, if_pos hn]
    rw [if_neg hn, if_neg hn]
    have hl := not_le.mp hn
    have hvn : (if (vi.isSome && !calculated) = true then findVerdefVersionIndex lib vi
        else some verneed) = some v := by
      split
      · exact hv
      rename_i hno
      rcases hvr with rfl | ⟨hc, hs⟩
      · rfl
      · exact absurd (by simp [hc, hs]) hno
    simp only [hvn, h.getString hl, xor_shiftRight_eq_zero]
    by_cases hh : lib.gnuChain n >>> 1 = hash >>> 1
    · have hnx := ih (n + 1) v (calculated || vi.isSome) (.inl rfl)
      by_cases hvs : checkSymbolVersion lib.versym n v
      · by_cases hnm : cstringAt lib.strtab (lib.symtab n).stName name.bytes
        · have hf := h.fits hl hnm
          simp [hh, hvs, hnm, hf, hnx]
        · simp [hh, hvs, hnm, hnx]
      · simp [hh, hvs, hnx]
    · simp [hh, ih (n + 1) verneed calculated hvr]

theorem gnuLookupChain_isSome {hash v fuel n m} (hnm : n ≤ m)
    (hm : m < lib.symbols) (hed : lib.gnuChain m &&& 1 ≠ 0) (hf : m < n + fuel) :
    ∃ r, gnuLookupChain lib name hash v fuel n = some r := by
  induction fuel generalizing n with
  | zero => omega
  | succ fuel ih =>
    rw [gnuLookupChain, if_neg (by omega)]
    have hn : ∃ r, (if lib.gnuChain n &&& 1 = 0 then gnuLookupChain lib name hash v fuel (n + 1)
        else some none) = some r := by
      split
      · rename_i hz
        have hne : n ≠ m := by
          rintro rfl
          exact hed hz
        exact ih (by omega) (by omega)
      · exact ⟨_, rfl⟩
    rw [h.getString (by omega)]
    dsimp only
    split
    · split
      · exact ⟨_, rfl⟩
      · exact hn
    · exact hn

theorem elfLookupChain_isSome {v fuel n}
    (hed : sysvChainEnds lib fuel n) : ∃ r, elfLookupChain lib name v fuel n = some r := by
  induction fuel generalizing n with
  | zero =>
    have hn : n = 0 := by simpa [sysvChainEnds] using hed
    exact ⟨none, by rw [elfLookupChain, if_pos hn]⟩
  | succ fuel ih =>
    rw [elfLookupChain]
    by_cases hn : n = 0
    · exact ⟨none, if_pos hn⟩
    have hrs : n < lib.symbols ∧ sysvChainEnds lib fuel (lib.chain n) := by
      simpa [sysvChainEnds, hn] using hed
    obtain ⟨r, hr⟩ := ih hrs.2
    rw [if_neg hn, if_neg (not_le.mpr hrs.1), h.getString hrs.1]
    dsimp only
    split
    · split
      · exact ⟨_, rfl⟩
      · exact ⟨r, hr⟩
    · exact ⟨r, hr⟩

theorem WellFormed.findSymbolByName_isSome (kBloomMaskBits name vi) :
    ∃ r, findSymbolByName kBloomMaskBits lib name vi = some r := by
  obtain ⟨v, hv⟩ := h.version vi
  unfold findSymbolByName
  split
  · rename_i hg
    obtain ⟨hb, hc⟩ := h.gnu hg
    simp only [gnuLookup, gnuLookupLogged, hb, hv, if_false]
    split
    · exact ⟨_, rfl⟩
    split
    · exact ⟨_, rfl⟩
    rename_i hn
    obtain ⟨m, hnm, hm, hed⟩ := hc _ (mod_lt _ (Nat.pos_of_ne_zero hb)) hn
    exact gnuLookupChain_isSome h hnm hm hed (by omega)
  · rename_i hs
    obtain ⟨hb, hc⟩ := h.sysv (by simpa using hs)
    simp only [elfLookup, hv]
    rw [if_neg hb]
    exact elfLookupChain_isSome h (hc _ (mod_lt _ (Nat.pos_of_ne_zero hb)))

end

section
variable (kBloomMaskBits : ℕ) (name : CString) (vi : Option VersionInfo) {libs : List Library}

theorem soinfoDoLookupImpl_eq_first {isGeneral} (hw : ∀ lib ∈ libs, WellFormed lib)
    (hf : isGeneral = false → ∀ lib ∈ libs, lib.needsSysvLookup = false) :
    soinfoDoLookupImpl kBloomMaskBits isGeneral name vi libs =
      firstDefinition kBloomMaskBits name vi libs := by
  induction libs with
  | nil => rfl
  | cons lib rest ih =>
    have hr := ih (fun l hl => hw l (mem_cons_of_mem _ hl))
      fun hg l hl => hf hg l (mem_cons_of_mem _ hl)
    have hlb := hw lib mem_cons_self
    suffices hl : (lookupIn kBloomMaskBits isGeneral name vi lib).1 =
        findSymbolByName kBloomMaskBits lib name vi by
      rw [soinfoDoLookupImpl, firstDefinition, hr, hl]
    unfold lookupIn
    cases hs : lib.needsSysvLookup with
    | true =>
      have hgn : isGeneral := by
        cases hg : isGeneral with
        | true => rfl
        | false => rw [hf hg lib mem_cons_self] at hs; cases hs
      simp only [hgn, Bool.and_self, if_true]
    | false =>
      have hgu : lib.isGnuHash := by simpa [Library.needsSysvLookup] using hs
      obtain ⟨hb, -⟩ := hlb.gnu hgu
      obtain ⟨v, hv⟩ := hlb.version vi
      have hst : kVersymNotNeeded = v ∨ false = false ∧ vi.isSome := by
        cases vi with
        | none => exact .inl (Option.some.inj hv)
        | some _ => exact .inr ⟨rfl, rfl⟩
      have hsa : ∀ n, chainSearch lib name vi (calculateGnuHash name).1
          (calculateGnuHash name).2 lib.symbols n kVersymNotNeeded false =
          gnuLookupChain lib name (calculateGnuHash name).1 v lib.symbols n := fun n =>
        chainSearch_eq hlb hv lib.symbols n kVersymNotNeeded false hst
      simp only [Bool.and_false, Bool.false_eq_true, if_false, findSymbolByName, hgu, if_true,
        gnuLookup, gnuLookupLogged, hb, hv, hsa]
      have hbo := bloomTest_le_one kBloomMaskBits lib (calculateGnuHash name).1
      rcases Nat.le_one_iff_eq_zero_or_eq_one.mp hbo with h0 | h1
      · simp [h0]
      · by_cases hn : lib.gnuBucket ((calculateGnuHash name).1 % lib.gnuNbucket) = 0
        all_goals simp [h1, hn]

theorem firstDefinition_spec (hw : ∀ lib ∈ libs, WellFormed lib) :
    ∃ r, firstDefinition kBloomMaskBits name vi libs = some r ∧
      (r = none ↔ ∀ lib ∈ libs, findSymbolByName kBloomMaskBits lib name vi = some none) ∧
      ∀ lib sym, r = some (lib, sym) → ∃ before after, libs = before ++ lib :: after ∧
        findSymbolByName kBloomMaskBits lib name vi = some (some sym) ∧
        ∀ l ∈ before, findSymbolByName kBloomMaskBits l name vi = some none := by
  induction libs with
  | nil => exact ⟨none, rfl, by simp, by simp⟩
  | cons lib rest ih =>
    obtain ⟨r, hr, hn, hft⟩ := ih fun l hl => hw l (mem_cons_of_mem _ hl)
    obtain ⟨found, hf⟩ :=
      (hw lib mem_cons_self).findSymbolByName_isSome kBloomMaskBits name vi
    rw [firstDefinition, hf]
    cases found with
    | none =>
      refine ⟨r, hr, ?_, ?_⟩
      · rw [hn]
        simp [hf]
      intro l sym hl
      obtain ⟨before, after, hs, hl, hb⟩ := hft l sym hl
      refine ⟨lib :: before, after, by rw [hs]; rfl, hl, fun l' hl' => ?_⟩
      rcases List.mem_cons.mp hl' with rfl | hl'
      · exact hf
      · exact hb l' hl'
    | some sym =>
      refine ⟨some (lib, sym), rfl, by simp [hf], fun l sym' hl => ?_⟩
      cases hl
      exact ⟨[], rest, rfl, hf, by simp⟩

theorem SymbolLookupList.fast {l : SymbolLookupList} (h : l.needsSlowPath = false) :
    ∀ lib ∈ l.order, lib.needsSysvLookup = false := by
  have hcd := l.counted
  have hz : l.slowPathCount = 0 := by simpa [SymbolLookupList.needsSlowPath] using h
  have hc : sysvCount l.order = 0 := by
    have ha : sysvCount l.order = sysvCount l.symbolic.toList + sysvCount l.libs :=
      countP_append
    omega
  intro lib hl
  simpa using List.countP_eq_zero.mp hc lib hl

/-- A lookup over well-formed libraries comes back with the symbol of the first library, in lookup
order, that finds one by itself, and with none exactly when none does; so does the general loop. -/
theorem soinfoDoLookup_first (l : SymbolLookupList) (hwf : ∀ lib ∈ l.order, WellFormed lib) :
    ∃ r, soinfoDoLookup kBloomMaskBits name vi l = some r ∧
      soinfoDoLookupImpl kBloomMaskBits true name vi l.order = some r ∧
      (r = none ↔ ∀ lib ∈ l.order, findSymbolByName kBloomMaskBits lib name vi = some none) ∧
      ∀ lib sym, r = some (lib, sym) → ∃ before after, l.order = before ++ lib :: after ∧
        findSymbolByName kBloomMaskBits lib name vi = some (some sym) ∧
        ∀ l ∈ before, findSymbolByName kBloomMaskBits l name vi = some none := by
  obtain ⟨r, hr, hn, hf⟩ := firstDefinition_spec kBloomMaskBits name vi hwf
  have hg : soinfoDoLookupImpl kBloomMaskBits true name vi l.order =
      firstDefinition kBloomMaskBits name vi l.order :=
    soinfoDoLookupImpl_eq_first kBloomMaskBits name vi hwf (by simp)
  refine ⟨r, ?_, hg.trans hr, hn, hf⟩
  unfold soinfoDoLookup
  split
  · exact hg.trans hr
  rename_i hs
  have hfa := SymbolLookupList.fast (l := l) (by simpa using hs)
  exact (soinfoDoLookupImpl_eq_first kBloomMaskBits name vi hwf fun _ => hfa).trans hr

end

def symbolA : CString := ⟨[97], by decide⟩

/-- A library that defines the symbol a. Its string table is a zero byte and the name with its
terminator, of which only `size` bytes are said to belong to it. -/
def oneSymbol (size : ℕ) : Library where
  id := 1
  isGnuHash := true
  strtab := fun i => if i = 1 then 97 else 0
  strtabSize := size
  symbols := 2
  symtab := fun n => if n = 1 then ⟨1, stbGlobal, 0, 1, 0x1000⟩ else ⟨0, 0, 0, 0, 0⟩
  versym := none
  verdefs := []
  gnuMaskwords := 0
  gnuShift2 := 6
  gnuBloomFilter := fun _ => 2 ^ 64 - 1
  gnuNbucket := 1
  gnuBucket := fun _ => 1
  gnuChain := fun _ => (calculateGnuHash symbolA).1 ||| 1
  nbucket := 0
  bucket := fun _ => 0
  chain := fun _ => 0

/-- The terminator lies just after the string table: `find_symbol_by_name` finds the symbol and
the lookup over the list does not. -/
theorem unterminated_name_is_not_found :
    findSymbolByName 64 (oneSymbol 2) symbolA none = some (some 1) ∧
      (soinfoDoLookup 64 symbolA none (.ofGroups false [] [oneSymbol 2])).map Option.isSome =
        some false := by
  decide +kernel

theorem oneSymbol_wellFormed : WellFormed (oneSymbol 3) := by
  refine ⟨?_, by simp [oneSymbol], fun _ => ⟨by decide, ?_⟩, ?_⟩
  · intro n hn
    by_cases h : n = 1
    · subst h
      exact ⟨1, by decide, by decide⟩
    · exact ⟨0, by simp [oneSymbol, h], by simp [oneSymbol, h]⟩
  · intro b _ _
    exact ⟨1, le_rfl, by decide, by decide +kernel⟩
  · nofun

def emptySysv : Library := { oneSymbol 3 with id := 2, isGnuHash := false, nbucket := 1 }

theorem emptySysv_wellFormed : WellFormed emptySysv where
  names := oneSymbol_wellFormed.names
  verdefs := oneSymbol_wellFormed.verdefs
  gnu := nofun
  sysv _ := ⟨by decide, fun _ _ => rfl⟩

theorem soinfoDoLookup_first_one_symbol : ∃ r, r ≠ none ∧
    soinfoDoLookup 64 symbolA none (.ofGroups false [] [emptySysv, oneSymbol 3]) = some r := by
  have hwf : ∀ lib ∈ [emptySysv, oneSymbol 3], WellFormed lib := by
    simp [emptySysv_wellFormed, oneSymbol_wellFormed]
  obtain ⟨r, hr, -, hn, -⟩ := soinfoDoLookup_first 64 symbolA none
    (.ofGroups false [] [emptySysv, oneSymbol 3]) hwf
  refine ⟨r, fun h => ?_, hr⟩
  have hfd := hn.mp h (oneSymbol 3) (mem_cons_of_mem _ mem_cons_self)
  have hf : findSymbolByName 64 (oneSymbol 3) symbolA none = some (some 1) := by
    decide +kernel
  cases hf.symm.trans hfd

def dtHash : ℕ := 4
def dtGnuHash : ℕ := 0x6ffffef5

structure Dyn where
  dTag : ℕ
  dVal : ℕ

/-- What `prelink_image` sets for the hash tables, by address. -/
structure HashTables where
  nbucket : ℕ := 0
  nchain : ℕ := 0
  bucket : ℕ := 0
  chain : ℕ := 0
  gnuNbucket : ℕ := 0
  gnuMaskwords : ℕ := 0
  gnuShift2 : ℕ := 0
  gnuBloomFilter : ℕ := 0
  gnuBucket : ℕ := 0
  gnuChain : ℕ := 0
  isGnuHash : Bool := false

/-- A zero passes too. -/
def powerof2 (x : ℕ) : Bool := x = 0 ∨ (x - 1) &&& x = 0

variable (kBloomMaskBits : ℕ) (u32 : ℕ → BitVec 32) (loadBias : ℕ)

/-- The word of a table at the address that an entry has. -/
def Dyn.word (d : Dyn) (i : ℕ) : ℕ := (u32 ((loadBias + d.dVal + 4 * i) % 2 ^ kBloomMaskBits)).toNat

/-- The cases of the two tables; the others `accept` an entry. -/
def extractTables (accept : Dyn → Bool) (t : HashTables) (d : Dyn) : Option HashTables :=
  let table := loadBias + d.dVal
  let word := d.word kBloomMaskBits u32 loadBias
  if d.dTag = dtHash then
    some { t with
      nbucket := word 0
      nchain := word 1
      bucket := table + 8
      chain := table + 8 + word 0 * 4 }
  else if d.dTag = dtGnuHash then
    let gnuBucket := table + 16 + word 2 * (kBloomMaskBits / 8)
    if powerof2 (word 2) then
      some { t with
        gnuNbucket := word 0
        gnuMaskwords := (word 2 + (2 ^ 32 - 1)) % 2 ^ 32
        gnuShift2 := word 3
        gnuBloomFilter := table + 16
        gnuBucket := gnuBucket
        gnuChain := ((gnuBucket + word 0 * 4 - word 1 * 4 : ℤ) % 2 ^ kBloomMaskBits).toNat
        isGnuHash := true }
    else none
  else if accept d then some t else none

/-- `dynamic` is the section up to DT_NULL; `valid` are the other checks. -/
def prelinkImage (accept : Dyn → Bool) (valid : Bool) (dynamic : List Dyn) : Option HashTables := do
  let t ← dynamic.foldlM (extractTables kBloomMaskBits u32 loadBias accept) {}
  if (t.nbucket = 0 ∧ t.gnuNbucket = 0) ∨ valid = false then none else some t

/-- The library with the tables that have been set up. -/
def HashTables.library (t : HashTables) (lib : Library) : Library :=
  let at32 := fun table i => (u32 ((table + 4 * i) % 2 ^ kBloomMaskBits)).toNat
  { lib with
    isGnuHash := t.isGnuHash
    gnuMaskwords := t.gnuMaskwords
    gnuShift2 := t.gnuShift2
    gnuBloomFilter := fun i =>
      if kBloomMaskBits = 64 then
        at32 t.gnuBloomFilter (2 * i) + 2 ^ 32 * at32 t.gnuBloomFilter (2 * i + 1)
      else at32 t.gnuBloomFilter i
    gnuNbucket := t.gnuNbucket
    gnuBucket := at32 t.gnuBucket
    gnuChain := at32 t.gnuChain
    nbucket := t.nbucket
    bucket := at32 t.bucket
    chain := at32 t.chain }

/-- The entry whose table is used. -/
def gnuHashEntry (dynamic : List Dyn) : Option Dyn :=
  dynamic.reverse.find? fun d => d.dTag = dtGnuHash

/-- Inside a bloom filter of `maskwords` words and a table of `nbucket` buckets, and no division by
zero. -/
def Access.Allowed (maskwords nbucket : ℕ) : Access → Prop
  | bloomWord i => i < maskwords
  | divideBy n => n ≠ 0
  | bucket i => i < nbucket

variable {kBloomMaskBits u32 loadBias} {accept : Dyn → Bool} {dynamic : List Dyn} {d : Dyn}
  {t t' : HashTables}

theorem extractTables_other (hd : d.dTag ≠ dtGnuHash)
    (h : extractTables kBloomMaskBits u32 loadBias accept t d = some t') :
    t'.gnuNbucket = t.gnuNbucket ∧ t'.gnuMaskwords = t.gnuMaskwords ∧
      t'.isGnuHash = t.isGnuHash := by
  rw [extractTables, if_neg hd] at h
  split at h
  · cases h
    exact ⟨rfl, rfl, rfl⟩
  split at h
  · cases h
    exact ⟨rfl, rfl, rfl⟩
  · cases h

theorem foldlM_tables (hey : gnuHashEntry dynamic = some d)
    (h : dynamic.foldlM (extractTables kBloomMaskBits u32 loadBias accept) t = some t') :
    t'.gnuNbucket = d.word kBloomMaskBits u32 loadBias 0 ∧
      t'.gnuMaskwords = (d.word kBloomMaskBits u32 loadBias 2 + (2 ^ 32 - 1)) % 2 ^ 32 ∧
      t'.isGnuHash := by
  induction dynamic using reverseRecOn generalizing t' with
  | nil => cases hey
  | append_singleton dynamic e ih =>
    rw [foldlM_append, bind_eq_bind, bind_eq_some_iff] at h
    obtain ⟨s, hs, h⟩ := h
    rw [foldlM_cons, bind_eq_bind, bind_eq_some_iff] at h
    obtain ⟨_, he, h⟩ := h
    cases h
    rw [gnuHashEntry, reverse_append, reverse_singleton, singleton_append, find?_cons] at hey
    split at hey <;> rename_i ht
    · cases hey
      rw [decide_eq_true_eq] at ht
      rw [extractTables, if_neg (by rw [ht]; decide), if_pos ht] at he
      split at he <;> cases he
      exact ⟨rfl, rfl, rfl⟩
    · obtain ⟨hn, hm, hg⟩ := extractTables_other (of_decide_eq_false ht) he
      rw [hn, hm, hg]
      exact ih hey hs

theorem lookupIn_log {lib : Library} (h : lib.isGnuHash) (isGeneral name vi) :
    (lookupIn kBloomMaskBits isGeneral name vi lib).2 =
      (gnuLookupLogged kBloomMaskBits lib name vi).2 := by
  have hs : lib.needsSysvLookup = false := by simp [Library.needsSysvLookup, h]
  have hb := bloomTest_le_one kBloomMaskBits lib (calculateGnuHash name).1
  unfold lookupIn gnuLookupLogged
  rcases Nat.le_one_iff_eq_zero_or_eq_one.mp hb with h0 | h1
  · simp [hs, h0]
  · simp only [hs, h1]
    grind

theorem gnuLookupLogged_log (lib : Library) (name vi) :
    (gnuLookupLogged kBloomMaskBits lib name vi).2 =
      let hash := (calculateGnuHash name).1
      .bloomWord ((hash / kBloomMaskBits) &&& lib.gnuMaskwords) ::
        if bloomTest kBloomMaskBits lib hash = 0 then []
        else .divideBy lib.gnuNbucket ::
          if lib.gnuNbucket = 0 then [] else [.bucket (hash % lib.gnuNbucket)] := by
  unfold gnuLookupLogged
  grind

/-- In `gnu_lookup` and in the loop over libraries, a lookup keeps to its tables unless the header
has no words for the bloom filter, or no buckets for a name that the filter lets through. -/
theorem gnuLookup_allowed_iff (kBloomMaskBits : ℕ) (u32 : ℕ → BitVec 32) (loadBias : ℕ)
    (accept : Dyn → Bool) (valid : Bool) (dynamic : List Dyn) (t : HashTables) (d : Dyn)
    (lib : Library) (name : CString) (vi : Option VersionInfo) (isGeneral : Bool)
    (h : prelinkImage kBloomMaskBits u32 loadBias accept valid dynamic = some t)
    (hentry : gnuHashEntry dynamic = some d) :
    let word := d.word kBloomMaskBits u32 loadBias
    let lib := t.library kBloomMaskBits u32 lib
    (lookupIn kBloomMaskBits isGeneral name vi lib).2 =
        (gnuLookupLogged kBloomMaskBits lib name vi).2 ∧
      ((∀ a ∈ (gnuLookupLogged kBloomMaskBits lib name vi).2, a.Allowed (word 2) (word 0)) ↔
        word 2 ≠ 0 ∧
          (word 0 ≠ 0 ∨ bloomTest kBloomMaskBits lib (calculateGnuHash name).1 = 0)) := by
  rw [prelinkImage, bind_eq_bind, bind_eq_some_iff] at h
  obtain ⟨t', hf, h⟩ := h
  split at h
  · cases h
  cases h
  obtain ⟨hn, hm, hg⟩ := foldlM_tables hentry hf
  intro word lib
  have hl : word 2 < 2 ^ 32 := BitVec.isLt _
  have hnu : lib.gnuNbucket = word 0 := hn
  have hmk : lib.gnuMaskwords = (word 2 + (2 ^ 32 - 1)) % 2 ^ 32 := hm
  refine ⟨lookupIn_log hg isGeneral name vi, ?_⟩
  rw [gnuLookupLogged_log, hnu, hmk, forall_mem_cons]
  have hw : (calculateGnuHash name).1 / kBloomMaskBits &&& (word 2 + (2 ^ 32 - 1)) % 2 ^ 32 <
      word 2 ↔ word 2 ≠ 0 := by
    refine ⟨by omega, fun h2 => lt_of_le_of_lt and_le_right ?_⟩
    omega
  refine and_congr hw ?_
  split
  · simp [*]
  by_cases h0 : word 0 = 0
  · simp [*, Access.Allowed]
  · simp [*, Access.Allowed, mod_lt, Nat.pos_of_ne_zero h0]

theorem gnuLookup_allowed_iff_ones :
    ∃ t, prelinkImage 64 (fun _ => 1) 0 (fun _ => true) true [⟨dtGnuHash, 0⟩] = some t ∧
      ∀ a ∈ (gnuLookupLogged 64 (t.library 64 (fun _ => 1) (oneSymbol 3)) symbolA none).2,
        a.Allowed 1 1 :=
  ⟨_, rfl, (gnuLookup_allowed_iff 64 (fun _ => 1) 0 (fun _ => true) true [⟨dtGnuHash, 0⟩] _
    ⟨dtGnuHash, 0⟩ _ symbolA none false rfl rfl).2.mpr ⟨by decide, .inl (by decide)⟩⟩

def zeroHeader (addr : ℕ) : BitVec 32 := if addr < 16 then 0 else 0xffffffff

/-- The word of the bloom filter is read at an index far beyond its end, and then the hash is
divided by zero. -/
theorem zero_header_is_accepted :
    ∃ t, prelinkImage 64 zeroHeader 0 (fun _ => true) true [⟨dtHash, 16⟩, ⟨dtGnuHash, 0⟩] = some t ∧
      (gnuLookupLogged 64 (t.library 64 zeroHeader (oneSymbol 3)) symbolA none).2 =
        [.bloomWord 2776, .divideBy 0] :=
  ⟨_, rfl, by decide +kernel⟩

end LinkerLookup
