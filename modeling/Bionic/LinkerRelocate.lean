import Bionic.LinkerLookup
import Bionic.LockstepRuns

/-! The relocation of one library: `process_relocation_impl` in its three modes, the loops over
plain and packed tables, and `soinfo::relocate`. The memory that relocations write is explicit; the
tables that are read are values. A resolver is a function of the memory at the call. -/
namespace LinkerRelocate

open LinkerLookup LockstepRuns

inductive Arch where
  | aarch64
  | arm
  | i386
  | riscv64
  | x8664
  deriving DecidableEq

/-- `__LP64__`, which is also when `USE_RELA` is defined. -/
def Arch.lp64 : Arch → Bool
  | .aarch64 | .riscv64 | .x8664 => true
  | .arm | .i386 => false

/-- `sizeof(ElfW(Addr))`. -/
def Arch.wordSize (a : Arch) : ℕ := if a.lp64 then 8 else 4

def Arch.wrap (a : Arch) (n : ℕ) : ℕ := n % 2 ^ (8 * a.wordSize)

def Arch.sub (a : Arch) (m n : ℕ) : ℕ := a.wrap (m + (2 ^ (8 * a.wordSize) - a.wrap n))

/-- The `R_GENERIC_*` numbers. -/
structure RelocTypes where
  jumpSlot : ℕ
  absolute : ℕ
  globDat : ℕ
  relative : ℕ
  irelative : ℕ
  copy : ℕ
  tlsDtpmod : ℕ
  tlsDtprel : ℕ
  tlsTprel : ℕ
  tlsdesc : ℕ

def rGenericNone : ℕ := 0

def Arch.generic : Arch → RelocTypes
  | .aarch64 => ⟨1026, 257, 1025, 1027, 1032, 1024, 1029, 1028, 1030, 1031⟩
  | .arm => ⟨22, 2, 21, 23, 160, 20, 17, 18, 19, 13⟩
  | .i386 => ⟨7, 1, 6, 8, 42, 5, 35, 36, 14, 41⟩
  | .riscv64 => ⟨5, 2, 2, 3, 58, 4, 7, 9, 11, 12⟩
  | .x8664 => ⟨7, 1, 6, 8, 37, 5, 16, 17, 18, 36⟩

/-- `R_386_PC32` and `R_X86_64_PC32`. -/
def Arch.pc32 : Arch → Option ℕ
  | .i386 | .x8664 => some 2
  | _ => none

def rX866432 : ℕ := 10

def Arch.hasTlsdesc : Arch → Bool
  | .aarch64 | .riscv64 => true
  | _ => false

def Arch.tlsDtvOffset : Arch → ℕ
  | .riscv64 => 0x800
  | _ => 0

def stbLocal : ℕ := 0
def sttSection : ℕ := 3
def sttTls : ℕ := 6
def sttGnuIfunc : ℕ := 10

def isTlsReloc (a : Arch) (type : ℕ) : Bool :=
  type == a.generic.tlsDtpmod || type == a.generic.tlsDtprel || type == a.generic.tlsTprel ||
    type == a.generic.tlsdesc

abbrev Memory := ℕ → UInt8

def Memory.read (mem : Memory) : ℕ → ℕ → ℕ
  | 0, _ => 0
  | size + 1, addr => (mem addr).toNat + 256 * Memory.read mem size (addr + 1)

def Memory.write (mem : Memory) : ℕ → ℕ → ℕ → Memory
  | 0, _, _ => mem
  | size + 1, addr, value =>
    Memory.write (fun a => if a = addr then UInt8.ofNat value else mem a) size (addr + 1)
      (value / 256)

/-- `rel_t`. A table without addends leaves `rAddend` at 0. -/
structure Reloc where
  rOffset : ℕ
  rInfo : ℕ
  rAddend : ℕ
  deriving DecidableEq

def Reloc.rType (a : Arch) (reloc : Reloc) : ℕ :=
  if a.lp64 then reloc.rInfo % 2 ^ 32 else reloc.rInfo % 2 ^ 8

def Reloc.rSym (a : Arch) (reloc : Reloc) : ℕ :=
  if a.lp64 then reloc.rInfo / 2 ^ 32 % 2 ^ 32 else reloc.rInfo / 2 ^ 8 % 2 ^ 24

/-- Without a static offset (`SIZE_MAX`) it belongs to a dlopened library. -/
structure TlsModule where
  staticOffset : Option ℕ
  firstGeneration : ℕ

structure TlsDynamicResolverArg where
  generation : ℕ
  moduleId : ℕ
  offset : ℕ
  deriving DecidableEq

structure Placement where
  loadBias : ℕ
  tls : Option ℕ
  shouldTagMemtagGlobals : Bool

/-- What no relocation changes. -/
structure Relocator where
  arch : Arch
  si : Library
  siStrtabSize : ℕ
  placement : ℕ → Placement
  isLinker : Bool
  shouldUse16kibAppCompat : Bool
  hasTextRelocations : Bool
  protectSegments : Bool
  unprotectSegments : Bool
  debugAny : Bool
  debugStatistics : Bool
  versionInfos : List (Option VersionInfo)
  lookupList : SymbolLookupList
  tlsTpBase : ℕ
  getTlsModule : ℕ → TlsModule
  getTaggedAddress : ℕ → ℕ
  callIfuncResolver : Memory → ℕ → ℕ
  tlsdescResolverUnresolvedWeak : ℕ
  tlsdescResolverStatic : ℕ
  tlsdescResolverDynamic : ℕ
  tlsdescArgAddress : ℕ → ℕ

structure Image where
  mem : Memory
  tlsdescArgs : List TlsDynamicResolverArg
  deferredTlsdescRelocs : List (ℕ × ℕ)

structure LookupCache where
  symVal : ℕ
  found : Option (Library × ℕ)

structure State where
  image : Image
  cache : LookupCache

def LookupCache.empty : LookupCache := ⟨0, none⟩

inductive RelocError where
  | noVersionInfo (symVer : ℕ) (symName : CString)
  | cannotLocate (symName : CString)
  | tlsLocalSection (symType rType : ℕ)
  | tlsLocalSymbol (symName : CString) (symType rType : ℕ)
  | noTlsSegment (symName : Option CString) (foundIn : ℕ)
  | nonTlsSymbol (symName : CString)
  /-- False is returned and no message is set. -/
  | noMessage
  | cantProtectSegments
  | cantUnprotectSegments
  | copyNotSupported
  | ieAccessModel (symName : Option CString) (foundIn : ℕ)
  | unknownReloc (rType : ℕ)
  | versionTracker
  | badAndroidHeader

inductive Stop where
  | failed (error : RelocError)
  | aborted

abbrev OnImage := EStateM Stop Image
abbrev OnState := EStateM Stop State

def onImage {α : Type} (m : OnImage α) : OnState α :=
  zoom State.image (fun image s => { s with image := image }) m

def getVersionInfo (versionInfos : List (Option VersionInfo)) (sourceSymver : ℕ) :
    Option VersionInfo :=
  if sourceSymver < 2 then none else versionInfos[sourceSymver]?.join

/-- From `i` on up to the terminator, or as many as there are. -/
def nameBytes (strtab : ℕ → UInt8) : ℕ → ℕ → List UInt8
  | 0, _ => []
  | n + 1, i => if strtab i = 0 then [] else strtab i :: nameBytes strtab n (i + 1)

theorem zero_not_mem_nameBytes (strtab : ℕ → UInt8) (n i) : 0 ∉ nameBytes strtab n i := by
  induction n generalizing i with
  | zero => simp [nameBytes]
  | succ n ih =>
    unfold nameBytes
    split
    · simp
    rename_i h
    simp only [List.mem_cons, not_or]
    exact ⟨fun h0 => h h0.symm, ih (i + 1)⟩

section
variable (r : Relocator)

def Relocator.own : Placement := r.placement r.si.id

def Relocator.symName (rSym : ℕ) : CString where
  bytes := nameBytes r.si.strtab (r.siStrtabSize - (r.si.symtab rSym).stName)
    (r.si.symtab rSym).stName
  nonzero := zero_not_mem_nameBytes _ _ _

def Relocator.symName? (rSym : ℕ) : Option CString :=
  if rSym = 0 then none else some (r.symName rSym)

def applyMemtagIfMteGlobals (p : Placement) (symAddr : ℕ) : ℕ :=
  if p.shouldTagMemtagGlobals ∧ symAddr ≠ 0 then r.getTaggedAddress symAddr else symAddr

def lookupVersionInfo (sym : ℕ) : Except RelocError (Option VersionInfo) :=
  let symVer := match r.si.versym with
    | none => 0
    | some versym => versym sym
  if symVer ≠ 0 ∧ symVer ≠ 1 then
    match getVersionInfo r.versionInfos symVer with
    | none => .error (.noVersionInfo symVer (r.symName sym))
    | some vi => .ok (some vi)
  else .ok none

/-- The lookup of a symbol that the cache does not have. -/
def searchSymbol (rSym : ℕ) : Except Stop (Option (Library × ℕ)) :=
  match lookupVersionInfo r rSym with
  | .error e => .error (.failed e)
  | .ok vi =>
    match soinfoDoLookup (8 * r.arch.wordSize) (r.symName rSym) vi r.lookupList with
    | none => .error .aborted
    | some found => .ok found

/-- Only a weak reference may stay undefined. -/
def checkFound (rSym : ℕ) (found : Option (Library × ℕ)) : OnState (Option (Library × ℕ)) :=
  if found.isNone ∧ (r.si.symtab rSym).stBind ≠ stbWeak then
    throw (.failed (.cannotLocate (r.symName rSym)))
  else pure found

def lookupSymbol (rSym : ℕ) : OnState (Option (Library × ℕ)) := fun s =>
  if rSym = s.cache.symVal then checkFound r rSym s.cache.found s
  else
    match searchSymbol r rSym with
    | .error stop => .error stop s
    | .ok found => checkFound r rSym found { s with cache := ⟨rSym, found⟩ }

def lookupSymbolUncached (rSym : ℕ) : OnState (Option (Library × ℕ)) := fun s =>
  match searchSymbol r rSym with
  | .error stop => .error stop s
  | .ok found => checkFound r rSym found s

inductive RelocMode where
  | jumpTable
  | typical
  | general
  deriving DecidableEq

def relTarget (reloc : Reloc) : ℕ := r.arch.wrap (reloc.rOffset + r.own.loadBias)

def handleTextProtection (mode : RelocMode) : Bool :=
  if r.arch.lp64 then r.shouldUse16kibAppCompat else mode == .general && r.hasTextRelocations

def resolveSymbolAddress (mem : Memory) (foundIn : Library) (sym : Sym) : ℕ :=
  let addr := r.arch.wrap (sym.stValue + (r.placement foundIn.id).loadBias)
  if sym.stType = sttGnuIfunc then r.callIfuncResolver mem addr else addr

def resolveFound (mode : RelocMode) (foundIn : Library) (sym : Sym) : OnImage ℕ := do
  let shouldProtectSegments := handleTextProtection r mode && foundIn.id == r.si.id &&
    sym.stType == sttGnuIfunc
  if shouldProtectSegments && !r.protectSegments then throw (.failed .noMessage)
  else
    let image ← get
    if shouldProtectSegments && !r.unprotectSegments then throw (.failed .noMessage)
    else pure (resolveSymbolAddress r image.mem foundIn sym)

structure Target where
  foundIn : Option Library
  symAddr : ℕ

variable (lookup : ℕ → OnState (Option (Library × ℕ)))

def resolveTarget (mode : RelocMode) (reloc : Reloc) : OnState Target := do
  let rSym := reloc.rSym r.arch
  if rSym = 0 then pure ⟨none, 0⟩
  else
    match ← lookup rSym with
    | some (foundIn, sym) =>
      let symAddr ← onImage (resolveFound r mode foundIn (foundIn.symtab sym))
      pure ⟨some foundIn, symAddr⟩
    | none =>
      if mode = .general ∧ r.arch.pc32 = some (reloc.rType r.arch) then
        pure ⟨none, relTarget r reloc⟩
      else pure ⟨none, 0⟩

def checkTls (rSym : ℕ) (foundIn : Library) (sym : Option Sym) : OnState Target :=
  if (r.placement foundIn.id).tls = none then
    throw (.failed (.noTlsSegment (r.symName? rSym) foundIn.id))
  else
    match sym with
    | none => pure ⟨some foundIn, 0⟩
    | some sym =>
      if sym.stType ≠ sttTls then throw (.failed (.nonTlsSymbol (r.symName rSym)))
      else pure ⟨some foundIn, sym.stValue⟩

def resolveTlsTarget (reloc : Reloc) : OnState Target := do
  let rSym := reloc.rSym r.arch
  let own := r.si.symtab rSym
  if rSym = 0 then checkTls r rSym r.si none
  else if own.stBind = stbLocal then
    if own.stType = sttSection then
      throw (.failed (.tlsLocalSection own.stType (reloc.rType r.arch)))
    else throw (.failed (.tlsLocalSymbol (r.symName rSym) own.stType (reloc.rType r.arch)))
  else
    match ← lookup rSym with
    | none => pure ⟨none, 0⟩
    | some (foundIn, sym) => checkTls r rSym foundIn (some (foundIn.symtab sym))

/-- Thread-local entries come here in the general mode only. -/
def findTarget (mode : RelocMode) (reloc : Reloc) : OnState Target :=
  if isTlsReloc r.arch (reloc.rType r.arch) then resolveTlsTarget r lookup reloc
  else resolveTarget r lookup mode reloc

def getAddendRel (reloc : Reloc) (mem : Memory) : ℕ :=
  if r.arch.lp64 then reloc.rAddend else mem.read r.arch.wordSize (relTarget r reloc)

def getAddendNorel (reloc : Reloc) : ℕ := if r.arch.lp64 then reloc.rAddend else 0

/-- Through `rel_target`; the value may depend on the memory. -/
def store (size : ℕ) (reloc : Reloc) (value : Memory → ℕ) : OnImage Unit :=
  modify fun image =>
    { image with mem := image.mem.write size (relTarget r reloc) (value image.mem) }

def storeWord (reloc : Reloc) (value : Memory → ℕ) : OnImage Unit :=
  store r r.arch.wordSize reloc fun mem => r.arch.wrap (value mem)

def applyJumpSlot (reloc : Reloc) (target : Target) : OnImage Unit :=
  storeWord r reloc fun _ => target.symAddr + getAddendNorel r reloc

/-- `sym_addr` with its tag, when a library defines the symbol. -/
def taggedSymAddr (target : Target) : ℕ :=
  match target.foundIn with
  | none => target.symAddr
  | some foundIn => applyMemtagIfMteGlobals r (r.placement foundIn.id) target.symAddr

def applyAbsolute (reloc : Reloc) (target : Target) : OnImage Unit :=
  storeWord r reloc fun mem => taggedSymAddr r target + getAddendRel r reloc mem

def applyGlobDat (reloc : Reloc) (target : Target) : OnImage Unit :=
  storeWord r reloc fun _ => taggedSymAddr r target + getAddendNorel r reloc

def applyRelative (reloc : Reloc) : OnImage Unit :=
  storeWord r reloc fun mem =>
    let result := r.arch.wrap (r.own.loadBias + getAddendRel r reloc mem)
    if r.own.shouldTagMemtagGlobals then
      let offset := mem.read 8 (relTarget r reloc)
      r.arch.sub (applyMemtagIfMteGlobals r r.own (r.arch.wrap (result + offset))) offset
    else result

def applyIrelative (reloc : Reloc) : OnImage Unit := do
  if r.isLinker then pure ()
  else
    let image ← get
    let ifuncAddr := r.arch.wrap (r.own.loadBias + getAddendRel r reloc image.mem)
    let handle := handleTextProtection r .general
    if handle && !r.protectSegments then throw (.failed .cantProtectSegments)
    else if handle && !r.unprotectSegments then throw (.failed .cantUnprotectSegments)
    else storeWord r reloc fun _ => r.callIfuncResolver image.mem ifuncAddr

def foundModule (foundIn : Library) : OnImage ℕ :=
  match (r.placement foundIn.id).tls with
  | none => throw .aborted
  | some moduleId => pure moduleId

def applyTlsTprel (reloc : Reloc) (target : Target) : OnImage Unit := do
  match target.foundIn with
  | none => storeWord r reloc fun mem => target.symAddr + getAddendRel r reloc mem
  | some foundIn =>
    let moduleId ← foundModule r foundIn
    match (r.getTlsModule moduleId).staticOffset with
    | none => throw (.failed (.ieAccessModel (r.symName? (reloc.rSym r.arch)) foundIn.id))
    | some staticOffset =>
      storeWord r reloc fun mem =>
        r.arch.sub staticOffset r.tlsTpBase + (target.symAddr + getAddendRel r reloc mem)

/-- `kTlsUninitializedModuleId` is 0. -/
def applyTlsDtpmod (reloc : Reloc) (target : Target) : OnImage Unit := do
  match target.foundIn with
  | none => storeWord r reloc fun _ => 0
  | some foundIn =>
    let moduleId ← foundModule r foundIn
    if moduleId = 0 then throw .aborted else storeWord r reloc fun _ => moduleId

def applyTlsDtprel (reloc : Reloc) (target : Target) : OnImage Unit :=
  storeWord r reloc fun mem =>
    r.arch.sub (target.symAddr + getAddendRel r reloc mem) r.arch.tlsDtvOffset

def writeTlsDescriptor (desc func arg : ℕ) (image : Image) : Image :=
  let mem := image.mem.write r.arch.wordSize desc func
  { image with mem := mem.write r.arch.wordSize (desc + r.arch.wordSize) (r.arch.wrap arg) }

/-- The argument of a dynamic descriptor moves until the vector has its final size, so that its
address is written later. -/
def deferTlsdesc (desc : ℕ) (arg : TlsDynamicResolverArg) (image : Image) : Image :=
  { image with
    tlsdescArgs := image.tlsdescArgs ++ [arg]
    deferredTlsdescRelocs := image.deferredTlsdescRelocs ++ [(desc, image.tlsdescArgs.length)] }

def applyTlsdesc (reloc : Reloc) (target : Target) : OnImage Unit := do
  let addend := reloc.rAddend
  let desc := relTarget r reloc
  match target.foundIn with
  | none => modify (writeTlsDescriptor r desc r.tlsdescResolverUnresolvedWeak addend)
  | some foundIn =>
    let moduleId ← foundModule r foundIn
    let mod := r.getTlsModule moduleId
    match mod.staticOffset with
    | some staticOffset =>
      modify (writeTlsDescriptor r desc r.tlsdescResolverStatic
        (r.arch.sub staticOffset r.tlsTpBase + target.symAddr + addend))
    | none =>
      modify (deferTlsdesc desc
        ⟨mod.firstGeneration, moduleId, r.arch.wrap (target.symAddr + addend)⟩)

def applyGeneral (reloc : Reloc) (target : Target) : OnImage Unit :=
  let rType := reloc.rType r.arch
  let g := r.arch.generic
  if rType = g.irelative then applyIrelative r reloc
  else if rType = g.copy then throw (.failed .copyNotSupported)
  else if rType = g.tlsTprel then applyTlsTprel r reloc target
  else if rType = g.tlsDtpmod then applyTlsDtpmod r reloc target
  else if rType = g.tlsDtprel then applyTlsDtprel r reloc target
  else if r.arch.hasTlsdesc ∧ rType = g.tlsdesc then applyTlsdesc r reloc target
  else if r.arch = .x8664 ∧ rType = rX866432 then
    store r 4 reloc fun _ => target.symAddr + reloc.rAddend
  else if r.arch.pc32 = some rType then
    store r 4 reloc fun mem =>
      r.arch.sub (target.symAddr + getAddendRel r reloc mem) (relTarget r reloc)
  else throw (.failed (.unknownReloc rType))

/-- A fast mode hands over to `general` what it does not handle. -/
def processRelocationImpl (general : Reloc → OnState Unit) (mode : RelocMode) (reloc : Reloc) :
    OnState Unit := do
  let rType := reloc.rType r.arch
  let rSym := reloc.rSym r.arch
  let g := r.arch.generic
  let isGeneral := mode = .general
  if rSym ≠ 0 ∧ r.siStrtabSize ≤ (r.si.symtab rSym).stName then throw .aborted
  else if rType = rGenericNone then pure ()
  else if ¬isGeneral ∧ isTlsReloc r.arch rType then general reloc
  else
    let target ← findTarget r lookup mode reloc
    if (isGeneral ∨ mode = .jumpTable) ∧ rType = g.jumpSlot then
      onImage (applyJumpSlot r reloc target)
    else if (isGeneral ∨ mode = .typical) ∧ rType = g.absolute then
      onImage (applyAbsolute r reloc target)
    else if (isGeneral ∨ mode = .typical) ∧ rType = g.globDat then
      onImage (applyGlobDat r reloc target)
    else if (isGeneral ∨ mode = .typical) ∧ rType = g.relative then
      onImage (applyRelative r reloc)
    else if ¬isGeneral then general reloc
    else onImage (applyGeneral r reloc target)

def processRelocationGeneral (reloc : Reloc) : OnState Unit :=
  processRelocationImpl r lookup (fun _ => throw .aborted) .general reloc

def processRelocation (mode : RelocMode) (reloc : Reloc) : OnState Unit :=
  if mode = .general then processRelocationGeneral r lookup reloc
  else processRelocationImpl r lookup (processRelocationGeneral r lookup) mode reloc

def plainRelocateImpl (mode : RelocMode) (rels : List Reloc) : OnState Unit :=
  rels.forM (processRelocation r lookup mode)

end

/-- `sleb128_decoder::pop_front`, with the bits collected so far. -/
def popFrontFrom (bits : ℕ) : ℕ → ℕ → List UInt8 → Option (ℕ × List UInt8)
  | _, _, [] => none
  | value, shift, byte :: rest =>
    let value := (value ||| ((byte.toNat &&& 127) <<< shift)) % 2 ^ bits
    let shift := shift + 7
    if byte.toNat &&& 128 ≠ 0 then popFrontFrom bits value shift rest
    else if shift < bits ∧ byte.toNat &&& 64 ≠ 0 then
      some (value ||| (2 ^ bits - 1 <<< shift), rest)
    else some (value, rest)

section
variable (a : Arch)

def popFront (decoder : List UInt8) : OnState (ℕ × List UInt8) :=
  match popFrontFrom (8 * a.wordSize) 0 0 decoder with
  | none => throw .aborted
  | some popped => pure popped

def popFrontIf (present : Bool) (known : ℕ) (decoder : List UInt8) : OnState (ℕ × List UInt8) :=
  if present then popFront a decoder else pure (known, decoder)

def groupedByInfo (flags : ℕ) : Bool := flags &&& 1 != 0
def groupedByOffsetDelta (flags : ℕ) : Bool := flags &&& 2 != 0
def groupedByAddend (flags : ℕ) : Bool := flags &&& 4 != 0
def groupHasAddend (flags : ℕ) : Bool := flags &&& 8 != 0

variable (callback : Reloc → OnState Unit)

def packedGroup (flags delta : ℕ) : ℕ → List UInt8 → Reloc → OnState (List UInt8 × Reloc)
  | 0, decoder, reloc => pure (decoder, reloc)
  | n + 1, decoder, reloc => do
    let (offset, decoder) ← popFrontIf a (!groupedByOffsetDelta flags) delta decoder
    let (rInfo, decoder) ← popFrontIf a (!groupedByInfo flags) reloc.rInfo decoder
    let (addend, decoder) ←
      popFrontIf a (a.lp64 && groupHasAddend flags && !groupedByAddend flags) 0 decoder
    let reloc := ⟨a.wrap (reloc.rOffset + offset), rInfo, a.wrap (reloc.rAddend + addend)⟩
    callback reloc
    packedGroup flags delta n decoder reloc

def packedGroupHead (decoder : List UInt8) (reloc : Reloc) :
    OnState (ℕ × ℕ × ℕ × List UInt8 × Reloc) := do
  let (groupSize, decoder) ← popFront a decoder
  let (flags, decoder) ← popFront a decoder
  let (delta, decoder) ← popFrontIf a (groupedByOffsetDelta flags) 0 decoder
  let (rInfo, decoder) ← popFrontIf a (groupedByInfo flags) reloc.rInfo decoder
  if a.lp64 then
    if groupHasAddend flags && !groupedByAddend flags then
      pure (groupSize, flags, delta, decoder, { reloc with rInfo := rInfo })
    else if groupHasAddend flags then
      let (addend, decoder) ← popFront a decoder
      pure (groupSize, flags, delta, decoder,
        { reloc with rInfo := rInfo, rAddend := a.wrap (reloc.rAddend + addend) })
    else pure (groupSize, flags, delta, decoder, { reloc with rInfo := rInfo, rAddend := 0 })
  else if groupHasAddend flags then throw .aborted
  else pure (groupSize, flags, delta, decoder, { reloc with rInfo := rInfo })

/-- The groups, until `idx` reaches `num_relocs`, in a number of rounds: whether they were enough.
A group takes two bytes at least, so that the number of bytes is. -/
def packedGroups (numRelocs : ℕ) : ℕ → ℕ → List UInt8 → Reloc → OnState Bool
  | 0, _, _, _ => pure false
  | fuel + 1, idx, decoder, reloc => do
    if numRelocs ≤ idx then pure true
    else
      let (groupSize, flags, delta, decoder, reloc) ← packedGroupHead a decoder reloc
      let (decoder, reloc) ← packedGroup a callback flags delta groupSize decoder reloc
      packedGroups numRelocs fuel (a.wrap (idx + groupSize)) decoder reloc

def forAllPackedRelocs (decoder : List UInt8) : OnState Unit := do
  let fuel := decoder.length
  let (numRelocs, decoder) ← popFront a decoder
  let (rOffset, decoder) ← popFront a decoder
  let _ ← packedGroups a callback numRelocs fuel 0 decoder ⟨rOffset, 0, 0⟩

variable (r : Relocator)

def applyRelrReloc (offset : ℕ) (mem : Memory) : Memory :=
  let destination := r.arch.wrap (offset + r.own.loadBias)
  let value := r.arch.wrap (mem.read r.arch.wordSize destination + r.own.loadBias)
  mem.write r.arch.wordSize destination
    (if r.own.shouldTagMemtagGlobals then r.getTaggedAddress value else value)

def relrBitmap : ℕ → ℕ → ℕ → Memory → Memory
  | 0, _, _, mem => mem
  | n + 1, entry, offset, mem =>
    if entry = 0 then mem
    else
      let entry := entry / 2
      relrBitmap n entry (offset + r.arch.wordSize)
        (if entry % 2 = 1 then applyRelrReloc r offset mem else mem)

def relocateRelr : List ℕ → ℕ → Memory → Memory
  | [], _, mem => mem
  | entry :: rest, base, mem =>
    if entry % 2 = 0 then
      relocateRelr rest (r.arch.wrap (entry + r.arch.wordSize)) (applyRelrReloc r entry mem)
    else
      relocateRelr rest (r.arch.wrap (base + (8 * r.arch.wordSize - 1) * r.arch.wordSize))
        (relrBitmap r (8 * r.arch.wordSize) entry base mem)

end

structure RelocTables where
  relr : Option (List ℕ)
  androidRelocs : Option (List UInt8)
  rel : Option (List Reloc)
  pltRel : Option (List Reloc)

section
variable (r : Relocator) (lookup : ℕ → OnState (Option (Library × ℕ)))

def packedRelocateImpl (mode : RelocMode) (decoder : List UInt8) : OnState Unit :=
  forAllPackedRelocs r.arch (processRelocation r lookup mode) decoder

def needsSlowRelocateLoop : Bool :=
  !r.arch.lp64 && r.hasTextRelocations || r.debugAny || r.debugStatistics

def plainRelocate (optMode : RelocMode) (rels : List Reloc) : OnState Unit :=
  if needsSlowRelocateLoop r then plainRelocateImpl r lookup .general rels
  else plainRelocateImpl r lookup optMode rels

def packedRelocate (optMode : RelocMode) (decoder : List UInt8) : OnState Unit :=
  if needsSlowRelocateLoop r then packedRelocateImpl r lookup .general decoder
  else packedRelocateImpl r lookup optMode decoder

def aps2 : List UInt8 := [65, 80, 83, 50]

def relocateAndroid (packed : List UInt8 → OnState Unit) : Option (List UInt8) → OnState Unit
  | none => pure ()
  | some bytes =>
    if bytes.take 4 = aps2 then packed (bytes.drop 4) else throw (.failed .badAndroidHeader)

def relocateOwnRelr (tables : RelocTables) (image : Image) : Image :=
  if r.isLinker then image
  else { image with mem := relocateRelr r (tables.relr.getD []) 0 image.mem }

/-- The end of `relocate`: arguments have their final addresses now. -/
def writeDeferred (image : Image) : Image :=
  image.deferredTlsdescRelocs.foldl (fun image d =>
    writeTlsDescriptor r d.1 r.tlsdescResolverDynamic (r.tlsdescArgAddress d.2) image) image

/-- Over the loops for plain and for packed tables. -/
def relocateWith (plain : RelocMode → List Reloc → OnState Unit)
    (packed : RelocMode → List UInt8 → OnState Unit) (tables : RelocTables) : OnState Unit := do
  onImage (modify (relocateOwnRelr r tables))
  relocateAndroid (packed .typical) tables.androidRelocs
  tables.rel.toList.forM (plain .typical)
  tables.pltRel.toList.forM (plain .jumpTable)
  if r.arch.hasTlsdesc then onImage (modify (writeDeferred r)) else pure ()

/-- With a new `Relocator`; the cache is gone at the end. -/
def relocateImage (run : OnState Unit) (isLdd versionTrackerInit : Bool) : OnImage Unit :=
  fun image =>
    if isLdd then .ok () image
    else if !versionTrackerInit then .error (.failed .versionTracker) image
    else
      match run ⟨{ image with deferredTlsdescRelocs := [] }, .empty⟩ with
      | .ok _ s => .ok () s.image
      | .error stop s => .error stop s.image

def soinfoRelocate (isLdd versionTrackerInit : Bool) (tables : RelocTables) : OnImage Unit :=
  relocateImage (relocateWith r (plainRelocate r (lookupSymbol r))
    (packedRelocate r (lookupSymbol r)) tables) isLdd versionTrackerInit

def relocateGeneral (isLdd versionTrackerInit : Bool) (tables : RelocTables) : OnImage Unit :=
  relocateImage (relocateWith r (fun _ => plainRelocateImpl r lookup .general)
    (fun _ => packedRelocateImpl r lookup .general) tables) isLdd versionTrackerInit

end

theorem generic_distinct (a : Arch) :
    a.generic.jumpSlot ∉ [a.generic.absolute, a.generic.globDat, a.generic.relative] ∧
      ∀ t ∈ [a.generic.jumpSlot, a.generic.absolute, a.generic.globDat, a.generic.relative],
        a.pc32 ≠ some t := by
  cases a <;> decide

variable {r : Relocator} {reloc : Reloc}

section
variable {lookup : ℕ → OnState (Option (Library × ℕ))} {mode : RelocMode}

/-- The same answer again, and the memory is left alone. -/
def Repeatable (lookup : ℕ → OnState (Option (Library × ℕ))) : Prop :=
  ∀ n s found s', lookup n s = .ok found s' → lookup n s' = .ok found s' ∧ s'.image = s.image

theorem checkFound_ok {n found found' s s'} (h : checkFound r n found s = .ok found' s') :
    found' = found ∧ s' = s ∧ ∀ t, checkFound r n found t = .ok found t := by
  unfold checkFound at h ⊢
  split at h
  · cases h
  rename_i hc
  cases h
  exact ⟨rfl, rfl, fun t => by rw [if_neg hc]; rfl⟩

theorem lookupSymbol_repeatable : Repeatable (lookupSymbol r) := by
  intro n s found s' h
  unfold lookupSymbol at h
  split at h
  · rename_i hk
    obtain ⟨rfl, rfl, ha⟩ := checkFound_ok h
    exact ⟨by rw [lookupSymbol, if_pos hk, ha], rfl⟩
  cases hs : searchSymbol r n with
  | error stop =>
    rw [hs] at h
    cases h
  | ok answer =>
    rw [hs] at h
    obtain ⟨rfl, rfl, ha⟩ := checkFound_ok h
    exact ⟨by rw [lookupSymbol, if_pos rfl, ha], rfl⟩

section
variable (hfa : needsSlowRelocateLoop r = false)
include hfa

theorem handleTextProtection_eq (mode) :
    handleTextProtection r mode = handleTextProtection r .general := by
  unfold needsSlowRelocateLoop at hfa
  unfold handleTextProtection
  cases hl : r.arch.lp64 <;> cases ht : r.hasTextRelocations <;> simp_all

theorem resolveFound_eq (mode) : resolveFound r mode = resolveFound r .general := by
  funext foundIn sym
  unfold resolveFound
  rw [handleTextProtection_eq hfa mode]

theorem resolveTarget_eq (ht : r.arch.pc32 ≠ some (reloc.rType r.arch)) (mode) :
    resolveTarget r lookup mode reloc = resolveTarget r lookup .general reloc := by
  unfold resolveTarget
  rw [resolveFound_eq hfa mode]
  simp only [ht, and_false, if_false]

end

theorem resolveFound_image (r mode foundIn sym)
    (image) : (∃ a, resolveFound r mode foundIn sym image = .ok a image) ∨
      ∃ stop, resolveFound r mode foundIn sym image = .error stop image := by
  unfold resolveFound
  cases handleTextProtection r mode && foundIn.id == r.si.id && sym.stType == sttGnuIfunc with
  | false => exact .inl ⟨_, rfl⟩
  | true =>
    cases r.protectSegments with
    | false => exact .inr ⟨_, rfl⟩
    | true =>
      cases r.unprotectSegments with
      | false => exact .inr ⟨_, rfl⟩
      | true => exact .inl ⟨_, rfl⟩

def applyRelocation (r : Relocator) (reloc : Reloc) (target : Target) : OnImage Unit :=
  let rType := reloc.rType r.arch
  let g := r.arch.generic
  if rType = g.jumpSlot then applyJumpSlot r reloc target
  else if rType = g.absolute then applyAbsolute r reloc target
  else if rType = g.globDat then applyGlobDat r reloc target
  else if rType = g.relative then applyRelative r reloc
  else applyGeneral r reloc target

/-- The name of the symbol of an entry is outside the string table. -/
def NameOutOfBounds (r : Relocator) (reloc : Reloc) : Prop :=
  reloc.rSym r.arch ≠ 0 ∧ r.siStrtabSize ≤ (r.si.symtab (reloc.rSym r.arch)).stName

theorem onImage_ite {c : Prop} [Decidable c] {α : Type} (f g : OnImage α) :
    onImage (if c then f else g) = if c then onImage f else onImage g := by
  split
  · rfl
  · rfl

theorem processRelocationImpl_of_name (hnm : NameOutOfBounds r reloc)
    (general : Reloc → OnState Unit) :
    processRelocationImpl r lookup general mode reloc = throw .aborted := by
  unfold NameOutOfBounds at hnm
  simp only [processRelocationImpl, hnm, ne_eq, not_false_eq_true, and_self, if_true]

def Handles (a : Arch) (rType : ℕ) : RelocMode → Prop
  | .jumpTable => rType = a.generic.jumpSlot
  | .typical => rType ∈ [a.generic.absolute, a.generic.globDat, a.generic.relative]
  | .general => True

instance (a : Arch) (rType : ℕ) (mode : RelocMode) : Decidable (Handles a rType mode) := by
  cases mode <;> unfold Handles <;> infer_instance

theorem pc32_of_handles {a rType} (hm : mode ≠ .general)
    (h : Handles a rType mode) : a.pc32 ≠ some rType := by
  have hd := (generic_distinct a).2
  cases mode with
  | general => exact absurd rfl hm
  | jumpTable => exact hd rType (List.mem_cons.mpr (.inl h))
  | typical => exact hd rType (List.mem_cons_of_mem _ h)

section
variable (hnm : ¬NameOutOfBounds r reloc)
include hnm

theorem processRelocationGeneral_eq (hn : reloc.rType r.arch ≠ rGenericNone) :
    processRelocationGeneral r lookup reloc = findTarget r lookup .general reloc >>= fun target =>
        onImage (applyRelocation r reloc target) := by
  unfold NameOutOfBounds at hnm
  simp only [processRelocationGeneral, processRelocationImpl, applyRelocation, onImage_ite, hnm,
    hn, not_true, if_false, true_or, true_and, false_and]

theorem processRelocationImpl_of_none (hn : reloc.rType r.arch = rGenericNone)
    (general : Reloc → OnState Unit) :
    processRelocationImpl r lookup general mode reloc = pure () := by
  unfold NameOutOfBounds at hnm
  simp only [processRelocationImpl, hnm, hn, if_false, if_true]

theorem processRelocationImpl_fast (hn : reloc.rType r.arch ≠ rGenericNone) (hm : mode ≠ .general)
    (ht : isTlsReloc r.arch (reloc.rType r.arch) = false) (general : Reloc → OnState Unit) :
    processRelocationImpl r lookup general mode reloc =
      resolveTarget r lookup mode reloc >>= fun target =>
        if Handles r.arch (reloc.rType r.arch) mode then onImage (applyRelocation r reloc target)
        else general reloc := by
  have hd := (generic_distinct r.arch).1
  unfold NameOutOfBounds at hnm
  simp only [processRelocationImpl, hnm, hn, ht, hm, findTarget, applyRelocation,
    onImage_ite, if_false, and_false, false_or, Bool.false_eq_true, not_false_eq_true, if_true]
  congr 1
  funext target
  cases mode with
  | general => exact absurd rfl hm
  | jumpTable =>
    by_cases hs : reloc.rType r.arch = r.arch.generic.jumpSlot
    all_goals simp [Handles, hs]
  | typical =>
    by_cases hs : reloc.rType r.arch = r.arch.generic.jumpSlot
    · rw [hs]
      simp only [List.mem_cons, not_or] at hd
      simp [Handles, hd]
    · simp only [Handles, hs, and_false, if_false, List.mem_cons, List.not_mem_nil, or_false,
        reduceCtorEq, true_and]
      split_ifs <;> simp_all

end

section
variable (hfa : needsSlowRelocateLoop r = false)
include hfa

variable (hlu : Repeatable lookup)
include hlu

theorem resolveTarget_cases (reloc s) :
    (∃ stop s', ∀ mode, resolveTarget r lookup mode reloc s = .error stop s') ∨
      ∃ s', ∀ mode, ∃ target, resolveTarget r lookup mode reloc s = .ok target s' ∧
        resolveTarget r lookup mode reloc s' = .ok target s' := by
  unfold resolveTarget
  by_cases hs : reloc.rSym r.arch = 0
  · simp only [hs, if_true]
    exact .inr ⟨s, fun _ => ⟨_, rfl, rfl⟩⟩
  simp only [hs, if_false]
  cases hf : lookup (reloc.rSym r.arch) s with
  | error stop s' => exact .inl ⟨stop, s', fun _ => bind_of_error hf _⟩
  | ok found s' =>
    have haa := (hlu _ _ _ _ hf).1
    cases found with
    | none =>
      refine .inr ⟨s', fun mode => ?_⟩
      rw [bind_of_ok hf, bind_of_ok haa]
      split
      all_goals exact ⟨_, rfl, rfl⟩
    | some pair =>
      obtain ⟨foundIn, n⟩ := pair
      have hr := fun mode => resolveFound_eq hfa mode
      obtain ⟨a, ha⟩ | ⟨stop, ha⟩ :=
        resolveFound_image r .general foundIn (foundIn.symtab n) s'.image
      · refine .inr ⟨s', fun mode => ⟨⟨some foundIn, a⟩, ?_⟩⟩
        rw [bind_of_ok hf, bind_of_ok haa, and_self, hr mode]
        exact bind_of_ok (zoom_of_ok ha) _
      · refine .inl ⟨stop, s', fun mode => ?_⟩
        rw [bind_of_ok hf, hr mode]
        exact bind_of_error (zoom_of_error ha) _

theorem processRelocation_eq_general (mode) (reloc : Reloc) :
    processRelocation r lookup mode reloc = processRelocationGeneral r lookup reloc := by
  unfold processRelocation
  by_cases hm : mode = .general
  · rw [if_pos hm]
  rw [if_neg hm]
  by_cases hnm : NameOutOfBounds r reloc
  · rw [processRelocationGeneral, processRelocationImpl_of_name hnm,
      processRelocationImpl_of_name hnm]
  by_cases hn : reloc.rType r.arch = rGenericNone
  · rw [processRelocationGeneral, processRelocationImpl_of_none hnm hn,
      processRelocationImpl_of_none hnm hn]
  have hg : processRelocationGeneral r lookup reloc = _ :=
    processRelocationGeneral_eq hnm hn
  cases ht : isTlsReloc r.arch (reloc.rType r.arch) with
  | true =>
    unfold NameOutOfBounds at hnm
    simp only [processRelocationImpl, hnm, hn, ht, hm, if_false, not_false_eq_true,
      and_self, if_true]
  | false =>
    rw [findTarget, ht] at hg
    rw [processRelocationImpl_fast hnm hn hm ht, hg]
    by_cases hh : Handles r.arch (reloc.rType r.arch) mode
    · simp only [hh, if_true]
      rw [resolveTarget_eq hfa (pc32_of_handles hm hh) mode]
      rfl
    simp only [hh, if_false, Bool.false_eq_true]
    funext s
    obtain ⟨stop, s', hs⟩ | ⟨s', ho⟩ := resolveTarget_cases hfa hlu reloc s
    · rw [bind_of_error (hs mode), bind_of_error (hs .general)]
    obtain ⟨target, hm, -⟩ := ho mode
    obtain ⟨target', hg, ha⟩ := ho .general
    rw [bind_of_ok hm, bind_of_ok ha, bind_of_ok hg]

theorem processRelocation_mode_eq (mode) :
    processRelocation r lookup mode = processRelocation r lookup .general := by
  funext reloc
  rw [processRelocation_eq_general hfa hlu, processRelocation, if_pos rfl]

end

theorem plainRelocate_eq_general (hlu : Repeatable lookup) (mode) :
    plainRelocate r lookup mode = plainRelocateImpl r lookup .general := by
  funext rels
  unfold plainRelocate
  cases hs : needsSlowRelocateLoop r with
  | true => rfl
  | false =>
    unfold plainRelocateImpl
    rw [processRelocation_mode_eq hs hlu mode]
    rfl

theorem packedRelocate_eq_general (hlu : Repeatable lookup) (mode) :
    packedRelocate r lookup mode = packedRelocateImpl r lookup .general := by
  funext decoder
  unfold packedRelocate
  cases hs : needsSlowRelocateLoop r with
  | true => rfl
  | false =>
    unfold packedRelocateImpl
    rw [processRelocation_mode_eq hs hlu mode]
    rfl

end

/-- The cache holds what a search for its symbol finds. No entry looks up symbol 0, the key of
the empty cache. -/
def CacheOk (r : Relocator) (cache : LookupCache) : Prop :=
  cache.symVal ≠ 0 → searchSymbol r cache.symVal = .ok cache.found

/-- With the cache, and with a search every time. -/
def SameImage (r : Relocator) (s t : State) : Prop := CacheOk r s.cache ∧ s.image = t.image

theorem agrees_onImage {α : Type} (m : OnImage α) : Agrees (SameImage r) (onImage m) (onImage m) :=
  .zoom (fun _ _ h => h.2) (fun _ _ _ h => ⟨h.1, rfl⟩) m

theorem agrees_checkFound (n found) :
    Agrees (SameImage r) (checkFound r n found) (checkFound r n found) :=
  .ite (fun _ => .throw _) fun _ => .pure _

theorem agrees_lookupSymbol {n} (hn : n ≠ 0) :
    Agrees (SameImage r) (lookupSymbol r n) (lookupSymbolUncached r n) := by
  intro s t h
  unfold lookupSymbol lookupSymbolUncached
  by_cases hk : n = s.cache.symVal
  · have hs : searchSymbol r n = .ok s.cache.found := by
      rw [hk]
      exact h.1 (hk ▸ hn)
    rw [if_pos hk, hs]
    exact agrees_checkFound n _ s t h
  · rw [if_neg hk]
    cases hs : searchSymbol r n with
    | error stop => exact .error stop h
    | ok found => exact agrees_checkFound n found _ t ⟨fun _ => hs, h.2⟩

theorem agrees_checkTls (n foundIn sym) :
    Agrees (SameImage r) (checkTls r n foundIn sym) (checkTls r n foundIn sym) := by
  refine .ite (fun _ => .throw _) ?_
  intro _
  cases sym with
  | none => exact .pure _
  | some sym => exact .ite (fun _ => .throw _) fun _ => .pure _

theorem agrees_processRelocation (reloc) :
    Agrees (SameImage r) (processRelocation r (lookupSymbol r) .general reloc)
      (processRelocation r (lookupSymbolUncached r) .general reloc) := by
  unfold processRelocation
  rw [if_pos rfl, if_pos rfl]
  by_cases hnm : NameOutOfBounds r reloc
  · rw [processRelocationGeneral, processRelocationGeneral, processRelocationImpl_of_name hnm,
      processRelocationImpl_of_name hnm]
    exact .throw _
  by_cases hn : reloc.rType r.arch = rGenericNone
  · rw [processRelocationGeneral, processRelocationGeneral,
      processRelocationImpl_of_none hnm hn, processRelocationImpl_of_none hnm hn]
    exact .pure _
  rw [processRelocationGeneral_eq hnm hn, processRelocationGeneral_eq hnm hn]
  refine .bind (.ite ?_ ?_) fun target => agrees_onImage _
  · intro _
    refine .ite (fun _ => agrees_checkTls _ _ _) fun hs => .ite ?_ ?_
    · intro _
      exact .ite (fun _ => .throw _) fun _ => .throw _
    intro _
    refine .bind (agrees_lookupSymbol hs) ?_
    intro found
    cases found with
    | none => exact .pure _
    | some pair => exact agrees_checkTls _ _ _
  · intro _
    refine .ite (fun _ => .pure _) fun hs => .bind (agrees_lookupSymbol hs) ?_
    intro found
    cases found with
    | none => exact .ite (fun _ => .pure _) fun _ => .pure _
    | some pair => exact .bind (agrees_onImage _) fun _ => .pure _

theorem agrees_popFront (a decoder) :
    Agrees (SameImage r) (popFront a decoder) (popFront a decoder) := by
  unfold popFront
  cases popFrontFrom (8 * a.wordSize) 0 0 decoder with
  | none => exact .throw _
  | some popped => exact .pure _

theorem agrees_popFrontIf (a present known decoder) :
    Agrees (SameImage r) (popFrontIf a present known decoder)
      (popFrontIf a present known decoder) :=
  .ite (fun _ => agrees_popFront a decoder) fun _ => .pure _

section
variable {a : Arch} {f g : Reloc → OnState Unit}

theorem agrees_packedGroup (body : ∀ reloc, Agrees (SameImage r) (f reloc) (g reloc))
    (flags delta n decoder reloc) :
    Agrees (SameImage r) (packedGroup a f flags delta n decoder reloc)
      (packedGroup a g flags delta n decoder reloc) := by
  induction n generalizing decoder reloc with
  | zero => exact .pure _
  | succ n ih =>
    refine .bind (agrees_popFrontIf _ _ _ _) ?_
    intro offset
    refine .bind (agrees_popFrontIf _ _ _ _) ?_
    intro rInfo
    exact .bind (agrees_popFrontIf _ _ _ _) fun addend => .bind (body _) fun _ => ih _ _

theorem agrees_packedGroupHead (decoder reloc) :
    Agrees (SameImage r) (packedGroupHead a decoder reloc) (packedGroupHead a decoder reloc) := by
  refine .bind (agrees_popFront a _) fun size => .bind (agrees_popFront a _) ?_
  intro flags
  refine .bind (agrees_popFrontIf _ _ _ _) ?_
  intro delta
  refine .bind (agrees_popFrontIf _ _ _ _) ?_
  intro rInfo
  refine .ite (fun _ => ?_) fun _ => .ite (fun _ => .throw _) fun _ => .pure _
  refine .ite (fun _ => .pure _) fun _ => .ite (fun _ => ?_) fun _ => .pure _
  exact .bind (agrees_popFront a _) fun addend => .pure _

theorem agrees_packedGroups (body : ∀ reloc, Agrees (SameImage r) (f reloc) (g reloc))
    (numRelocs fuel idx decoder reloc) :
    Agrees (SameImage r) (packedGroups a f numRelocs fuel idx decoder reloc)
      (packedGroups a g numRelocs fuel idx decoder reloc) := by
  induction fuel generalizing idx decoder reloc with
  | zero => exact .pure _
  | succ fuel ih =>
    refine .ite (fun _ => .pure _) fun _ => .bind (agrees_packedGroupHead _ _) ?_
    intro head
    exact .bind (agrees_packedGroup body _ _ _ _ _) fun next => ih _ _ _

variable {decoder : List UInt8} {s s' : State} {popped : ℕ × List UInt8}

theorem popFrontFrom_length {bits value shift rest v}
    (h : popFrontFrom bits value shift decoder = some (v, rest)) :
    rest.length < decoder.length := by
  induction decoder generalizing value shift with
  | nil => cases h
  | cons byte decoder ih =>
    unfold popFrontFrom at h
    dsimp only at h
    split_ifs at h
    · exact (ih h).trans (Nat.lt_succ_self _)
    all_goals
      cases h
      exact Nat.lt_succ_self _

theorem popFront_length
    (h : popFront a decoder s = .ok popped s') : popped.2.length < decoder.length := by
  unfold popFront at h
  cases hp : popFrontFrom (8 * a.wordSize) 0 0 decoder with
  | none =>
    rw [hp] at h
    cases h
  | some found =>
    rw [hp] at h
    cases h
    exact popFrontFrom_length hp

theorem popFrontIf_length {present known}
    (h : popFrontIf a present known decoder s = .ok popped s') :
    popped.2.length ≤ decoder.length := by
  cases present with
  | false =>
    cases h
    exact le_rfl
  | true => exact (popFront_length h).le

theorem packedGroup_length {flags delta n next}
    (h : packedGroup a f flags delta n decoder reloc s = .ok next s') :
    next.1.length ≤ decoder.length := by
  induction n generalizing decoder reloc s with
  | zero =>
    cases h
    exact le_rfl
  | succ n ih =>
    obtain ⟨offset, s1, h1, h⟩ := bind_ok_inv h
    obtain ⟨rInfo, s2, h2, h⟩ := bind_ok_inv h
    obtain ⟨addend, s3, h3, h⟩ := bind_ok_inv h
    obtain ⟨_, s4, _, h⟩ := bind_ok_inv h
    have h4 := ih h
    have h1 := popFrontIf_length h1
    have h2 := popFrontIf_length h2
    have h3 := popFrontIf_length h3
    omega

theorem packedGroupHead_length {head} (h : packedGroupHead a decoder reloc s = .ok head s') :
    head.2.2.2.1.length < decoder.length := by
  obtain ⟨size, s1, h1, h⟩ := bind_ok_inv h
  obtain ⟨flags, s2, h2, h⟩ := bind_ok_inv h
  obtain ⟨delta, s3, h3, h⟩ := bind_ok_inv h
  obtain ⟨rInfo, s4, h4, h⟩ := bind_ok_inv h
  have h1 := popFront_length h1
  have h2 := popFront_length h2
  have h3 := popFrontIf_length h3
  have h4 := popFrontIf_length h4
  suffices head.2.2.2.1.length ≤ rInfo.2.length by omega
  split_ifs at h
  · cases h
    exact le_rfl
  · obtain ⟨addend, s5, h5, h⟩ := bind_ok_inv h
    cases h
    exact (popFront_length h5).le
  · cases h
    exact le_rfl
  · cases h
  · cases h
    exact le_rfl

/-- The loop over the groups ends on every stream, within as many rounds as there are bytes. -/
theorem packedGroups_fuel {numRelocs fuel fuel' idx}
    (h : decoder.length < fuel) (h' : decoder.length < fuel') (s : State) :
    (∀ s', packedGroups a f numRelocs fuel idx decoder reloc s ≠ .ok false s') ∧
      packedGroups a f numRelocs fuel idx decoder reloc s =
        packedGroups a f numRelocs fuel' idx decoder reloc s := by
  induction fuel generalizing fuel' idx decoder reloc s with
  | zero => exact absurd h (Nat.not_lt_zero _)
  | succ fuel ih =>
    obtain ⟨fuel', rfl⟩ := Nat.exists_eq_succ_of_ne_zero (Nat.ne_zero_of_lt h')
    unfold packedGroups
    split_ifs
    · exact ⟨fun _ hs => (by cases hs), rfl⟩
    cases hh : packedGroupHead a decoder reloc s with
    | error stop s1 =>
      rw [bind_of_error hh, bind_of_error hh]
      exact ⟨fun _ hs => (by cases hs), rfl⟩
    | ok head s1 =>
      rw [bind_of_ok hh, bind_of_ok hh]
      cases hg : packedGroup a f head.2.1 head.2.2.1 head.1 head.2.2.2.1 head.2.2.2.2 s1 with
      | error stop s2 =>
        refine ⟨fun s' hs => ?_, (bind_of_error hg _).trans (bind_of_error hg _).symm⟩
        cases (bind_of_error hg _).symm.trans hs
      | ok next s2 =>
        have hl := (packedGroup_length hg).trans_lt (packedGroupHead_length hh)
        have hf : next.1.length < fuel := by omega
        have hf' : next.1.length < fuel' := by omega
        refine ⟨fun s' hs => (ih hf hf' s2).1 s' ((bind_of_ok hg _).symm.trans hs), ?_⟩
        refine (bind_of_ok hg _).trans (Eq.trans ?_ (bind_of_ok hg _).symm)
        exact (ih hf hf' s2).2

theorem packedGroups_fuel_one_group :
    (∀ s s', packedGroups .aarch64 (fun _ => pure ()) 1 3 0 [1, 0] ⟨0, 0, 0⟩ s ≠ .ok false s') ∧
      packedGroups .aarch64 (fun _ => pure ()) 1 3 0 [1, 0] ⟨0, 0, 0⟩ =
        packedGroups .aarch64 (fun _ => pure ()) 1 9 0 [1, 0] ⟨0, 0, 0⟩ :=
  ⟨fun s => (packedGroups_fuel (by decide) (Nat.lt_succ_self _) s).1,
    funext fun s => (packedGroups_fuel (by decide) (by decide) s).2⟩

end

theorem agrees_relocateWith {plain plain' packed packed'}
    (hp : ∀ mode rels, Agrees (SameImage r) (plain mode rels) (plain' mode rels))
    (hpc : ∀ mode bytes, Agrees (SameImage r) (packed mode bytes) (packed' mode bytes))
    (tables) : Agrees (SameImage r) (relocateWith r plain packed tables)
      (relocateWith r plain' packed' tables) := by
  refine .bind (agrees_onImage _) fun _ => .bind ?_ ?_
  · cases tables.androidRelocs with
    | none => exact .pure _
    | some bytes => exact .ite (fun _ => hpc .typical _) fun _ => .throw _
  intro _
  refine .bind (.forM (hp .typical) _) ?_
  intro _
  refine .bind (.forM (hp .jumpTable) _) ?_
  intro _
  exact .ite (fun _ => agrees_onImage _) fun _ => .pure _

theorem relocateImage_eq {run run'} (h : Agrees (SameImage r) run run') (isLdd versionTrackerInit) :
    relocateImage run isLdd versionTrackerInit = relocateImage run' isLdd versionTrackerInit := by
  funext image
  have hr := h ⟨{ image with deferredTlsdescRelocs := [] }, .empty⟩
    ⟨{ image with deferredTlsdescRelocs := [] }, .empty⟩ ⟨fun h => absurd rfl h, rfl⟩
  unfold relocateImage
  revert hr
  generalize run _ = x
  generalize run' _ = y
  intro hr
  cases hr with
  | ok a related => simp only [related.2]
  | error stop related => simp only [related.2]

/-- The specialised loops have the effect of the general mode on every entry: the same memory,
deferred relocations and outcome, whatever entries the tables have. -/
theorem soinfoRelocate_eq_general (r : Relocator) (isLdd versionTrackerInit : Bool)
    (tables : RelocTables) (image : Image) :
    soinfoRelocate r isLdd versionTrackerInit tables image =
        relocateGeneral r (lookupSymbol r) isLdd versionTrackerInit tables image ∧
      soinfoRelocate r isLdd versionTrackerInit tables image =
        relocateGeneral r (lookupSymbolUncached r) isLdd versionTrackerInit tables image := by
  have hl : soinfoRelocate r isLdd versionTrackerInit tables =
      relocateGeneral r (lookupSymbol r) isLdd versionTrackerInit tables := by
    unfold soinfoRelocate relocateGeneral
    rw [funext (plainRelocate_eq_general lookupSymbol_repeatable),
      funext (packedRelocate_eq_general lookupSymbol_repeatable)]
  have hc : relocateGeneral r (lookupSymbol r) isLdd versionTrackerInit tables =
      relocateGeneral r (lookupSymbolUncached r) isLdd versionTrackerInit tables := by
    refine relocateImage_eq (agrees_relocateWith ?_ ?_ tables) _ _
    · exact fun _ rels => .forM agrees_processRelocation rels
    · exact fun _ _ => .bind (agrees_popFront _ _) fun _ => .bind (agrees_popFront _ _) fun _ =>
        .bind (agrees_packedGroups agrees_processRelocation _ _ _ _ _) fun _ => .pure _
  exact ⟨congrFun hl image, congrFun (hl.trans hc) image⟩

end LinkerRelocate
