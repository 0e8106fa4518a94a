import Bionic.ByteMemory

/-! Dynamic thread-local storage, bionic_elf_tls.cpp and linker_tls.cpp. Registration holds the
write lock of the module table over several stores, as does the slow path of `__tls_get_addr`; the
four loads of the fast path may fall between any steps of other calls. Blocks and DTVs are cells of
the heap with the thread that they belong to. -/
namespace ElfTls
open ByteMemory Function

structure Machine where
  abi : Abi
  /-- The size of the static TLS of a thread. -/
  staticSize : ℕ
  dtvOffset : ℕ

def Machine.sizeMax (M : Machine) : ℕ := M.abi.sizes - 1

def kTlsGenerationNone : ℕ := 0
def kTlsGenerationFirst : ℕ := 1
def kTlsUninitializedModuleId : ℕ := 0

structure TlsModule where
  size : ℕ
  align : ℕ
  /-- None is `SIZE_MAX`, a dynamic module. -/
  staticOffset : Option ℕ
  firstGeneration : ℕ
  soinfoPtr : ℕ
  /-- A ghost: which registration of the process made this entry. -/
  incarnation : ℕ
  deriving DecidableEq

def emptyModule : TlsModule := ⟨0, 1, none, kTlsGenerationNone, 0, 0⟩

/-- A DTV has as many modules as its `count` says. -/
structure TlsDtv where
  next : Option ℕ
  generation : ℕ
  modules : List ℕ
  deriving DecidableEq

def zeroDtv : TlsDtv := ⟨none, kTlsGenerationNone, []⟩

inductive Body where
  | dtv (d : TlsDtv)
  /-- The memory of a module, with the incarnation that it was made for. -/
  | block (incarnation : ℕ)
  deriving DecidableEq

structure Cell where
  tid : ℕ
  size : ℕ
  body : Body
  deriving DecidableEq

abbrev Heap : Type := ℕ → Option Cell

structure Thread where
  staticTls : ℕ
  /-- The DTV slot of the thread; none is `zero_dtv`. -/
  dtv : Option ℕ
  /-- A ghost: how many DTVs the thread has allocated. -/
  dtvs : ℕ
  deriving DecidableEq

inductive Fault where
  | badDtv
  | zeroDtvWritten
  | outOfBounds
  | badFree
  | badModule
  | noThread
  | checkFailed
  | vectorFull
  | layoutOverflow
  | unending
  deriving DecidableEq

/-- The two copies of the generation counter: the linker and libc.so each have their own
`__tls_get_addr`. -/
inductive Copy where
  | linker
  | libc
  deriving DecidableEq

inductive Pc where
  | start
  | dtvLoaded (dtv : Option ℕ)
  | generationLoaded (dtv : Option ℕ) (generation : ℕ)
  | matched (dtv : Option ℕ)
  | slow
  deriving DecidableEq

structure Call where
  tid : ℕ
  moduleId : ℕ
  offset : ℕ
  copy : Copy
  pc : Pc
  deriving DecidableEq

inductive Stage where
  | linkerCopy
  | libcCopy
  | table
  deriving DecidableEq

structure Registration where
  idx : ℕ
  entry : TlsModule
  stage : Stage
  deriving DecidableEq

structure State where
  generation : ℕ
  linkerCopy : ℕ
  libcCopy : ℕ
  /-- Whether libc.so has passed the address of its copy. -/
  generationLibcSo : Bool
  staticFinished : Bool
  /-- The end of what is reserved in the static layout. -/
  cursor : ℕ
  moduleTable : List TlsModule
  /-- The `module_id` of each soinfo. -/
  moduleIds : ℕ → ℕ
  registering : Option Registration
  /-- A ghost: how many modules have been registered. -/
  registrations : ℕ
  threads : ℕ → Option Thread
  heap : Heap
  calls : ℕ → Option Call

def initial (M : Machine) : State where
  generation := kTlsGenerationFirst
  linkerCopy := M.sizeMax
  libcCopy := M.sizeMax
  generationLibcSo := false
  staticFinished := false
  cursor := 0
  moduleTable := []
  moduleIds := fun _ => kTlsUninitializedModuleId
  registering := none
  registrations := 0
  threads := fun _ => none
  heap := fun _ => none
  calls := fun _ => none

def Machine.maxModules (M : Machine) : ℕ := (M.abi.sizes / 2 - 1) / (8 * M.abi.word)

def getUnusedModuleIndex (M : Machine) (table : List TlsModule) :
    Except Fault (ℕ × List TlsModule) :=
  match table.findIdx? fun m => m.soinfoPtr == 0 with
  | some i => .ok (i, table)
  | none =>
    if table.length < M.maxModules then .ok (table.length, table ++ [emptyModule])
    else .error .vectorFull

/-- `register_tls_module` up to the increment of the generation. -/
def registerTlsModule (M : Machine) (s : State) (si size align : ℕ) (staticOffset : Option ℕ) :
    Except Fault State :=
  match getUnusedModuleIndex M s.moduleTable with
  | .error e => .error e
  | .ok (idx, table) =>
    let newGeneration := (s.generation + 1) % M.abi.sizes
    .ok { s with
      moduleTable := table
      moduleIds := update s.moduleIds si (idx + 1)
      generation := newGeneration
      registrations := s.registrations + 1
      registering := some ⟨idx,
        ⟨size, align, staticOffset, newGeneration, si, s.registrations + 1⟩, .linkerCopy⟩ }

def alignChecked (M : Machine) (value align skew : ℕ) : Except Fault ℕ :=
  if align = 0 ∨ align &&& (align - 1) ≠ 0 ∨ align ≤ skew then .error .checkFailed
  else
    let shifted := (value + M.abi.sizes - skew + align - 1) % M.abi.sizes
    let result := (shifted - shifted % align + skew) % M.abi.sizes
    if result < value then .error .layoutOverflow else .ok result

/-- `StaticTlsLayout::reserve`: the offset and the new cursor. -/
def reserve (M : Machine) (cursor size align skew : ℕ) : Except Fault (ℕ × ℕ) :=
  match alignChecked M cursor align skew with
  | .error e => .error e
  | .ok offset =>
    if M.abi.sizes ≤ offset + size then .error .layoutOverflow else .ok (offset, offset + size)

def registerSoinfoTls (M : Machine) (s : State) (si size align skew : ℕ) : Except Fault State :=
  if s.moduleIds si ≠ kTlsUninitializedModuleId then .ok s
  else if s.staticFinished then registerTlsModule M s si size align none
  else
    match reserve M s.cursor size align skew with
    | .error e => .error e
    | .ok (offset, cursor) =>
      registerTlsModule M { s with cursor := cursor } si size align (some offset)

def registerNext (s : State) : State :=
  match s.registering with
  | none => s
  | some ⟨i, m, .linkerCopy⟩ =>
    { s with linkerCopy := m.firstGeneration, registering := some ⟨i, m, .libcCopy⟩ }
  | some ⟨i, m, .libcCopy⟩ =>
    { s with
      libcCopy := if s.generationLibcSo then m.firstGeneration else s.libcCopy
      registering := some ⟨i, m, .table⟩ }
  | some ⟨i, m, .table⟩ => { s with moduleTable := s.moduleTable.set i m, registering := none }

def unregisterTlsModule (s : State) (si : ℕ) : Except Fault State :=
  let idx := s.moduleIds si - 1
  match s.moduleTable[idx]? with
  | none => .error .badModule
  | some m =>
    if m.staticOffset.isSome then .error .checkFailed
    else if m.soinfoPtr ≠ si then .error .checkFailed
    else .ok { s with
      moduleTable := s.moduleTable.set idx emptyModule
      moduleIds := update s.moduleIds si kTlsUninitializedModuleId }

def unregisterSoinfoTls (s : State) (si : ℕ) : Except Fault State :=
  if s.moduleIds si = kTlsUninitializedModuleId then .ok s else unregisterTlsModule s si

def Heap.free (h : Heap) (p : ℕ) : Except Fault Heap :=
  if p = 0 then .ok h
  else
    match h p with
    | none => .error .badFree
    | some _ => .ok (update h p none)

def readDtv (h : Heap) : Option ℕ → Except Fault TlsDtv
  | none => .ok zeroDtv
  | some p =>
    match h p with
    | some ⟨_, _, .dtv d⟩ => .ok d
    | _ => .error .badDtv

/-- A store to a field of a DTV; `zero_dtv` is constant. -/
def writeDtv (h : Heap) (ref : Option ℕ) (d : TlsDtv) : Except Fault Heap :=
  match ref with
  | none => .error .zeroDtvWritten
  | some p =>
    match h p with
    | some ⟨t, n, .dtv _⟩ => .ok (update h p (some ⟨t, n, .dtv d⟩))
    | _ => .error .badDtv

def dtvSizeInBytes (a : Abi) (moduleCount : ℕ) : ℕ :=
  (3 * a.word + moduleCount * a.word) % a.sizes

def bitCeil (n : ℕ) : ℕ := 2 ^ Nat.clog 2 n

def calculateNewDtvCount (a : Abi) (table : List TlsModule) : ℕ :=
  (bitCeil (dtvSizeInBytes a (max 1 table.length)) - 3 * a.word) / a.word

/-- The larger DTV that `update_tls_dtv` allocates: a copy of the old one with null pointers after
it. -/
def largerDtv (a : Abi) (table : List TlsModule) (ref : Option ℕ) (old : TlsDtv) : TlsDtv where
  next := ref
  generation := old.generation
  modules := old.modules ++ List.replicate (calculateNewDtvCount a table - old.modules.length) 0

def growDtv (a : Abi) (s : State) (tid : ℕ) (th : Thread) (old : TlsDtv) (dtvAddr : ℕ) :
    Heap × Thread :=
  if old.modules.length < s.moduleTable.length then
    (update s.heap dtvAddr (some ⟨tid, dtvSizeInBytes a (calculateNewDtvCount a s.moduleTable),
        .dtv (largerDtv a s.moduleTable th.dtv old)⟩),
      { th with dtv := some dtvAddr, dtvs := th.dtvs + 1 })
  else (s.heap, th)

inductive Action where
  | place (p : ℕ)
  | keep
  | free

/-- A loop over the slots of a DTV, from slot `i` on. -/
def sweep (act : ℕ → Action) : ℕ → List ℕ → Heap → Except Fault (List ℕ × Heap)
  | _, [], h => .ok ([], h)
  | i, p :: ps, h =>
    match act i with
    | .place q => (sweep act (i + 1) ps h).map fun r => (q :: r.1, r.2)
    | .keep => (sweep act (i + 1) ps h).map fun r => (p :: r.1, r.2)
    | .free =>
      match h.free p with
      | .error e => .error e
      | .ok h => (sweep act (i + 1) ps h).map fun r => (0 :: r.1, r.2)

/-- The loop of `update_tls_dtv`. -/
def updateAction (table : List TlsModule) (staticTls generation i : ℕ) : Action :=
  match table[i]? with
  | none => .free
  | some m =>
    match m.staticOffset with
    | some offset => .place (staticTls + offset)
    | none =>
      if m.firstGeneration ≠ kTlsGenerationNone ∧ m.firstGeneration ≤ generation then .keep
      else .free

def updateTlsDtv (a : Abi) (s : State) (tid : ℕ) (th : Thread) (dtvAddr : ℕ) :
    Except Fault (Heap × Thread) :=
  match readDtv s.heap th.dtv with
  | .error e => .error e
  | .ok old =>
    if old.generation = s.generation then .ok (s.heap, th)
    else
      let (heap, th) := growDtv a s tid th old dtvAddr
      match readDtv heap th.dtv with
      | .error e => .error e
      | .ok d =>
        match sweep (updateAction s.moduleTable th.staticTls d.generation) 0 d.modules heap with
        | .error e => .error e
        | .ok (modules, heap) =>
          (writeDtv heap th.dtv { d with modules := modules, generation := s.generation }).map
            fun heap => (heap, th)

def moduleBlock (table : List TlsModule) (tid : ℕ) (th : Thread) (idx blockAddr : ℕ) (heap : Heap) :
    Except Fault (ℕ × Heap) :=
  match readDtv heap th.dtv with
  | .error e => .error e
  | .ok d =>
    match d.modules[idx]? with
    | none => .error .outOfBounds
    | some p =>
      if p ≠ 0 then .ok (p, heap)
      else
        match table[idx]? with
        | none => .error .badModule
        | some m =>
          let heap := update heap blockAddr (some ⟨tid, m.size, .block m.incarnation⟩)
          (writeDtv heap th.dtv { d with modules := d.modules.set idx blockAddr }).map
            fun heap => (blockAddr, heap)

/-- `tls_get_addr_slow_path` up to the sum that it returns. -/
def slowPath (a : Abi) (s : State) (tid : ℕ) (th : Thread) (idx dtvAddr blockAddr : ℕ) :
    Except Fault (ℕ × Heap × Thread) :=
  match updateTlsDtv a s tid th dtvAddr with
  | .error e => .error e
  | .ok (heap, th) =>
    (moduleBlock s.moduleTable tid th idx blockAddr heap).map fun r => (r.1, r.2, th)

/-- The first loop of `__free_dynamic_tls` skips the static modules. -/
def exitAction (table : List TlsModule) (i : ℕ) : Action :=
  match table[i]? with
  | none => .free
  | some m => if m.staticOffset.isSome then .keep else .free

/-- The second loop of `__free_dynamic_tls`. -/
def freeDtvs : ℕ → Heap → Option ℕ → Except Fault Heap
  | 0, _, _ => .error .unending
  | fuel + 1, h, ref =>
    match readDtv h ref with
    | .error e => .error e
    | .ok d =>
      if d.generation = kTlsGenerationNone then .ok h
      else
        match ref with
        | none => .error .badFree
        | some p =>
          match h.free p with
          | .error e => .error e
          | .ok h => freeDtvs fuel h d.next

def freeDynamicTls (table : List TlsModule) (heap : Heap) (th : Thread) : Except Fault Heap :=
  match readDtv heap th.dtv with
  | .error e => .error e
  | .ok d =>
    if d.generation = kTlsGenerationNone then .ok heap
    else
      match sweep (exitAction table) 0 d.modules heap with
      | .error e => .error e
      | .ok (_, heap) => freeDtvs (th.dtvs + 1) heap th.dtv

def State.copyOf (s : State) : Copy → ℕ
  | .linker => s.linkerCopy
  | .libc => s.libcCopy

def Call.idx (M : Machine) (c : Call) : ℕ := M.abi.pred c.moduleId

def Call.place (M : Machine) (c : Call) : ℕ := (c.offset + M.dtvOffset) % M.abi.sizes

def Call.address (M : Machine) (c : Call) (modPtr : ℕ) : ℕ :=
  (modPtr + c.offset + M.dtvOffset) % M.abi.sizes

def setPc (s : State) (k : ℕ) (c : Call) (pc : Pc) : State :=
  { s with calls := update s.calls k (some { c with pc := pc }) }

def retire (s : State) (k : ℕ) : State := { s with calls := update s.calls k none }

/-- The next load of `__tls_get_addr`, or its slow path as a whole. -/
def advance (M : Machine) (s : State) (k : ℕ) (c : Call) (th : Thread) (dtvAddr blockAddr : ℕ) :
    Except Fault (State × Option ℕ) :=
  match c.pc with
  | .start => .ok (setPc s k c (.dtvLoaded th.dtv), none)
  | .dtvLoaded d => .ok (setPc s k c (.generationLoaded d (s.copyOf c.copy)), none)
  | .generationLoaded d generation =>
    match readDtv s.heap d with
    | .error e => .error e
    | .ok dtv => .ok (setPc s k c (if generation = dtv.generation then .matched d else .slow), none)
  | .matched d =>
    match readDtv s.heap d with
    | .error e => .error e
    | .ok dtv =>
      match dtv.modules[c.idx M]? with
      | none => .error .outOfBounds
      | some modPtr =>
        if modPtr ≠ 0 then .ok (retire s k, some (c.address M modPtr))
        else .ok (setPc s k c .slow, none)
  | .slow =>
    match slowPath M.abi s c.tid th (c.idx M) dtvAddr blockAddr with
    | .error e => .error e
    | .ok (modPtr, heap, th) =>
      .ok (retire { s with heap := heap, threads := update s.threads c.tid (some th) } k,
        some (c.address M modPtr))

inductive Op where
  /-- `linker_finalize_static_tls`. -/
  | finalizeStatic
  /-- The constructor of libc.so. -/
  | libcInit
  /-- Of the TCB or `bionic_tls`. -/
  | reserve (size align : ℕ)
  | register (si size align skew : ℕ)
  | registerNext
  | unregister (si : ℕ)
  | spawn (tid staticTls : ℕ)
  /-- `__free_dynamic_tls` at the exit of a thread. -/
  | exit (tid : ℕ)
  | call (k tid moduleId offset : ℕ) (copy : Copy)
  /-- A step of a call, with what the allocator answers in the slow path. -/
  | advance (k dtvAddr blockAddr : ℕ)

def step (M : Machine) (s : State) : Op → Except Fault (State × Option ℕ)
  | .finalizeStatic => .ok ({ s with staticFinished := true }, none)
  | .libcInit => .ok ({ s with generationLibcSo := true, libcCopy := s.generation }, none)
  | .reserve size align =>
    (reserve M s.cursor size align 0).map fun r => ({ s with cursor := r.2 }, none)
  | .register si size align skew =>
    (registerSoinfoTls M s si size align skew).map fun s => (s, none)
  | .registerNext => .ok (registerNext s, none)
  | .unregister si => (unregisterSoinfoTls s si).map fun s => (s, none)
  | .spawn tid staticTls =>
    .ok ({ s with threads := update s.threads tid (some ⟨staticTls, none, 0⟩) }, none)
  | .exit tid =>
    match s.threads tid with
    | none => .error .noThread
    | some th =>
      (freeDynamicTls s.moduleTable s.heap th).map fun heap =>
        ({ s with heap := heap, threads := update s.threads tid none }, none)
  | .call k tid moduleId offset copy =>
    .ok ({ s with calls := update s.calls k (some ⟨tid, moduleId, offset, copy, .start⟩) }, none)
  | .advance k dtvAddr blockAddr =>
    match s.calls k with
    | none => .ok (s, none)
    | some c =>
      match s.threads c.tid with
      | none => .error .noThread
      | some th => advance M s k c th dtvAddr blockAddr

def Apart (x m y n : ℕ) : Prop := x + m ≤ y ∨ y + n ≤ x

/-- What the allocator may answer: memory away from all that is allocated. -/
structure Fresh (M : Machine) (heap : Heap) (threads : ℕ → Option Thread) (p size : ℕ) : Prop where
  ne_zero : p ≠ 0
  unused : heap p = none
  cells : ∀ q c, heap q = some c → Apart p size q c.size
  areas : ∀ t th, threads t = some th → Apart p size th.staticTls M.staticSize
  below : p + size ≤ M.abi.sizes

def Registered (table : List TlsModule) (i : ℕ) (m : TlsModule) : Prop :=
  table[i]? = some m ∧ m.soinfoPtr ≠ 0

/-- The static layout does not become greater than it is in the end. -/
def Fits (M : Machine) (s : State) (size align skew : ℕ) : Prop :=
  ∃ r, reserve M s.cursor size align skew = .ok r ∧ r.2 ≤ M.staticSize

/-- The holder of the lock is waited for, static modules stay, a module stays and a thread does not
exit during its calls, which are for registered modules and inside them. -/
def Valid (M : Machine) (s : State) : Op → Prop
  | .finalizeStatic => s.registering = none
  | .libcInit => s.registering = none
  | .reserve size align => Fits M s size align 0
  | .register si size align skew => s.registering = none ∧ si ≠ 0 ∧
      (s.staticFinished = false → Fits M s size align skew)
  | .registerNext => True
  | .unregister si => s.registering = none ∧ (s.moduleIds si ≠ kTlsUninitializedModuleId →
      (∀ m, s.moduleTable[s.moduleIds si - 1]? = some m → m.staticOffset = none) ∧
      ∀ k c, s.calls k = some c → c.moduleId ≠ s.moduleIds si)
  | .spawn tid staticTls => s.threads tid = none ∧ staticTls ≠ 0 ∧
      staticTls + M.staticSize ≤ M.abi.sizes ∧
      (∀ t th, s.threads t = some th → Apart staticTls M.staticSize th.staticTls M.staticSize) ∧
      ∀ p c, s.heap p = some c → Apart staticTls M.staticSize p c.size
  | .exit tid => ∃ th, s.threads tid = some th ∧ (s.registering = none ∨ th.dtv = none) ∧
      ∀ k c, s.calls k = some c → c.tid ≠ tid
  | .call k tid moduleId offset copy => s.calls k = none ∧ (∃ th, s.threads tid = some th) ∧
      moduleId ≠ kTlsUninitializedModuleId ∧
      ∃ m, Registered s.moduleTable (moduleId - 1) m ∧
        (⟨tid, moduleId, offset, copy, .start⟩ : Call).place M < m.size
  | .advance k dtvAddr blockAddr => ∀ c, s.calls k = some c → c.pc = .slow →
      s.registering = none ∧ ∀ th, s.threads c.tid = some th → Fresh M s.heap s.threads dtvAddr
          (dtvSizeInBytes M.abi (calculateNewDtvCount M.abi s.moduleTable)) ∧
        ∀ r, updateTlsDtv M.abi s c.tid th dtvAddr = .ok r →
          ∀ m, s.moduleTable[c.idx M]? = some m → Fresh M r.1 s.threads blockAddr m.size

inductive Reachable (M : Machine) : State → Prop where
  | initial : Reachable M (initial M)
  | step {s s' : State} {op : Op} {r : Option ℕ} : Reachable M s → Valid M s op →
      step M s op = .ok (s', r) → Reachable M s'

/-- The memory of the thread for the module is at `p`: what its DTV says, up to date with the
module. -/
def Serves (s : State) (tid i p : ℕ) : Prop :=
  ∃ th m d, s.threads tid = some th ∧ Registered s.moduleTable i m ∧
    readDtv s.heap th.dtv = .ok d ∧ m.firstGeneration ≤ d.generation ∧
    d.modules[i]? = some p ∧ p ≠ 0

/-- Allocated for a thread and for this incarnation of a module. -/
def OwnMemory (M : Machine) (s : State) (tid : ℕ) (m : TlsModule) (p : ℕ) : Prop :=
  match m.staticOffset with
  | some offset => offset + m.size ≤ M.staticSize ∧
      ∃ th, s.threads tid = some th ∧ p = th.staticTls + offset
  | none => s.heap p = some ⟨tid, m.size, .block m.incarnation⟩

structure Sound (M : Machine) (s : State) : Prop where
  own : ∀ tid i p m, Serves s tid i p → Registered s.moduleTable i m → OwnMemory M s tid m p
  unshared : ∀ t i p m t' i' p' m', Serves s t i p → Serves s t' i' p' →
    Registered s.moduleTable i m → Registered s.moduleTable i' m' → ¬(t = t' ∧ i = i') →
    Apart p m.size p' m'.size

/-- No fault, the linker's vector apart. A call returns an address in the memory that serves the
thread for the module, on both paths; a thread that exits leaves nothing in the heap. -/
def Answered (M : Machine) (s : State) (op : Op) : Prop :=
  (step M s op = .error .vectorFull ∧ M.maxModules ≤ s.moduleTable.length) ∨
  ∃ s' r, step M s op = .ok (s', r) ∧
    (∀ k dtvAddr blockAddr c address, op = .advance k dtvAddr blockAddr → s.calls k = some c →
      r = some address → ∃ p m, Serves s' c.tid (c.idx M) p ∧
        Registered s'.moduleTable (c.idx M) m ∧ c.place M < m.size ∧ address = p + c.place M ∧
        ∀ d th, c.pc = .matched d → s.threads c.tid = some th → s.registering = none →
          ∀ dtvAddr blockAddr, Fresh M s.heap s.threads dtvAddr
            (dtvSizeInBytes M.abi (calculateNewDtvCount M.abi s.moduleTable)) →
            ∃ heap th',
              slowPath M.abi s c.tid th (c.idx M) dtvAddr blockAddr = .ok (p, heap, th')) ∧
    ∀ tid, op = .exit tid → ∀ p c, s'.heap p = some c → c.tid ≠ tid

end ElfTls
