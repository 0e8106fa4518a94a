import Bionic.ElfTlsDtv

/-! Runs of the dynamic TLS of a process: modules come and go, threads start and exit, and their
calls of `__tls_get_addr` take their steps in any order. -/
namespace ElfTlsRuns
open ElfTls ElfTlsDtv ByteMemory
open List Nat Option Function

/-- The newest generation that a DTV can have; while a module is being registered the new one is
not there yet. -/
def settled (s : State) : ℕ :=
  match s.registering with
  | none => s.generation
  | some _ => s.generation - 1

def limit (s : State) : ℕ :=
  match s.registering with
  | some ⟨i, ⟨_, _, some _, _, _, _⟩, _⟩ => i
  | _ => s.moduleTable.length

structure HeapInv (M : Machine) (h : Heap) (threads : ℕ → Option Thread) : Prop where
  null : h 0 = none
  cells : ∀ p q c c', h p = some c → h q = some c' → p ≠ q → Apart p c.size q c'.size
  areas : ∀ p c t th, h p = some c → threads t = some th → Apart p c.size th.staticTls M.staticSize
  bases : ∀ t th, threads t = some th → th.staticTls ≠ 0 ∧ th.staticTls + M.staticSize ≤ M.abi.sizes
  apart : ∀ t t' th th', threads t = some th → threads t' = some th' → t ≠ t' →
    Apart th.staticTls M.staticSize th'.staticTls M.staticSize
  below : ∀ p c, h p = some c → p + c.size ≤ M.abi.sizes
  owners : ∀ p c, h p = some c → ∃ th, threads c.tid = some th

/-- A registration that holds the lock: its slot is empty, and the copies have the new generation as
far as it has come. -/
structure RegInv (M : Machine) (s : State) (r : Registration) : Prop where
  slot : s.moduleTable[r.idx]? = some emptyModule
  first : r.entry.firstGeneration = s.generation
  soinfo : r.entry.soinfoPtr ≠ 0
  fits : ∀ o, r.entry.staticOffset = some o → o + r.entry.size ≤ s.cursor ∧
    ∀ m ∈ s.moduleTable, ∀ o', m.staticOffset = some o' → Apart o r.entry.size o' m.size
  phase : s.staticFinished = false → r.entry.staticOffset ≠ none
  linker : r.stage ≠ .linkerCopy → r.entry.firstGeneration ≤ s.linkerCopy
  libc : r.stage = .table → r.entry.firstGeneration ≤ s.libcCopy

structure TableInv (M : Machine) (s : State) : Prop where
  generation : s.generation = s.registrations + 1
  ok : TableOk s.moduleTable
  first : ∀ i m, Registered s.moduleTable i m → m.firstGeneration ≤ settled s ∧
    m.firstGeneration ≤ s.linkerCopy ∧ m.firstGeneration ≤ s.libcCopy
  length : s.moduleTable.length ≤ M.maxModules
  libcCopy : s.generationLibcSo = false → s.libcCopy = M.sizeMax
  fits : ∀ m ∈ s.moduleTable, ∀ o, m.staticOffset = some o → o + m.size ≤ s.cursor
  cursor : s.cursor ≤ M.staticSize
  apart : ∀ (i j : ℕ) (m m' : TlsModule) (o o' : ℕ), i ≠ j → s.moduleTable[i]? = some m →
    s.moduleTable[j]? = some m' → m.staticOffset = some o → m'.staticOffset = some o' →
    Apart o m.size o' m'.size
  ids : ∀ si, s.moduleIds si ≠ kTlsUninitializedModuleId →
    (∃ m, Registered s.moduleTable (s.moduleIds si - 1) m ∧ m.soinfoPtr = si) ∨
    ∃ r, s.registering = some r ∧ r.entry.soinfoPtr = si ∧ s.moduleIds si = r.idx + 1
  phase : s.staticFinished = false → ∀ (i : ℕ) (m : TlsModule), s.moduleTable[i]? = some m →
    (m.soinfoPtr ≠ 0 ∧ m.staticOffset ≠ none) ∨ ∃ r, s.registering = some r ∧ r.idx = i
  registering : ∀ r, s.registering = some r → RegInv M s r

def Ref (ds : List (ℕ × TlsDtv)) (d : Option ℕ) : Prop := d = none ∨ ∃ x ∈ ds, d = some x.1

/-- What a call for module `m` knows. -/
def PcInv (ds : List (ℕ × TlsDtv)) (m : TlsModule) : Pc → Prop
  | .start => True
  | .dtvLoaded d => Ref ds d
  | .generationLoaded d generation => Ref ds d ∧ m.firstGeneration ≤ generation
  | .matched d => ∃ x ∈ ds, d = some x.1 ∧ m.firstGeneration ≤ x.2.generation
  | .slow => True

structure CallInv (M : Machine) (s : State) (ds : List (ℕ × TlsDtv)) (c : Call) : Prop where
  thread : ∃ th, s.threads c.tid = some th
  id : c.moduleId ≠ kTlsUninitializedModuleId
  served : ∃ m, Registered s.moduleTable (c.moduleId - 1) m ∧ c.place M < m.size ∧ PcInv ds m c.pc

structure Inv (M : Machine) (s : State) (ds : ℕ → List (ℕ × TlsDtv)) : Prop where
  table : TableInv M s
  threads : ∀ tid th, s.threads tid = some th →
    ThreadInv s.moduleTable (settled s) (limit s) s.heap tid th (ds tid)
  heap : HeapInv M s.heap s.threads
  calls : ∀ k c, s.calls k = some c → CallInv M s (ds c.tid) c

variable {M : Machine} {s s' : State} {h : Heap} {tid i p : ℕ} {th : Thread}
  {ds : ℕ → List (ℕ × TlsDtv)} {m m' : TlsModule} {table : List TlsModule}

section
variable {h' : Heap} {threads : ℕ → Option Thread} {th' : Thread} {new : ℕ → ℕ → Prop}

theorem HeapInv.step (addr size) (hi : HeapInv M h threads) (hsp : HeapStep tid new h h')
    (hnw : ∀ q n, new q n → q = addr ∧ n = size) (hf : ∀ q n, new q n → Fresh M h threads q n)
    (hth : ∃ th, threads tid = some th) : HeapInv M h' threads := by
  constructor
  · cases h0 : h' 0 with
    | none => rfl
    | some c =>
      rcases hsp.cells 0 c h0 with ⟨-, hn⟩ | ⟨c', hc', -⟩
      · exact absurd rfl (hf 0 c.size hn).ne_zero
      · cases hi.null.symm.trans hc'
  · intro p q c c' hp hq hpq
    rcases hsp.cells p c hp with ⟨-, hnp⟩ | ⟨c1, hc1, hsz1, -⟩
    · rcases hsp.cells q c' hq with ⟨-, hnq⟩ | ⟨c2, hc2, hsz2, -⟩
      · exact absurd ((hnw p _ hnp).1.trans (hnw q _ hnq).1.symm) hpq
      · exact hsz2 ▸ (hf p _ hnp).cells q c2 hc2
    · rcases hsp.cells q c' hq with ⟨-, hnq⟩ | ⟨c2, hc2, hsz2, -⟩
      · exact hsz1 ▸ ((hf q _ hnq).cells p c1 hc1).symm
      · exact hsz1 ▸ hsz2 ▸ hi.cells p q c1 c2 hc1 hc2 hpq
  · intro p c t th hp ht
    rcases hsp.cells p c hp with ⟨-, hn⟩ | ⟨c', hc', hsz, -⟩
    · exact (hf p _ hn).areas t th ht
    · exact hsz ▸ hi.areas p c' t th hc' ht
  · exact hi.bases
  · exact hi.apart
  · intro p c hp
    rcases hsp.cells p c hp with ⟨-, hn⟩ | ⟨c', hc', hsz, -⟩
    · exact (hf p _ hn).below
    · exact hsz ▸ hi.below p c' hc'
  · intro p c hp
    rcases hsp.cells p c hp with ⟨htd, -⟩ | ⟨c', hc', -, htd⟩
    · exact htd ▸ hth
    · exact htd ▸ hi.owners p c' hc'

theorem HeapInv.congr_threads (hi : HeapInv M h threads) (ht : threads tid = some th)
    (hsa : th'.staticTls = th.staticTls) : HeapInv M h (update threads tid (some th')) := by
  have ho : ∀ t th1, update threads tid (some th') t = some th1 →
      ∃ th0, threads t = some th0 ∧ th1.staticTls = th0.staticTls := by
    intro t th1 h1
    by_cases htt : t = tid
    · subst htt
      rw [update_self] at h1
      cases h1
      exact ⟨th, ht, hsa⟩
    · rw [update_of_ne htt] at h1
      exact ⟨th1, h1, rfl⟩
  constructor
  · exact hi.null
  · exact hi.cells
  · intro p c t th1 hp h1
    obtain ⟨th0, h0, heq⟩ := ho t th1 h1
    exact heq ▸ hi.areas p c t th0 hp h0
  · intro t th1 h1
    obtain ⟨th0, h0, heq⟩ := ho t th1 h1
    exact heq ▸ hi.bases t th0 h0
  · intro t t' th1 th2 h1 h2 hn
    obtain ⟨th0, h0, heq⟩ := ho t th1 h1
    obtain ⟨th₀', h₀', he'⟩ := ho t' th2 h2
    exact heq ▸ he' ▸ hi.apart t t' th0 th₀' h0 h₀' hn
  · exact hi.below
  · intro p c hp
    obtain ⟨th0, h0⟩ := hi.owners p c hp
    by_cases htt : c.tid = tid
    · exact ⟨th', by rw [htt, update_self]⟩
    · exact ⟨th0, by rw [update_of_ne htt]; exact h0⟩

variable {dtvAddr blockAddr : ℕ}

theorem settled_of_none (h : s.registering = none) : settled s = s.generation := by
  rw [settled, h]

theorem limit_of_none (h : s.registering = none) : limit s = s.moduleTable.length := by
  rw [limit, h]

theorem limit_le_of_none (h : s.registering = none) (h' : s'.registering = none)
    (hl : s.moduleTable.length ≤ s'.moduleTable.length) : limit s ≤ limit s' := by
  rw [limit_of_none h, limit_of_none h']
  exact hl

theorem settled_le (s) : settled s ≤ s.generation := by
  rw [settled]
  split
  · exact le_rfl
  · exact sub_le _ _

theorem Inv.refresh (hiv : Inv M s ds) (hrg : s.registering = none)
    (hth : s.threads tid = some th) (hm : Registered s.moduleTable i m)
    (hf : s.heap dtvAddr = none) : ∃ h th' ds', updateTlsDtv M.abi s tid th dtvAddr = .ok (h, th') ∧
      Refreshed s tid (NewDtv M s dtvAddr) th (ds tid) h th' ds' := by
  have ht := hiv.threads tid th hth
  rw [settled_of_none hrg, limit_of_none hrg] at ht
  exact updateTlsDtv_spec ht hiv.table.ok hiv.table.length
    (zero_lt_of_lt (List.getElem?_eq_some_iff.mp hm.1).1) hiv.heap.null hf

structure SlowInv (M : Machine) (s : State) (tid i : ℕ) (th : Thread) (ds : List (ℕ × TlsDtv))
    (p : ℕ) (h : Heap) (th' : Thread) (ds' : List (ℕ × TlsDtv)) : Prop where
  inv : ThreadInv s.moduleTable s.generation s.moduleTable.length h tid th' ds'
  current : (top ds').generation = s.generation
  slot : (top ds').modules[i]? = some p
  ne_zero : p ≠ 0
  staticTls : th'.staticTls = th.staticTls
  heap : HeapInv M h s.threads
  others : ∀ q c, c.tid ≠ tid → (h q = some c ↔ s.heap q = some c)
  newer : ∀ x ∈ ds, ∃ x' ∈ ds', x'.1 = x.1 ∧ x.2.generation ≤ x'.2.generation

theorem Inv.slowPath (hiv : Inv M s ds) (hrg : s.registering = none)
    (hth : s.threads tid = some th) (hm : Registered s.moduleTable i m)
    (hd : Fresh M s.heap s.threads dtvAddr
      (dtvSizeInBytes M.abi (calculateNewDtvCount M.abi s.moduleTable)))
    (hb : ∀ r, updateTlsDtv M.abi s tid th dtvAddr = .ok r →
      Fresh M r.1 s.threads blockAddr m.size) :
    ∃ p h th' ds', slowPath M.abi s tid th i dtvAddr blockAddr = .ok (p, h, th') ∧
      SlowInv M s tid i th (ds tid) p h th' ds' := by
  obtain ⟨h, th', ds', hu, hr⟩ := hiv.refresh hrg hth hm hd.unused
  have hf := (hiv.table.first i m hm).1
  rw [settled_of_none hrg] at hf
  have hh : HeapInv M h s.threads := by
    refine hiv.heap.step _ _ hr.heapStep (fun q n hn => hn) ?_ ⟨th, hth⟩
    rintro q n ⟨rfl, rfl⟩
    exact hd
  have hfr := hb (h, th') hu
  have hba := (hiv.heap.bases tid th hth).1
  obtain ⟨p, h', ds'', ho, hp⟩ := moduleBlock_spec hr.inv hm (hiv.table.ok.pos i m hm)
    (hr.current ▸ hf) (hr.staticTls ▸ hba) hh.null hfr.unused hfr.ne_zero
  refine ⟨p, h', th', ds'', ?_, hp.inv, hp.generation.trans hr.current, hp.slot, hp.ne_zero,
    hr.staticTls, ?_, ?_, ?_⟩
  · rw [ElfTls.slowPath, hu]
    dsimp only
    rw [ho]
    rfl
  · refine hh.step _ _ hp.heapStep (fun q n hn => hn) ?_ ⟨th, hth⟩
    rintro q n ⟨rfl, rfl⟩
    exact hfr
  · intro q c hc
    exact (hp.heapStep.others q c hc).trans (hr.heapStep.others q c hc)
  · intro x hx
    obtain ⟨x', hx', ha, hg⟩ := hr.newer x hx
    obtain ⟨x'', hx'', ha', hg'⟩ := hp.newer x' hx'
    exact ⟨x'', hx'', ha'.trans ha, hg.trans hg'⟩

variable {table' : List TlsModule} {j : ℕ}

theorem Inv.table_step (hiv : Inv M s ds) (htl : TableInv M s')
    (htr : s'.threads = s.threads) (hh : s'.heap = s.heap) (hcs : s'.calls = s.calls)
    (hsp : TableStep s.moduleTable s'.moduleTable (settled s) (limit s))
    (hst : settled s ≤ settled s') (hl : limit s ≤ limit s')
    (hsr : ∀ k c m, s.calls k = some c → Registered s.moduleTable (c.moduleId - 1) m →
      Registered s'.moduleTable (c.moduleId - 1) m) : Inv M s' ds := by
  constructor
  · exact htl
  · rw [htr, hh]
    intro tid th hth
    exact (hiv.threads tid th hth).congr_table hsp hst hl hiv.heap.null
  · rw [htr, hh]
    exact hiv.heap
  intro k c hc
  rw [hcs] at hc
  obtain ⟨hth, hid, m, hm, hp, hpc⟩ := hiv.calls k c hc
  exact ⟨htr ▸ hth, hid, m, hsr k c m hc hm, hp, hpc⟩

theorem TableStep.refl (table gen limit) : TableStep table table gen limit :=
  ⟨fun _ _ hm => .inl hm, fun _ hs => hs, fun _ hs => .inl hs⟩

/-- The slot that a registration takes is empty, the others are as before. -/
structure Slot (table : List TlsModule) (i : ℕ) (table' : List TlsModule) : Prop where
  slot : table'[i]? = some emptyModule
  old : ∀ (j : ℕ) (m : TlsModule), table[j]? = some m → table'[j]? = some m
  new : ∀ (j : ℕ) (m : TlsModule), table'[j]? = some m →
    table[j]? = some m ∨ (j = i ∧ m = emptyModule)
  full : (∀ m ∈ table, m.soinfoPtr ≠ 0) → i = table.length
  length : table.length ≤ table'.length

theorem getUnusedModuleIndex_spec (ho : TableOk table) (hl : table.length ≤ M.maxModules) :
    (getUnusedModuleIndex M table = .error .vectorFull ∧ M.maxModules ≤ table.length) ∨
    ∃ i table', getUnusedModuleIndex M table = .ok (i, table') ∧ Slot table i table' ∧
      table'.length ≤ M.maxModules := by
  rw [getUnusedModuleIndex]
  cases hf : table.findIdx? fun m => m.soinfoPtr == 0 with
  | some i =>
    obtain ⟨hlt, hz, -⟩ := List.findIdx?_eq_some_iff_getElem.mp hf
    have hg : table[i]? = some table[i] := List.getElem?_eq_getElem hlt
    have hep := ho.empty i _ hg (beq_iff_eq.mp hz)
    refine .inr ⟨i, table, rfl, ⟨hep ▸ hg, fun _ _ hm => hm, fun _ _ hm => .inl hm, ?_, le_rfl⟩, hl⟩
    intro hfu
    exact absurd (beq_iff_eq.mp hz) (hfu _ (getElem_mem hlt))
  | none =>
    by_cases hlt : table.length < M.maxModules
    · rw [if_pos hlt]
      refine .inr ⟨table.length, table ++ [emptyModule], rfl, ⟨?_, ?_, ?_, fun _ => rfl, ?_⟩, ?_⟩
      · rw [List.getElem?_append_right le_rfl, Nat.sub_self]
        rfl
      · intro j m hm
        rwa [List.getElem?_append_left (List.getElem?_eq_some_iff.mp hm).1]
      · intro j m hm
        rcases lt_or_ge j table.length with hj | hj
        · exact .inl (by rwa [List.getElem?_append_left hj] at hm)
        rw [List.getElem?_append_right hj] at hm
        obtain ⟨hj', hm'⟩ := List.getElem?_eq_some_iff.mp hm
        rw [length_singleton] at hj'
        refine .inr ⟨by omega, ?_⟩
        rw [← hm', getElem_singleton]
      · rw [length_append]
        exact le_add_right _ _
      · rw [length_append, length_singleton]
        exact hlt
    · rw [if_neg hlt]
      exact .inl ⟨rfl, not_lt.mp hlt⟩

theorem emptyModule_not_registered : ¬Registered table i emptyModule := fun h => h.2 rfl

section
variable (hs : Slot table i table')
include hs

theorem Slot.registered_iff : Registered table' j m ↔ Registered table j m := by
  refine ⟨fun hm => ?_, fun hm => ⟨hs.old j m hm.1, hm.2⟩⟩
  rcases hs.new j m hm.1 with ho | ⟨-, rfl⟩
  · exact ⟨ho, hm.2⟩
  · exact absurd hm emptyModule_not_registered

theorem Slot.isStatic_iff : IsStatic table' j ↔ IsStatic table j := by
  refine ⟨?_, fun ⟨m, o, hm, ho⟩ => ⟨m, o, hs.old j m hm, ho⟩⟩
  rintro ⟨m, o, hm, ho⟩
  rcases hs.new j m hm with hod | ⟨-, rfl⟩
  · exact ⟨m, o, hod, ho⟩
  · cases ho

theorem Slot.tableStep (gen limit) : TableStep table table' gen limit :=
  ⟨fun _ _ hm => .inl (hs.registered_iff.mp hm), fun _ h => hs.isStatic_iff.mpr h,
    fun _ h => .inl (hs.isStatic_iff.mp h)⟩

end

variable {si size align : ℕ} {staticOffset : Option ℕ}

def registered (M : Machine) (s : State) (si size align : ℕ) (staticOffset : Option ℕ) (i : ℕ)
    (table : List TlsModule) : State :=
  { s with
    moduleTable := table
    moduleIds := update s.moduleIds si (i + 1)
    generation := (s.generation + 1) % M.abi.sizes
    registrations := s.registrations + 1
    registering := some ⟨i,
      ⟨size, align, staticOffset, (s.generation + 1) % M.abi.sizes, si, s.registrations + 1⟩,
      .linkerCopy⟩ }

theorem TableInv.registered (size align) (ht : TableInv M s) (hrg : s.registering = none)
    (hsi : si ≠ 0) (hsl : Slot s.moduleTable i table) (hl : table.length ≤ M.maxModules)
    (hsa : ∀ o, staticOffset = some o → o + size ≤ s.cursor ∧
      ∀ m ∈ s.moduleTable, ∀ o', m.staticOffset = some o' → Apart o size o' m.size)
    (hp : s.staticFinished = false → staticOffset ≠ none)
    (hb : s.registrations + 1 + 1 < M.abi.sizes) :
    TableInv M (ElfTlsRuns.registered M s si size align staticOffset i table) := by
  have hg : (s.generation + 1) % M.abi.sizes = s.generation + 1 := by
    rw [ht.generation]
    exact mod_eq_of_lt hb
  have hst : settled (ElfTlsRuns.registered M s si size align staticOffset i table) =
      settled s := by
    rw [settled_of_none hrg]
    change (s.generation + 1) % M.abi.sizes - 1 = s.generation
    rw [hg, Nat.add_sub_cancel]
  have hmm : ∀ m ∈ table, ∀ o, m.staticOffset = some o → m ∈ s.moduleTable := by
    intro m hm o ho
    obtain ⟨j, hj⟩ := mem_iff_getElem?.mp hm
    rcases hsl.new j m hj with hod | ⟨-, rfl⟩
    · exact mem_of_getElem? hod
    · cases ho
  constructor
  · change (s.generation + 1) % M.abi.sizes = s.registrations + 1 + 1
    rw [hg, ht.generation]
  · constructor
    · intro j m hm h0
      rcases hsl.new j m hm with hod | ⟨-, rfl⟩
      · exact ht.ok.empty j m hod h0
      · rfl
    · exact fun j m hm => ht.ok.pos j m (hsl.registered_iff.mp hm)
  · intro j m hm
    rw [hst]
    exact ht.first j m (hsl.registered_iff.mp hm)
  · exact hl
  · exact ht.libcCopy
  · exact fun m hm o ho => ht.fits m (hmm m hm o ho) o ho
  · exact ht.cursor
  · intro j k m m' o o' hjk hm hm' ho ho'
    rcases hsl.new j m hm with hod | ⟨-, rfl⟩
    · rcases hsl.new k m' hm' with hod' | ⟨-, rfl⟩
      · exact ht.apart j k m m' o o' hjk hod hod' ho ho'
      · cases ho'
    · cases ho
  · intro si' hid
    change update s.moduleIds si (i + 1) si' ≠ kTlsUninitializedModuleId at hid
    change (∃ m, Registered table (update s.moduleIds si (i + 1) si' - 1) m ∧ _) ∨
      ∃ r : Registration, _ ∧ _ ∧ update s.moduleIds si (i + 1) si' = r.idx + 1
    by_cases hsi' : si' = si
    · subst hsi'
      rw [update_self]
      exact .inr ⟨_, rfl, rfl, rfl⟩
    rw [update_of_ne hsi'] at hid ⊢
    rcases ht.ids si' hid with ⟨m, hm, hpr⟩ | ⟨r, hr, -⟩
    · exact .inl ⟨m, hsl.registered_iff.mpr hm, hpr⟩
    · cases hrg.symm.trans hr
  · intro hf j m hm
    rcases hsl.new j m hm with hod | ⟨rfl, -⟩
    · rcases ht.phase hf j m hod with hu | ⟨r, hr, -⟩
      · exact .inl hu
      · cases hrg.symm.trans hr
    · exact .inr ⟨_, rfl, rfl⟩
  · intro r hr
    cases hr
    refine ⟨hsl.slot, rfl, hsi, ?_, hp, fun h => absurd rfl h, nofun⟩
    intro o ho
    obtain ⟨hft, ha⟩ := hsa o ho
    exact ⟨hft, fun m hm o' ho' => ha m (hmm m hm o' ho') o' ho'⟩

theorem reserve_spec {cursor skew o c} (h : reserve M cursor size align skew = .ok (o, c)) :
    cursor ≤ o ∧ o + size = c := by
  rw [reserve] at h
  split at h
  · cases h
  rename_i ho
  split at h
  · cases h
  cases h
  refine ⟨?_, rfl⟩
  rw [alignChecked] at ho
  split at ho
  · cases ho
  dsimp only at ho
  split at ho
  · cases ho
  rename_i hlt
  cases ho
  exact not_lt.mp hlt

theorem Inv.raise {c} (hiv : Inv M s ds) (hc : s.cursor ≤ c) (hl : c ≤ M.staticSize) :
    Inv M { s with cursor := c } ds := by
  have ht := hiv.table
  refine hiv.table_step ?_ rfl rfl rfl (TableStep.refl _ _ _) le_rfl le_rfl fun _ _ _ _ hm => hm
  refine ⟨ht.generation, ht.ok, ht.first, ht.length, ht.libcCopy,
    fun m hm o ho => (ht.fits m hm o ho).trans hc, hl, ht.apart, ht.ids, ht.phase, fun r hr => ?_⟩
  obtain ⟨hsl, hf, hsi, hft, hp, hlk, hlc⟩ := ht.registering r hr
  exact ⟨hsl, hf, hsi, fun o ho => ⟨(hft o ho).1.trans hc, (hft o ho).2⟩, hp, hlk, hlc⟩

theorem Inv.registerTlsModule (hiv : Inv M s ds) (hrg : s.registering = none) (hsi : si ≠ 0)
    (size align) (hft : ∀ o, staticOffset = some o → o + size ≤ s.cursor ∧
      ∀ m ∈ s.moduleTable, ∀ o', m.staticOffset = some o' → Apart o size o' m.size)
    (hp : s.staticFinished = false ↔ staticOffset ≠ none) :
    (registerTlsModule M s si size align staticOffset = .error .vectorFull ∧
      M.maxModules ≤ s.moduleTable.length) ∨
    ∃ s', registerTlsModule M s si size align staticOffset = .ok s' ∧
      (s'.registrations + 1 < M.abi.sizes → Inv M s' ds) := by
  have ht := hiv.table
  rw [ElfTls.registerTlsModule]
  rcases getUnusedModuleIndex_spec ht.ok ht.length with
    ⟨herr, hfu⟩ | ⟨i, table, hok, hsl, hl⟩
  · rw [herr]
    exact .inl ⟨rfl, hfu⟩
  rw [hok]
  refine .inr ⟨_, rfl, fun hb => ?_⟩
  have hn : staticOffset ≠ none → i = s.moduleTable.length := by
    intro hso
    refine hsl.full fun m hm => ?_
    obtain ⟨j, hj⟩ := mem_iff_getElem?.mp hm
    rcases ht.phase (hp.mpr hso) j m hj with hu | ⟨r, hr, -⟩
    · exact hu.1
    · cases hrg.symm.trans hr
  have htl := ht.registered size align hrg hsi hsl hl hft hp.mp hb
  refine hiv.table_step htl rfl rfl rfl (hsl.tableStep _ _) ?_ ?_ ?_
  · have hg : (s.generation + 1) % M.abi.sizes = s.generation + 1 := by
      rw [ht.generation]
      exact mod_eq_of_lt hb
    rw [settled_of_none hrg]
    change s.generation ≤ (s.generation + 1) % M.abi.sizes - 1
    rw [hg, Nat.add_sub_cancel]
  · rw [limit_of_none hrg, limit]
    cases staticOffset with
    | none => exact hsl.length
    | some o => exact (hn (some_ne_none o)).ge
  · exact fun k c m _ hm => hsl.registered_iff.mpr hm

theorem Inv.register (hiv : Inv M s ds) {skew} (hv : Valid M s (.register si size align skew)) :
    (registerSoinfoTls M s si size align skew = .error .vectorFull ∧
      M.maxModules ≤ s.moduleTable.length) ∨
    ∃ s', registerSoinfoTls M s si size align skew = .ok s' ∧
      (s'.registrations + 1 < M.abi.sizes → Inv M s' ds) := by
  obtain ⟨hrg, hsi, hsa⟩ := hv
  rw [registerSoinfoTls]
  split
  · exact .inr ⟨s, rfl, fun _ => hiv⟩
  split
  · rename_i hf
    exact hiv.registerTlsModule hrg hsi size align nofun (by simp [hf])
  rename_i hf
  obtain ⟨⟨o, c⟩, hr, hl⟩ := hsa (by simpa using hf)
  rw [hr]
  obtain ⟨hc, rfl⟩ := reserve_spec hr
  refine (hiv.raise (hc.trans (Nat.le_add_right o size)) hl).registerTlsModule hrg hsi
    size align ?_ (by simpa using hf)
  rintro o' ⟨⟩
  exact ⟨le_rfl, fun m hm o' ho' => .inr ((hiv.table.fits m hm o' ho').trans hc)⟩

variable {r : Registration}

section
variable (ht : TableInv M s) (hr : s.registering = some r)
include ht hr

theorem TableInv.restage {linker libc stage}
    (hl : s.generation ≤ linker ∨ s.linkerCopy ≤ linker)
    (hlc : s.generation ≤ libc ∨ s.libcCopy ≤ libc)
    (hmx : s.generationLibcSo = false → libc = M.sizeMax)
    (hrl : r.entry.firstGeneration ≤ linker)
    (hrc : stage = .table → r.entry.firstGeneration ≤ libc) : TableInv M { s with
      linkerCopy := linker, libcCopy := libc, registering := some { r with stage := stage } } := by
  have hrg := ht.registering r hr
  constructor
  · exact ht.generation
  · exact ht.ok
  · intro j m hm
    obtain ⟨hf, ho, ho'⟩ := ht.first j m hm
    have hg := hf.trans (settled_le s)
    rw [settled, hr] at hf
    exact ⟨hf, hl.elim hg.trans ho.trans, hlc.elim hg.trans ho'.trans⟩
  · exact ht.length
  · exact hmx
  · exact ht.fits
  · exact ht.cursor
  · exact ht.apart
  · intro si hid
    rcases ht.ids si hid with ho | ⟨r', hr', hp, hix⟩
    · exact .inl ho
    · cases hr.symm.trans hr'
      exact .inr ⟨_, rfl, hp, hix⟩
  · intro hfn j m hm
    rcases ht.phase hfn j m hm with hu | ⟨r', hr', hix⟩
    · exact .inl hu
    · cases hr.symm.trans hr'
      exact .inr ⟨_, rfl, hix⟩
  · intro r' hr'
    cases hr'
    exact ⟨hrg.slot, hrg.first, hrg.soinfo, hrg.fits, hrg.phase, fun _ => hrl, hrc⟩

theorem TableInv.linkerCopy : TableInv M { s with
      linkerCopy := r.entry.firstGeneration
      registering := some { r with stage := .libcCopy } } :=
  ht.restage hr (.inl (ht.registering r hr).first.ge) (.inr le_rfl) ht.libcCopy le_rfl nofun

theorem TableInv.storeLibcCopy (hsg : r.stage = .libcCopy)
    (hb : s.registrations + 1 < M.abi.sizes) : TableInv M { s with
      libcCopy := if s.generationLibcSo then r.entry.firstGeneration else s.libcCopy
      registering := some { r with stage := .table } } := by
  have hrg := ht.registering r hr
  have hc : s.generation ≤
      if s.generationLibcSo then r.entry.firstGeneration else s.libcCopy := by
    cases hst : s.generationLibcSo with
    | true => exact hrg.first.ge
    | false =>
      have hm := ht.libcCopy hst
      have hg := ht.generation
      rw [Machine.sizeMax] at hm
      change s.generation ≤ s.libcCopy
      omega
  refine ht.restage hr (.inr le_rfl) (.inl hc) (fun hst => ?_) ?_
    fun _ => hrg.first.trans_le hc
  · rw [hst]
    exact ht.libcCopy hst
  · exact hrg.linker (by rw [hsg]; exact nofun)

end

theorem set_slot (h : (table.set i m)[j]? = some m') :
    (j = i ∧ m' = m) ∨ (j ≠ i ∧ table[j]? = some m') := by
  rw [List.getElem?_set] at h
  by_cases hij : i = j
  · rw [if_pos hij] at h
    split at h
    · exact .inl ⟨hij.symm, (Option.some.inj h).symm⟩
    · cases h
  · rw [if_neg hij] at h
    exact .inr ⟨Ne.symm hij, h⟩

theorem set_other (hj : j ≠ i) (h : table[j]? = some m') : (table.set i m)[j]? = some m' := by
  rw [List.getElem?_set, if_neg hj.symm]
  exact h

theorem TableInv.storeModule (ht : TableInv M s)
    (hr : s.registering = some r) (hsg : r.stage = .table) : TableInv M { s with
      moduleTable := s.moduleTable.set r.idx r.entry, registering := none } := by
  have hrg := ht.registering r hr
  have hlt := (List.getElem?_eq_some_iff.mp hrg.slot).1
  have hl := hrg.linker (by rw [hsg]; exact nofun)
  have hmm : ∀ {j m}, s.moduleTable[j]? = some m → m ∈ s.moduleTable := mem_of_getElem?
  constructor
  · exact ht.generation
  · constructor
    · intro j m hm h0
      rcases set_slot hm with ⟨-, rfl⟩ | ⟨-, hm⟩
      · exact absurd h0 hrg.soinfo
      · exact ht.ok.empty j m hm h0
    · intro j m hm
      rcases set_slot hm.1 with ⟨-, rfl⟩ | ⟨-, hm'⟩
      · have := ht.generation
        rw [hrg.first]
        omega
      · exact ht.ok.pos j m ⟨hm', hm.2⟩
  · intro j m hm
    rcases set_slot hm.1 with ⟨-, rfl⟩ | ⟨-, hm'⟩
    · exact ⟨hrg.first.le, hl, hrg.libc hsg⟩
    · obtain ⟨hft, hc⟩ := ht.first j m ⟨hm', hm.2⟩
      exact ⟨hft.trans (settled_le s), hc⟩
  · exact (length_set ..).trans_le ht.length
  · exact ht.libcCopy
  · intro m hm o ho
    obtain ⟨j, hj⟩ := mem_iff_getElem?.mp hm
    rcases set_slot hj with ⟨-, rfl⟩ | ⟨-, hj⟩
    · exact (hrg.fits o ho).1
    · exact ht.fits m (hmm hj) o ho
  · exact ht.cursor
  · intro j k m m' o o' hjk hj hk ho ho'
    rcases set_slot hj with ⟨rfl, rfl⟩ | ⟨hji, hj⟩
    · rcases set_slot hk with ⟨rfl, -⟩ | ⟨-, hk⟩
      · exact absurd rfl hjk
      · exact (hrg.fits o ho).2 m' (hmm hk) o' ho'
    · rcases set_slot hk with ⟨rfl, rfl⟩ | ⟨-, hk⟩
      · exact ((hrg.fits o' ho').2 m (hmm hj) o ho).symm
      · exact ht.apart j k m m' o o' hjk hj hk ho ho'
  · intro si hid
    rcases ht.ids si hid with ⟨m, hm, hp⟩ | ⟨r', hr', hp, hix⟩
    · refine .inl ⟨m, ⟨set_other ?_ hm.1, hm.2⟩, hp⟩
      intro hix
      rw [hix] at hm
      cases hrg.slot.symm.trans hm.1
      exact emptyModule_not_registered hm
    · cases hr.symm.trans hr'
      refine .inl ⟨r.entry, ⟨?_, hrg.soinfo⟩, hp⟩
      rw [hix, Nat.add_sub_cancel, List.getElem?_set, if_pos rfl, if_pos hlt]
  · intro hf j m hm
    rcases set_slot hm with ⟨-, rfl⟩ | ⟨hji, hm⟩
    · exact .inl ⟨hrg.soinfo, hrg.phase hf⟩
    rcases ht.phase hf j m hm with hu | ⟨r', hr', hix⟩
    · exact .inl hu
    · cases hr.symm.trans hr'
      exact absurd hix.symm hji
  · exact nofun

theorem limit_of_static {o} (hr : s.registering = some r)
    (ho : r.entry.staticOffset = some o) : limit s = r.idx := by
  obtain ⟨i, ⟨size, align, offset, first, ptr, n⟩, stage⟩ := r
  cases ho
  rw [limit, hr]

theorem limit_of_dynamic (hr : s.registering = some r)
    (ho : r.entry.staticOffset = none) : limit s = s.moduleTable.length := by
  obtain ⟨i, ⟨size, align, offset, first, ptr, n⟩, stage⟩ := r
  cases ho
  rw [limit, hr]

theorem limit_congr (s' r')
    (hr : s.registering = some r) (hr' : s'.registering = some r') (hix : r'.idx = r.idx)
    (hey : r'.entry = r.entry) (htl : s'.moduleTable = s.moduleTable) : limit s ≤ limit s' := by
  refine le_of_eq ?_
  cases ho : r.entry.staticOffset with
  | none => rw [limit_of_dynamic hr ho, limit_of_dynamic hr' (hey ▸ ho), htl]
  | some o => rw [limit_of_static hr ho, limit_of_static hr' (hey ▸ ho), hix]

theorem Inv.registerNext (hiv : Inv M s ds) (hb : s.registrations + 1 < M.abi.sizes) :
    Inv M (registerNext s) ds := by
  have ht := hiv.table
  cases hr : s.registering with
  | none =>
    rw [ElfTls.registerNext, hr]
    exact hiv
  | some r =>
    obtain ⟨i, m, stage⟩ := r
    have hrg := ht.registering _ hr
    cases stage with
    | linkerCopy =>
      have hn := ht.linkerCopy hr
      rw [ElfTls.registerNext, hr]
      refine hiv.table_step hn rfl rfl rfl (TableStep.refl _ _ _) ?_ ?_ fun _ _ _ _ hm => hm
      · rw [settled, settled, hr]
      · exact limit_congr _ ⟨i, m, .libcCopy⟩ hr rfl rfl rfl rfl
    | libcCopy =>
      have hn := ht.storeLibcCopy hr rfl hb
      rw [ElfTls.registerNext, hr]
      refine hiv.table_step hn rfl rfl rfl (TableStep.refl _ _ _) ?_ ?_ fun _ _ _ _ hm => hm
      · rw [settled, settled, hr]
      · exact limit_congr _ ⟨i, m, .table⟩ hr rfl rfl rfl rfl
    | table =>
      have hn := ht.storeModule hr rfl
      have hl := (List.getElem?_eq_some_iff.mp hrg.slot).1
      have hg := ht.generation
      have hst : settled s = s.generation - 1 := by rw [settled, hr]
      rw [ElfTls.registerNext, hr]
      refine hiv.table_step hn rfl rfl rfl ⟨?_, ?_, ?_⟩ (settled_le s) ?_ ?_
      · intro j m' hm'
        rcases set_slot hm'.1 with ⟨-, rfl⟩ | ⟨-, hod⟩
        · right
          have hf : m'.firstGeneration = s.generation := hrg.first
          omega
        · exact .inl ⟨hod, hm'.2⟩
      · rintro j ⟨m', o, hm', ho⟩
        refine ⟨m', o, set_other ?_ hm', ho⟩
        rintro rfl
        cases hrg.slot.symm.trans hm'
        cases ho
      · rintro j ⟨m', o, hm', ho⟩
        rcases set_slot hm' with ⟨rfl, rfl⟩ | ⟨-, hod⟩
        · exact .inr (limit_of_static hr ho).le
        · exact .inl ⟨m', o, hod, ho⟩
      · change limit s ≤ (s.moduleTable.set i m).length
        rw [length_set]
        cases ho : m.staticOffset with
        | none => exact (limit_of_dynamic hr ho).le
        | some o => exact (limit_of_static hr ho).le.trans hl.le
      intro k c m' _ hm'
      refine ⟨set_other ?_ hm'.1, hm'.2⟩
      intro hix
      rw [hix] at hm'
      cases hrg.slot.symm.trans hm'.1
      exact emptyModule_not_registered hm'

theorem TableInv.unregister (ht : TableInv M s) (hrg : s.registering = none)
    (hm : Registered s.moduleTable i m) (ho : m.staticOffset = none) (hsi : m.soinfoPtr = si) :
    TableInv M { s with
      moduleTable := s.moduleTable.set i emptyModule
      moduleIds := update s.moduleIds si kTlsUninitializedModuleId } := by
  have hst : settled { s with
      moduleTable := s.moduleTable.set i emptyModule
      moduleIds := update s.moduleIds si kTlsUninitializedModuleId } = settled s := by
    rw [settled, settled]
  have hod : ∀ {j m'}, Registered (s.moduleTable.set i emptyModule) j m' →
      Registered s.moduleTable j m' := by
    intro j m' hm'
    rcases set_slot hm'.1 with ⟨-, rfl⟩ | ⟨-, h⟩
    · exact absurd hm' emptyModule_not_registered
    · exact ⟨h, hm'.2⟩
  constructor
  · exact ht.generation
  · constructor
    · intro j m' hm' h0
      rcases set_slot hm' with ⟨-, rfl⟩ | ⟨-, h⟩
      · rfl
      · exact ht.ok.empty j m' h h0
    · exact fun j m' hm' => ht.ok.pos j m' (hod hm')
  · intro j m' hm'
    rw [hst]
    exact ht.first j m' (hod hm')
  · exact (length_set ..).trans_le ht.length
  · exact ht.libcCopy
  · intro m' hm' o ho'
    obtain ⟨j, hj⟩ := mem_iff_getElem?.mp hm'
    rcases set_slot hj with ⟨-, rfl⟩ | ⟨-, hj⟩
    · cases ho'
    · exact ht.fits m' (mem_of_getElem? hj) o ho'
  · exact ht.cursor
  · intro j k m1 m2 o o' hjk hj hk ho1 ho2
    rcases set_slot hj with ⟨-, rfl⟩ | ⟨-, hj⟩
    · cases ho1
    rcases set_slot hk with ⟨-, rfl⟩ | ⟨-, hk⟩
    · cases ho2
    · exact ht.apart j k m1 m2 o o' hjk hj hk ho1 ho2
  · intro si' hid
    change update s.moduleIds si kTlsUninitializedModuleId si' ≠ _ at hid
    by_cases hsi' : si' = si
    · subst hsi'
      rw [update_self] at hid
      exact absurd rfl hid
    rw [update_of_ne hsi'] at hid
    rcases ht.ids si' hid with ⟨m', hm', hp⟩ | ⟨r, hr, -⟩
    · left
      change ∃ m', Registered (s.moduleTable.set i emptyModule)
        (update s.moduleIds si kTlsUninitializedModuleId si' - 1) m' ∧ _
      rw [update_of_ne hsi']
      refine ⟨m', ⟨set_other ?_ hm'.1, hm'.2⟩, hp⟩
      intro hix
      rw [hix] at hm'
      cases hm.1.symm.trans hm'.1
      exact hsi' (hp.symm.trans hsi)
    · cases hrg.symm.trans hr
  · intro hf
    rcases ht.phase hf i m hm.1 with hu | ⟨r, hr, -⟩
    · exact absurd ho hu.2
    · cases hrg.symm.trans hr
  · intro r hr
    cases hrg.symm.trans hr

theorem Inv.unregister (hiv : Inv M s ds) (hv : Valid M s (.unregister si)) :
    ∃ s', unregisterSoinfoTls s si = .ok s' ∧ Inv M s' ds := by
  obtain ⟨hrg, hv⟩ := hv
  rw [unregisterSoinfoTls]
  by_cases hid : s.moduleIds si = kTlsUninitializedModuleId
  · rw [if_pos hid]
    exact ⟨s, rfl, hiv⟩
  obtain ⟨hd, hcs⟩ := hv hid
  rcases hiv.table.ids si hid with ⟨m, hm, hp⟩ | ⟨r, hr, -⟩
  · have ho := hd m hm.1
    have hn := hiv.table.unregister hrg hm ho hp
    rw [if_neg hid, unregisterTlsModule, hm.1]
    dsimp only
    rw [ho, if_neg (by exact nofun), if_neg (not_not.mpr hp)]
    refine ⟨_, rfl, hiv.table_step hn rfl rfl rfl ⟨?_, ?_, ?_⟩ ?_ ?_ ?_⟩
    · intro j m' hm'
      rcases set_slot hm'.1 with ⟨-, rfl⟩ | ⟨-, hod⟩
      · exact absurd hm' emptyModule_not_registered
      · exact .inl ⟨hod, hm'.2⟩
    · rintro j ⟨m', o, hm', ho'⟩
      refine ⟨m', o, set_other ?_ hm', ho'⟩
      rintro rfl
      cases hm.1.symm.trans hm'
      cases ho.symm.trans ho'
    · rintro j ⟨m', o, hm', ho'⟩
      rcases set_slot hm' with ⟨-, rfl⟩ | ⟨-, hod⟩
      · cases ho'
      · exact .inl ⟨m', o, hod, ho'⟩
    · rw [settled, settled]
    · exact limit_le_of_none hrg hrg (length_set ..).ge
    intro k c m' hc hm'
    refine ⟨set_other ?_ hm'.1, hm'.2⟩
    have hne := hcs k c hc
    have hid' := (hiv.calls k c hc).id
    rw [kTlsUninitializedModuleId] at hid hid'
    omega
  · cases hrg.symm.trans hr

end

section
variable {k : ℕ} {c : Call} {pc : Pc}

variable {xs : List (ℕ × TlsDtv)}

theorem readDtv_of_mem {gen lim x} (ht : ThreadInv table gen lim h tid th xs)
    (hx : x ∈ xs) : readDtv h (some x.1) = .ok x.2 := by
  obtain ⟨n, hn⟩ := ht.chain.cell hx
  exact readDtv_of_cell hn

theorem ref_of_thread {gen lim} (ht : ThreadInv table gen lim h tid th xs) : Ref xs th.dtv := by
  have hc := ht.chain
  cases xs with
  | nil => exact .inl hc
  | cons x xs => exact .inr ⟨x, mem_cons_self, hc.1⟩

theorem PcInv.newer {xs'} (h : PcInv xs m pc)
    (hn : ∀ x ∈ xs, ∃ x' ∈ xs', x'.1 = x.1 ∧ x.2.generation ≤ x'.2.generation) :
    PcInv xs' m pc := by
  have hrf : ∀ d, Ref xs d → Ref xs' d := by
    rintro d (rfl | ⟨x, hx, rfl⟩)
    · exact .inl rfl
    · obtain ⟨x', hx', ha, -⟩ := hn x hx
      exact .inr ⟨x', hx', by rw [ha]⟩
  cases pc with
  | start | slow => trivial
  | dtvLoaded d => exact hrf d h
  | generationLoaded d generation => exact ⟨hrf d h.1, h.2⟩
  | matched d =>
    obtain ⟨x, hx, rfl, hl⟩ := h
    obtain ⟨x', hx', ha, hg⟩ := hn x hx
    exact ⟨x', hx', by rw [ha], hl.trans hg⟩

theorem idx_eq (hiv : Inv M s ds) (hc : CallInv M s (ds c.tid) c) : c.idx M = c.moduleId - 1 := by
  obtain ⟨m, hm, -⟩ := hc.served
  have hlt := (List.getElem?_eq_some_iff.mp hm.1).1
  have hl := hiv.table.length
  have hid := hc.id
  have hmx : M.maxModules ≤ M.abi.sizes / 2 - 1 := div_le_self _ _
  have hss := M.abi.lt_sizes
  rw [kTlsUninitializedModuleId] at hid
  exact Abi.pred_of_pos (by omega) (by omega)

theorem Inv.own (hiv : Inv M s ds) (hth : s.threads tid = some th)
    (hm : Registered s.moduleTable i m) (hl : m.firstGeneration ≤ (top (ds tid)).generation)
    (hp : (top (ds tid)).modules[i]? = some p) (hp0 : p ≠ 0) :
    OwnMemory M s tid m p ∧ p + m.size ≤ M.abi.sizes := by
  have ht := hiv.threads tid th hth
  rw [OwnMemory]
  cases ho : m.staticOffset with
  | some o =>
    have heq := ht.static i m o p hm ho hl hp
    have hf := (hiv.table.fits m (mem_of_getElem? hm.1) o ho).trans hiv.table.cursor
    have hb := (hiv.heap.bases tid th hth).2
    exact ⟨⟨hf, th, hth, heq⟩, by omega⟩
  | none =>
    have hc := ht.dynamic i m p hm ho hl hp hp0
    exact ⟨hc, hiv.heap.below p _ hc⟩

theorem address_eq (hp : c.place M < m.size) (hsz : p + m.size ≤ M.abi.sizes) :
    c.address M p = p + c.place M := by
  have hsm : p + c.offset + M.dtvOffset = p + (c.offset + M.dtvOffset) := add_assoc _ _ _
  rw [Call.place] at hp ⊢
  rw [Call.address, hsm, ← add_mod_mod, mod_eq_of_lt]
  omega

theorem Inv.serves_iff (hiv : Inv M s ds) : Serves s tid i p ↔ ∃ th m, s.threads tid = some th ∧
    Registered s.moduleTable i m ∧ m.firstGeneration ≤ (top (ds tid)).generation ∧
    (top (ds tid)).modules[i]? = some p ∧ p ≠ 0 := by
  constructor
  · rintro ⟨th, m, d, hth, hm, hd, hl, hp, hp0⟩
    rw [(hiv.threads tid th hth).chain.readDtv_top] at hd
    cases hd
    exact ⟨th, m, hth, hm, hl, hp, hp0⟩
  · rintro ⟨th, m, hth, hm, hl, hp, hp0⟩
    exact ⟨th, m, _, hth, hm, (hiv.threads tid th hth).chain.readDtv_top, hl, hp, hp0⟩

theorem TableInv.frame (ht : TableInv M s) (heap) (threads : ℕ → Option Thread)
    (calls : ℕ → Option Call) :
    TableInv M { s with heap := heap, threads := threads, calls := calls } := by
  refine ⟨ht.generation, ht.ok, ht.first, ht.length, ht.libcCopy, ht.fits, ht.cursor, ht.apart,
    ht.ids, ht.phase, fun r hr => ?_⟩
  obtain ⟨hsl, hf, hsi, hft, hp, hl, hlc⟩ := ht.registering r hr
  exact ⟨hsl, hf, hsi, hft, hp, hl, hlc⟩

section
variable (hiv : Inv M s ds)
include hiv

theorem Inv.setCall {call} (k)
    (hcl : ∀ c, call = some c → CallInv M s (ds c.tid) c) :
    Inv M { s with calls := update s.calls k call } ds := by
  refine ⟨hiv.table.frame _ _ _, hiv.threads, hiv.heap, fun k' c hc => ?_⟩
  change update s.calls k call k' = some c at hc
  have h : CallInv M s (ds c.tid) c := by
    by_cases hk : k' = k
    · subst hk
      rw [update_self] at hc
      exact hcl c hc
    · rw [update_of_ne hk] at hc
      exact hiv.calls k' c hc
  exact ⟨h.thread, h.id, h.served⟩

theorem Inv.setPc (hc : s.calls k = some c)
    (hpc : ∀ m, Registered s.moduleTable (c.moduleId - 1) m → PcInv (ds c.tid) m pc) :
    Inv M (setPc s k c pc) ds := by
  refine hiv.setCall k fun c' hc' => ?_
  cases hc'
  obtain ⟨hth, hid, m, hm, hp, -⟩ := hiv.calls k c hc
  exact ⟨hth, hid, m, hm, hp, hpc m hm⟩

theorem Inv.retire (k) : Inv M (retire s k) ds := hiv.setCall k nofun

theorem Inv.slow {th' ds'} (hrg : s.registering = none) (hth : s.threads tid = some th)
    (hs : SlowInv M s tid i th (ds tid) p h th' ds') :
    Inv M { s with heap := h, threads := update s.threads tid (some th') } (update ds tid ds') := by
  refine ⟨hiv.table.frame _ _ _, ?_, hs.heap.congr_threads hth hs.staticTls, ?_⟩
  · intro t th1 h1
    change update s.threads tid (some th') t = some th1 at h1
    change ThreadInv s.moduleTable (settled s) (limit s) h t th1 (update ds tid ds' t)
    by_cases htt : t = tid
    · subst htt
      rw [update_self] at h1 ⊢
      cases h1
      rw [settled_of_none hrg, limit_of_none hrg]
      exact hs.inv
    · rw [update_of_ne htt] at h1 ⊢
      exact (hiv.threads t th1 h1).congr_heap fun q c hc =>
        hs.others q c fun h => htt (hc.symm.trans h)
  · intro k c hc
    obtain ⟨hth1, hid, m, hm, hp, hpc⟩ := hiv.calls k c hc
    by_cases htt : c.tid = tid
    · refine ⟨⟨th', by rw [htt]; exact update_self ..⟩, hid, m, hm, hp, ?_⟩
      rw [htt, update_self]
      exact (htt ▸ hpc).newer hs.newer
    refine ⟨?_, hid, m, hm, hp, ?_⟩
    · obtain ⟨th1, h1⟩ := hth1
      exact ⟨th1, (update_of_ne htt _ _).trans h1⟩
    · rw [update_of_ne htt]
      exact hpc

end

/-- A call returns memory that serves its thread for its module, on both paths the same. -/
def Returns (M : Machine) (s s' : State) (c : Call) (address : ℕ) : Prop :=
  ∃ p m, Serves s' c.tid (c.idx M) p ∧ Registered s'.moduleTable (c.idx M) m ∧
    c.place M < m.size ∧ address = p + c.place M ∧
    ∀ d th, c.pc = .matched d → s.threads c.tid = some th → s.registering = none →
      ∀ dtvAddr blockAddr, Fresh M s.heap s.threads dtvAddr
        (dtvSizeInBytes M.abi (calculateNewDtvCount M.abi s.moduleTable)) →
        ∃ heap th', slowPath M.abi s c.tid th (c.idx M) dtvAddr blockAddr = .ok (p, heap, th')

variable {staticTls : ℕ}

variable {op : Op} {r : Option ℕ}

variable {p' : ℕ}

theorem Inv.initial (M) : Inv M (initial M) fun _ => [] := by
  have hss := M.abi.lt_sizes
  refine ⟨?_, nofun, ?_, nofun⟩
  · refine ⟨rfl, ⟨nofun, fun _ _ h => (nomatch h.1)⟩, fun _ _ h => (nomatch h.1),
      zero_le _, fun _ => rfl, nofun, zero_le _,
      nofun, fun _ h => absurd rfl h, nofun,
      nofun⟩
  · exact ⟨rfl, nofun, nofun, nofun, nofun, nofun, nofun⟩

theorem ok_of_map {α β ε : Type} {f} {x : Except ε α} {y : β} (h : x.map f = .ok y) :
    ∃ z, x = .ok z ∧ f z = y := by
  cases x with
  | error e => cases h
  | ok z => exact ⟨z, rfl, Except.ok.inj h⟩

theorem not_isStatic_of_none
    (hm : Registered table i m) (ho : m.staticOffset = none) : ¬IsStatic table i := by
  rintro ⟨m', o, hm', ho'⟩
  cases hm.1.symm.trans hm'
  cases ho.symm.trans ho'

section
variable (hiv : Inv M s ds)
include hiv

theorem Inv.advance {dtvAddr blockAddr} (hv : Valid M s (.advance k dtvAddr blockAddr))
    (hc : s.calls k = some c) (hth : s.threads c.tid = some th) :
    ∃ s' r ds', advance M s k c th dtvAddr blockAddr = .ok (s', r) ∧ Inv M s' ds' ∧
      ∀ address, r = some address → Returns M s s' c address := by
  have hcl := hiv.calls k c hc
  have hix := idx_eq hiv hcl
  have ht := hiv.threads c.tid th hth
  obtain ⟨-, hid, m, hm, hpl, hpi⟩ := hcl
  rw [ElfTls.advance]
  cases hpc : c.pc with
  | start =>
    refine ⟨_, none, ds, rfl, hiv.setPc hc fun m' _ => ref_of_thread ht, nofun⟩
  | dtvLoaded d =>
    rw [hpc] at hpi
    refine ⟨_, none, ds, rfl, hiv.setPc hc fun m' hm' => ?_, nofun⟩
    obtain ⟨-, hl, hlc⟩ := hiv.table.first _ m' hm'
    refine ⟨hpi, ?_⟩
    cases hcy : c.copy with
    | linker => exact hl
    | libc => exact hlc
  | generationLoaded d generation =>
    rw [hpc] at hpi
    obtain ⟨hrf, hle⟩ := hpi
    have hf := hiv.table.ok.pos _ m hm
    rcases hrf with rfl | ⟨x, hx, rfl⟩
    · have hne : generation ≠ zeroDtv.generation := by
        change generation ≠ 0
        omega
      refine ⟨_, none, ds, rfl, ?_, nofun⟩
      rw [if_neg hne]
      exact hiv.setPc hc fun _ _ => trivial
    dsimp only
    rw [readDtv_of_mem ht hx]
    refine ⟨_, none, ds, rfl, ?_, nofun⟩
    by_cases heq : generation = x.2.generation
    · rw [if_pos heq]
      refine hiv.setPc hc fun m' hm' => ⟨x, hx, rfl, ?_⟩
      cases hm.1.symm.trans hm'.1
      exact heq ▸ hle
    · rw [if_neg heq]
      exact hiv.setPc hc fun _ _ => trivial
  | matched d =>
    rw [hpc] at hpi
    obtain ⟨x, hx, rfl, hle⟩ := hpi
    have hlt := ht.inBounds x hx _ m hm hle
    obtain ⟨p, hp⟩ : ∃ p, x.2.modules[c.moduleId - 1]? = some p :=
      ⟨_, List.getElem?_eq_getElem hlt⟩
    dsimp only
    rw [readDtv_of_mem ht hx]
    dsimp only
    rw [hix, hp]
    dsimp only
    by_cases hp0 : p = 0
    · rw [if_neg (not_not.mpr hp0)]
      exact ⟨_, none, ds, rfl, hiv.setPc hc fun _ _ => trivial, nofun⟩
    rw [if_pos hp0]
    have htp := (ht.older x hx _ m p hm hle hp).resolve_left hp0
    have htopGen := hle.trans (ht.gens x hx).2
    refine ⟨_, _, ds, rfl, hiv.retire k, ?_⟩
    rintro address hrt
    cases hrt
    refine ⟨p, m, ?_, hix ▸ hm, hpl, ?_, ?_⟩
    · rw [hix]
      exact (hiv.retire k).serves_iff.mpr ⟨th, m, hth, hm, htopGen, htp, hp0⟩
    · exact address_eq hpl (hiv.own hth hm htopGen htp hp0).2
    intro d th1 _ hth1 hrg dtvAddr blockAddr hfr
    rw [hix]
    obtain ⟨h, th', ds', hu, hr⟩ := hiv.refresh hrg hth1 hm hfr.unused
    refine ⟨h, th', ?_⟩
    rw [ElfTls.slowPath, hu]
    dsimp only
    rw [moduleBlock, hr.inv.chain.readDtv_top]
    dsimp only
    rw [hr.slots _ m p hm htopGen htp]
    dsimp only
    rw [if_pos hp0]
    rfl
  | slow =>
    obtain ⟨hrg, hfr⟩ := hv c hc hpc
    obtain ⟨hdv, hb⟩ := hfr th hth
    rw [hix] at hb
    obtain ⟨p, h, th', ds', ho, hsw⟩ :=
      hiv.slowPath hrg hth hm hdv fun r hr => hb r hr m hm.1
    have hn := hiv.slow hrg hth hsw
    have hf := (hiv.table.first _ m hm).1
    rw [settled_of_none hrg] at hf
    have htp : (top (update ds c.tid ds' c.tid)) = top ds' := by
      rw [update_self]
    have hle : m.firstGeneration ≤ (top (update ds c.tid ds' c.tid)).generation := by
      rw [htp, hsw.current]
      exact hf
    have hsl : (top (update ds c.tid ds' c.tid)).modules[c.moduleId - 1]? = some p := by
      rw [htp]
      exact hsw.slot
    have hth' : update s.threads c.tid (some th') c.tid = some th' :=
      update_self ..
    rw [hix, ho]
    refine ⟨_, _, _, rfl, hn.retire k, ?_⟩
    intro address hrt
    cases hrt
    refine ⟨p, m, ?_, hix ▸ hm, hpl, ?_, ?_⟩
    · rw [hix]
      exact (hn.retire k).serves_iff.mpr ⟨th', m, hth', hm, hle, hsl, hsw.ne_zero⟩
    · exact address_eq hpl (hn.own hth' hm hle hsl hsw.ne_zero).2
    · intro d _ hd
      cases hpc.symm.trans hd

theorem Inv.spawn (hv : Valid M s (.spawn tid staticTls)) :
    Inv M { s with threads := update s.threads tid (some ⟨staticTls, none, 0⟩) }
      (update ds tid []) := by
  obtain ⟨hn, hba, hb, ha, hcl⟩ := hv
  have hcs : ∀ {t th1}, update s.threads tid (some ⟨staticTls, none, 0⟩) t = some th1 →
      t = tid ∧ ⟨staticTls, none, 0⟩ = th1 ∨ t ≠ tid ∧ s.threads t = some th1 := by
    intro t th1 h
    by_cases htt : t = tid
    · rw [htt, update_self] at h
      exact .inl ⟨htt, Option.some.inj h⟩
    · exact .inr ⟨htt, (update_of_ne htt _ _).symm.trans h⟩
  have hon : ∀ p c, s.heap p = some c → c.tid ≠ tid := by
    rintro p c hp rfl
    obtain ⟨th, hth⟩ := hiv.heap.owners p c hp
    cases hn.symm.trans hth
  refine ⟨hiv.table.frame _ _ _, ?_, ?_, ?_⟩
  · intro t th1 h1
    rcases hcs h1 with ⟨rfl, rfl⟩ | ⟨htt, h1⟩
    · rw [update_self]
      exact ThreadInv.spawn _ _ _ _ hon
    · rw [update_of_ne htt]
      exact hiv.threads t th1 h1
  · constructor
    · exact hiv.heap.null
    · exact hiv.heap.cells
    · intro p c t th1 hp h1
      rcases hcs h1 with ⟨rfl, rfl⟩ | ⟨-, h1⟩
      · exact (hcl p c hp).symm
      · exact hiv.heap.areas p c t th1 hp h1
    · intro t th1 h1
      rcases hcs h1 with ⟨rfl, rfl⟩ | ⟨-, h1⟩
      · exact ⟨hba, hb⟩
      · exact hiv.heap.bases t th1 h1
    · intro t t' th1 th2 h1 h2 hne
      rcases hcs h1 with ⟨rfl, rfl⟩ | ⟨-, ho⟩ <;> rcases hcs h2 with ⟨rfl, rfl⟩ | ⟨-, ho'⟩
      · exact absurd rfl hne
      · exact ha t' th2 ho'
      · exact (ha t th1 ho).symm
      · exact hiv.heap.apart t t' th1 th2 ho ho' hne
    · exact hiv.heap.below
    · intro p c hp
      obtain ⟨th1, h1⟩ := hiv.heap.owners p c hp
      exact ⟨th1, (update_of_ne (hon p c hp) _ _).trans h1⟩
  · intro k c hc
    obtain ⟨⟨th1, h1⟩, hid, m, hm, hpl, hpc⟩ := hiv.calls k c hc
    have htt : c.tid ≠ tid := by
      intro heq
      rw [heq, hn] at h1
      cases h1
    refine ⟨⟨th1, (update_of_ne htt _ _).trans h1⟩, hid, m, hm, hpl, ?_⟩
    rw [update_of_ne htt]
    exact hpc

theorem Inv.exit (hth : s.threads tid = some th)
    (hcs : ∀ k c, s.calls k = some c → c.tid ≠ tid) :
    ∃ h, freeDynamicTls s.moduleTable s.heap th = .ok h ∧
      Inv M { s with heap := h, threads := update s.threads tid none } ds ∧
      ∀ p c, h p = some c → c.tid ≠ tid := by
  obtain ⟨h, ho, hsp, hg⟩ :=
    freeDynamicTls_spec (hiv.threads tid th hth) hiv.heap.null
  have hh : HeapInv M h s.threads := by
    refine hiv.heap.step 0 0 hsp ?_ ?_ ⟨th, hth⟩
    all_goals exact fun _ _ h => h.elim
  have hod : ∀ {t th1}, update s.threads tid none t = some th1 →
      t ≠ tid ∧ s.threads t = some th1 := by
    intro t th1 h1
    by_cases htt : t = tid
    · subst htt
      rw [update_self] at h1
      cases h1
    · exact ⟨htt, (update_of_ne htt _ _).symm.trans h1⟩
  refine ⟨h, ho, ⟨hiv.table.frame _ _ _, ?_, ?_, ?_⟩, hg⟩
  · intro t th1 h1
    obtain ⟨htt, h1⟩ := hod h1
    exact (hiv.threads t th1 h1).congr_heap fun q c hc =>
      hsp.others q c fun h => htt (hc.symm.trans h)
  · constructor
    · exact hh.null
    · exact hh.cells
    · exact fun p c t th1 hp h1 => hh.areas p c t th1 hp (hod h1).2
    · exact fun t th1 h1 => hh.bases t th1 (hod h1).2
    · exact fun t t' th1 th2 h1 h2 => hh.apart t t' th1 th2 (hod h1).2 (hod h2).2
    · exact hh.below
    · intro p c hp
      obtain ⟨th1, h1⟩ := hh.owners p c hp
      exact ⟨th1, (update_of_ne (hg p c hp) _ _).trans h1⟩
  · intro k c hc
    obtain ⟨⟨th1, h1⟩, hid, m, hm, hpl, hpc⟩ := hiv.calls k c hc
    exact ⟨⟨th1, (update_of_ne (hcs k c hc) _ _).trans h1⟩, hid, m, hm, hpl, hpc⟩

theorem Inv.finalizeStatic (hrg : s.registering = none) :
    Inv M { s with staticFinished := true } ds := by
  have ht := hiv.table
  refine hiv.table_step ?_ rfl rfl rfl (TableStep.refl _ _ _) le_rfl le_rfl fun _ _ _ _ hm => hm
  refine ⟨ht.generation, ht.ok, ht.first, ht.length, ht.libcCopy, ht.fits, ht.cursor, ht.apart,
    ht.ids, nofun, fun r hr => ?_⟩
  cases hrg.symm.trans hr

theorem Inv.libcInit (hrg : s.registering = none) :
    Inv M { s with generationLibcSo := true, libcCopy := s.generation } ds := by
  have ht := hiv.table
  refine hiv.table_step ?_ rfl rfl rfl (TableStep.refl _ _ _) le_rfl le_rfl fun _ _ _ _ hm => hm
  refine ⟨ht.generation, ht.ok, fun i m hm => ?_, ht.length, nofun, ht.fits,
    ht.cursor, ht.apart, ht.ids, ht.phase, fun r hr => ?_⟩
  · obtain ⟨hf, hl, -⟩ := ht.first i m hm
    exact ⟨hf, hl, hf.trans (settled_le s)⟩
  · cases hrg.symm.trans hr

theorem Inv.call {moduleId offset copy}
    (hv : Valid M s (.call k tid moduleId offset copy)) :
    Inv M { s with calls := update s.calls k (some ⟨tid, moduleId, offset, copy, .start⟩) } ds := by
  obtain ⟨-, hth, hid, m, hm, hp⟩ := hv
  refine hiv.setCall k fun c hc => ?_
  cases hc
  exact ⟨hth, hid, m, hm, hp, trivial⟩

theorem Inv.answer (hbd : s.registrations + 1 < M.abi.sizes) (hv : Valid M s op) :
    (step M s op = .error .vectorFull ∧ M.maxModules ≤ s.moduleTable.length) ∨
    ∃ s' r, step M s op = .ok (s', r) ∧ (s'.registrations + 1 < M.abi.sizes → ∃ ds', Inv M s' ds') ∧
      (∀ k dtvAddr blockAddr c address, op = .advance k dtvAddr blockAddr → s.calls k = some c →
        r = some address → Returns M s s' c address) ∧
      ∀ tid, op = .exit tid → ∀ p c, s'.heap p = some c → c.tid ≠ tid := by
  cases op with
  | finalizeStatic =>
    exact .inr ⟨_, none, rfl, fun _ => ⟨ds, hiv.finalizeStatic hv⟩, nofun, nofun⟩
  | libcInit =>
    exact .inr ⟨_, none, rfl, fun _ => ⟨ds, hiv.libcInit hv⟩, nofun, nofun⟩
  | reserve size align =>
    obtain ⟨⟨o, c⟩, hr, hl⟩ := hv
    obtain ⟨hc, rfl⟩ := reserve_spec hr
    have hi := hiv.raise (hc.trans (Nat.le_add_right o size)) hl
    refine .inr ⟨{ s with cursor := o + size }, none, ?_, fun _ => ⟨ds, hi⟩, nofun, nofun⟩
    rw [ElfTls.step, hr]
    rfl
  | register si size align skew =>
    rcases hiv.register hv with ⟨herr, hf⟩ | ⟨s', ho, hi'⟩
    · left
      rw [ElfTls.step, herr]
      exact ⟨rfl, hf⟩
    · refine .inr ⟨s', none, ?_, fun hb => ⟨ds, hi' hb⟩, nofun, nofun⟩
      rw [ElfTls.step, ho]
      rfl
  | registerNext =>
    exact .inr ⟨_, none, rfl, fun _ => ⟨ds, hiv.registerNext hbd⟩, nofun, nofun⟩
  | unregister si =>
    obtain ⟨s', ho, hi'⟩ := hiv.unregister hv
    refine .inr ⟨s', none, ?_, fun _ => ⟨ds, hi'⟩, nofun, nofun⟩
    rw [ElfTls.step, ho]
    rfl
  | spawn tid staticTls =>
    exact .inr ⟨_, none, rfl, fun _ => ⟨_, hiv.spawn hv⟩, nofun, nofun⟩
  | exit tid =>
    obtain ⟨th, hth, -, hcs⟩ := hv
    obtain ⟨h, ho, hi', hg⟩ := hiv.exit hth hcs
    refine .inr ⟨_, none, ?_, fun _ => ⟨ds, hi'⟩, nofun, ?_⟩
    · rw [ElfTls.step, hth]
      dsimp only
      rw [ho]
      rfl
    · rintro tid' htd
      cases htd
      exact hg
  | call k tid moduleId offset copy =>
    exact .inr ⟨_, none, rfl, fun _ => ⟨ds, hiv.call hv⟩, nofun, nofun⟩
  | advance k dtvAddr blockAddr =>
    cases hc : s.calls k with
    | none =>
      refine .inr ⟨s, none, ?_, fun _ => ⟨ds, hiv⟩, ?_, nofun⟩
      · rw [ElfTls.step, hc]
      · exact nofun
    | some c =>
      obtain ⟨th, hth⟩ := (hiv.calls k c hc).thread
      obtain ⟨s', r, ds', ho, hi', hrt⟩ := hiv.advance hv hc hth
      refine .inr ⟨s', r, ?_, fun _ => ⟨ds', hi'⟩, ?_, nofun⟩
      · rw [ElfTls.step, hc]
        dsimp only
        rw [hth]
        exact ho
      · intro k' da ba c' address hop hc' hr
        cases hop
        cases hc.symm.trans hc'
        exact hrt address hr

theorem OwnMemory.of_serves (hsv : Serves s tid i p) (hm : Registered s.moduleTable i m) :
    OwnMemory M s tid m p := by
  obtain ⟨th, m', hth, hm', hl, hp, hp0⟩ := hiv.serves_iff.1 hsv
  cases hm.1.symm.trans hm'.1
  exact (hiv.own hth hm hl hp hp0).1

theorem apart_of_static {o c} (ho : m.staticOffset = some o)
    (hp : OwnMemory M s tid m p) (hp' : s.heap p' = some c) : Apart p m.size p' c.size := by
  rw [OwnMemory, ho] at hp
  obtain ⟨hf, th, hth, heq⟩ := hp
  have ha := hiv.heap.areas p' c tid th hp' hth
  rw [Apart] at ha ⊢
  omega

theorem ne_of_serves {t t' i'} (hsv : Serves s t i p) (hsv' : Serves s t' i' p')
    (hm : Registered s.moduleTable i m) (hm' : Registered s.moduleTable i' m')
    (ho : m.staticOffset = none) (ho' : m'.staticOffset = none)
    (hp : s.heap p = some ⟨t, m.size, .block m.incarnation⟩)
    (hp' : s.heap p' = some ⟨t', m'.size, .block m'.incarnation⟩)
    (hn : ¬(t = t' ∧ i = i')) : p ≠ p' := by
  rintro rfl
  have hc := Option.some.inj (hp.symm.trans hp')
  have htt : t = t' := congrArg Cell.tid hc
  subst htt
  obtain ⟨th, m1, hth, -, -, hsl, hp0⟩ := hiv.serves_iff.1 hsv
  obtain ⟨-, m2, -, -, -, hsl', -⟩ := hiv.serves_iff.1 hsv'
  exact hn ⟨rfl, (hiv.threads t th hth).once i i' p hsl hsl' hp0
    (not_isStatic_of_none hm ho) (not_isStatic_of_none hm' ho')⟩

theorem Inv.sound : Sound M s where
  own := fun _ _ _ _ hsv hm => OwnMemory.of_serves hiv hsv hm
  unshared := by
    intro t i p m t' i' p' m' hsv hsv' hm hm' hn
    have hp := OwnMemory.of_serves hiv hsv hm
    have hp' := OwnMemory.of_serves hiv hsv' hm'
    cases ho : m.staticOffset with
    | some o =>
      cases ho' : m'.staticOffset with
      | some o' =>
        rw [OwnMemory, ho] at hp
        rw [OwnMemory, ho'] at hp'
        obtain ⟨hf, th, hth, heq⟩ := hp
        obtain ⟨hf', th', hth', he'⟩ := hp'
        by_cases htt : t = t'
        · subst htt
          cases hth.symm.trans hth'
          have hof := hiv.table.apart i i' m m' o o' (fun h => hn ⟨rfl, h⟩) hm.1 hm'.1 ho ho'
          rw [Apart] at hof ⊢
          omega
        · have ha := hiv.heap.apart t t' th th' hth hth' htt
          rw [Apart] at ha ⊢
          omega
      | none =>
        rw [OwnMemory, ho'] at hp'
        exact apart_of_static hiv ho hp hp'
    | none =>
      rw [OwnMemory, ho] at hp
      cases ho' : m'.staticOffset with
      | some o' => exact (apart_of_static hiv ho' hp' hp).symm
      | none =>
        rw [OwnMemory, ho'] at hp'
        exact hiv.heap.cells p p' _ _ hp hp' (ne_of_serves hiv hsv hsv' hm hm' ho ho' hp hp' hn)

end

theorem registrations_le_of_step (h : step M s op = .ok (s', r)) :
    s.registrations ≤ s'.registrations := by
  cases op with
  | finalizeStatic | libcInit => cases h; exact le_rfl
  | reserve size align =>
    obtain ⟨_, -, heq⟩ := ok_of_map h
    cases heq
    exact le_rfl
  | register si size align skew =>
    obtain ⟨t, ht, heq⟩ := ok_of_map h
    cases heq
    have hl : ∀ {s t staticOffset}, registerTlsModule M s si size align staticOffset = .ok t →
        s.registrations ≤ t.registrations := by
      intro s t staticOffset ht
      rw [registerTlsModule] at ht
      split at ht
      · cases ht
      · cases ht
        exact le_succ _
    rw [registerSoinfoTls] at ht
    split at ht
    · cases ht
      exact le_rfl
    split at ht
    · exact hl ht
    split at ht
    · cases ht
    · exact (hl ht :)
  | registerNext =>
    cases h
    rw [ElfTls.registerNext]
    split <;> exact le_rfl
  | unregister si =>
    obtain ⟨t, ht, heq⟩ := ok_of_map h
    cases heq
    rw [unregisterSoinfoTls] at ht
    split at ht
    · cases ht
      exact le_rfl
    rw [unregisterTlsModule] at ht
    split at ht
    · cases ht
    split at ht
    · cases ht
    split at ht
    · cases ht
    · cases ht
      exact le_rfl
  | spawn tid staticTls => cases h; exact le_rfl
  | exit tid =>
    rw [ElfTls.step] at h
    split at h
    · cases h
    obtain ⟨t, -, heq⟩ := ok_of_map h
    cases heq
    exact le_rfl
  | call k tid moduleId offset copy => cases h; exact le_rfl
  | advance k dtvAddr blockAddr =>
    rw [ElfTls.step] at h
    split at h
    · cases h
      exact le_rfl
    split at h
    · cases h
    rw [ElfTls.advance] at h
    split at h
    · cases h
      exact le_rfl
    · cases h
      exact le_rfl
    · split at h <;> cases h
      exact le_rfl
    · split at h
      · cases h
      · split at h
        · cases h
        · split at h <;> cases h <;> exact le_rfl
    · split at h <;> cases h
      exact le_rfl

theorem Inv.of_reachable (h : Reachable M s) (hb : s.registrations + 1 < M.abi.sizes) :
    ∃ ds, Inv M s ds := by
  induction h with
  | initial => exact ⟨_, Inv.initial M⟩
  | @step s s' op r _ hv hsp ih =>
    have hl := registrations_le_of_step hsp
    have hp : s.registrations + 1 < M.abi.sizes := by omega
    obtain ⟨ds, hiv⟩ := ih hp
    rcases hiv.answer hp hv with ⟨herr, -⟩ | ⟨t, r', ho, hn, -⟩
    · cases hsp.symm.trans herr
    · cases hsp.symm.trans ho
      exact hn hb

end

def machine32 : Machine := ⟨.ilp32, 64, 0⟩

/-- Nothing is under way, and static TLS is no longer reserved. -/
def quiet (generation linkerCopy registrations : ℕ) (table : List TlsModule) (ids : ℕ → ℕ) :
    State where
  generation := generation
  linkerCopy := linkerCopy
  libcCopy := machine32.sizeMax
  generationLibcSo := false
  staticFinished := true
  cursor := 0
  moduleTable := table
  moduleIds := ids
  registering := none
  registrations := registrations
  threads := fun _ => none
  heap := fun _ => none
  calls := fun _ => none

def loaded (generation registrations : ℕ) : State :=
  quiet generation generation registrations [⟨1, 1, none, generation, 1, registrations⟩]
    (update (fun _ => 0) 1 1)

def unloaded (generation registrations : ℕ) : State :=
  quiet generation generation registrations [emptyModule] fun _ => 0

theorem reachable_loaded {g l r} (h : Reachable machine32 (quiet g l r table fun _ => 0))
    (htl : getUnusedModuleIndex machine32 table = .ok (0, [emptyModule])) :
    Reachable machine32 (loaded ((g + 1) % machine32.abi.sizes) (r + 1)) := by
  have hrg : step machine32 (quiet g l r table fun _ => 0) (.register 1 1 1 0) =
      .ok ({ quiet ((g + 1) % machine32.abi.sizes) l (r + 1) [emptyModule]
          (update (fun _ => 0) 1 1) with
        registering := some ⟨0, ⟨1, 1, none, (g + 1) % machine32.abi.sizes, 1, r + 1⟩,
          .linkerCopy⟩ }, none) := by
    have hn : registerSoinfoTls machine32 (quiet g l r table fun _ => 0) 1 1 1 0 =
        registerTlsModule machine32 (quiet g l r table fun _ => 0) 1 1 1 none := rfl
    rw [step, hn, registerTlsModule, quiet]
    rw [htl]
    rfl
  have hv : Valid machine32 (quiet g l r table fun _ => 0) (.register 1 1 1 0) :=
    ⟨rfl, Nat.one_ne_zero, nofun⟩
  have hnx : ∀ s, Valid machine32 s .registerNext := fun _ => trivial
  have hl := (h.step hv hrg).step (hnx _) rfl
  have hlc := hl.step (hnx _) rfl
  exact hlc.step (hnx _) rfl

theorem reachable_unloaded {g r} (h : Reachable machine32 (loaded g r)) :
    Reachable machine32 (unloaded g r) := by
  have hid : update (update (fun _ => 0) 1 1) 1 0 = fun _ => 0 := by
    rw [update_idem]
    exact update_eq_self 1 _
  have hv : Valid machine32 (loaded g r) (.unregister 1) := by
    refine ⟨rfl, fun _ => ⟨fun m hm => ?_, nofun⟩⟩
    cases hm
    rfl
  have hsp := h.step hv rfl
  rw [unloaded, ← hid]
  exact hsp

theorem reachable_start : Reachable machine32 (quiet 1 machine32.sizeMax 0 [] fun _ => 0) := by
  have hv : Valid machine32 (initial machine32) .finalizeStatic := rfl
  exact Reachable.initial.step hv rfl

theorem reachable_cycles (n : ℕ) :
    Reachable machine32 (unloaded ((n + 2) % machine32.abi.sizes) (n + 1)) := by
  induction n with
  | zero => exact reachable_unloaded (reachable_loaded reachable_start rfl)
  | succ n ih =>
    have hn := reachable_unloaded (reachable_loaded ih rfl)
    rw [mod_add_mod] at hn
    exact hn

/-- A thread is in a call for the module. -/
def called (generation registrations : ℕ) (pc : Pc) : State :=
  { loaded generation registrations with
    threads := update (fun _ => none) 0 (some ⟨4096, none, 0⟩)
    calls := update (fun _ => none) 0 (some ⟨0, 1, 0, .linker, pc⟩) }

theorem setPc_called (g r pc pc') :
    setPc (called g r pc) 0 ⟨0, 1, 0, .linker, pc⟩ pc' = called g r pc' := by
  rw [setPc, called, update_idem]
  rfl

theorem reachable_called {g r} (h : Reachable machine32 (loaded g r)) :
    Reachable machine32 (called g r (if g = 0 then .matched none else .slow)) := by
  have hsa : Valid machine32 (loaded g r) (.spawn 0 4096) :=
    ⟨rfl, by decide, by decide, nofun, nofun⟩
  have hp : (⟨0, 1, 0, .linker, .start⟩ : Call).place machine32 < 1 := by decide
  have hcl : Valid machine32 { loaded g r with
      threads := update (fun _ => none) 0 (some ⟨4096, none, 0⟩) } (.call 0 0 1 0 .linker) :=
    ⟨rfl, ⟨_, rfl⟩, Nat.one_ne_zero, ⟨1, 1, none, g, 1, r⟩, ⟨rfl, Nat.one_ne_zero⟩, hp⟩
  have hca : Reachable machine32 (called g r .start) := (h.step hsa rfl).step hcl rfl
  have ha : ∀ {pc pc'}, Reachable machine32 (called g r pc) → pc ≠ .slow →
      step machine32 (called g r pc) (.advance 0 0 0) =
        .ok (setPc (called g r pc) 0 ⟨0, 1, 0, .linker, pc⟩ pc', none) →
      Reachable machine32 (called g r pc') := by
    intro pc pc' hr hn hs
    rw [setPc_called] at hs
    refine hr.step (fun c hc hpc => ?_) hs
    cases hc
    exact absurd hpc hn
  have hd : Reachable machine32 (called g r (.dtvLoaded none)) := ha hca nofun rfl
  have hg : Reachable machine32 (called g r (.generationLoaded none g)) := ha hd nofun rfl
  exact ha hg nofun rfl

/-- As long as the generation counter has not come round: each thread has memory of its own for each
module, no step faults, what a call returns is in that memory, and the fast path returns what the
slow path would. -/
theorem thread_memory_sound {M : Machine} {s : State} (h : Reachable M s)
    (hbound : s.registrations + 1 < M.abi.sizes) :
    Sound M s ∧ ∀ op, Valid M s op → Answered M s op := by
  obtain ⟨ds, hiv⟩ := Inv.of_reachable h hbound
  refine ⟨hiv.sound, fun op hv => ?_⟩
  rcases hiv.answer hbound hv with herr | ⟨s', r, ho, -, hrt, het⟩
  · exact .inl herr
  · exact .inr ⟨s', r, ho, hrt, het⟩

/-- The first call of a thread for a module returns the block allocated in its slow path. -/
theorem thread_memory_sound_called : ∃ s, Reachable machine32 (called 2 1 .slow) ∧
    step machine32 (called 2 1 .slow) (.advance 0 8192 65536) = .ok (s, some 65536) ∧
    Answered machine32 (called 2 1 .slow) (.advance 0 8192 65536) ∧ Sound machine32 s := by
  have hr := reachable_called (reachable_loaded reachable_start rfl)
  have hv : Valid machine32 (called 2 1 .slow) (.advance 0 8192 65536) := by
    rintro c ⟨⟩ -
    refine ⟨rfl, ?_⟩
    rintro th ⟨⟩
    have ha : ∀ t th, (called 2 1 .slow).threads t = some th → th.staticTls = 4096 := by
      intro t th hth
      simp only [called, update_apply] at hth
      split at hth <;> cases hth
      rfl
    refine ⟨⟨by decide, rfl, nofun, ?_, by decide⟩, ?_⟩
    · intro t th hth
      rw [ha t th hth]
      exact .inr (by decide)
    rintro r ⟨⟩ m ⟨⟩
    refine ⟨by decide, rfl, ?_, ?_, by decide⟩
    · intro q c hq
      change update (update (fun _ => none : Heap) 8192 _) 8192 _ q = some c at hq
      rw [update_idem, update_apply] at hq
      split at hq <;> cases hq
      rename_i hq
      rw [hq]
      exact .inr (by decide)
    · intro t th hth
      rw [ha t th hth]
      exact .inr (by decide)
  exact ⟨_, hr, rfl, (thread_memory_sound hr (by decide)).2 _ hv,
    (thread_memory_sound (hr.step hv rfl) (by decide)).1⟩

/-- The generation is that of `zero_dtv` again: the first access of a thread finds a current DTV and
indexes it out of bounds. -/
theorem generation_wraps : ∃ s op, Reachable machine32 s ∧ Valid machine32 s op ∧
    step machine32 s op = .error .outOfBounds ∧ ¬Answered machine32 s op := by
  have hl := reachable_loaded (reachable_cycles (machine32.abi.sizes - 3)) rfl
  have hz : ((machine32.abi.sizes - 3 + 2) % machine32.abi.sizes + 1) % machine32.abi.sizes
      = 0 := by decide
  rw [hz] at hl
  generalize machine32.abi.sizes - 3 + 1 + 1 = r at hl
  refine ⟨_, .advance 0 0 0, reachable_called hl, ?_, rfl, ?_⟩
  · rintro c ⟨⟩ hpc
    cases hpc
  rintro (⟨herr, -⟩ | ⟨s', r', ho, -⟩)
  · cases herr
  · cases ho

end ElfTlsRuns
