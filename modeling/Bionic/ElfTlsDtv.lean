import Bionic.ElfTls

/-! What the functions on the DTVs of one thread do. A thread's DTVs are the chain from its DTV
slot; the blocks of the thread are the pointers in the slots of the first one, each in one slot.
Both loops over the slots of a DTV are sweeps, so what they free is said once. -/
namespace ElfTlsDtv
open Prod (fst)
open ElfTls ByteMemory Option
open List Nat Function

variable {i p q tid : ℕ} {h h' : Heap} {ref : Option ℕ} {ds : List (ℕ × TlsDtv)}

section
variable {act : ℕ → Action} {j : ℕ} {ps : List ℕ}

def after : Action → ℕ → ℕ
  | .place q, _ => q
  | .keep, p => p
  | .free, _ => 0

def Freed (act : ℕ → Action) (i : ℕ) (ps : List ℕ) (q : ℕ) : Prop :=
  q ≠ 0 ∧ ∃ j, ps[j]? = some q ∧ act (i + j) = .free

theorem freed_cons : Freed act i (p :: ps) q ↔
    (q ≠ 0 ∧ q = p ∧ act i = .free) ∨ Freed act (i + 1) ps q := by
  constructor
  · rintro ⟨hq, j, hj, hat⟩
    cases j with
    | zero => exact .inl ⟨hq, (some.inj hj).symm, hat⟩
    | succ j => exact .inr ⟨hq, j, hj, by rwa [Nat.add_right_comm]⟩
  · rintro (⟨hq, rfl, hat⟩ | ⟨hq, j, hj, hat⟩)
    · exact ⟨hq, 0, rfl, hat⟩
    · exact ⟨hq, j + 1, hj, by rwa [Nat.add_right_comm] at hat⟩

structure Freeable (act : ℕ → Action) (i : ℕ) (ps : List ℕ) (h : Heap) : Prop where
  live : ∀ q, Freed act i ps q → ∃ c, h q = some c
  once : ∀ j j' q, ps[j]? = some q → ps[j']? = some q → q ≠ 0 → act (i + j) = .free →
    act (i + j') = .free → j = j'

theorem Freeable.tail (hf : Freeable act i (p :: ps) h)
    (hh : ∀ q, Freed act (i + 1) ps q → h' q = h q) : Freeable act (i + 1) ps h' := by
  constructor
  · intro q hq
    obtain ⟨c, hc⟩ := hf.live q (freed_cons.mpr (.inr hq))
    exact ⟨c, (hh q hq).trans hc⟩
  · intro j j' q hj hj' hq hat ha'
    rw [Nat.add_right_comm] at hat ha'
    exact Nat.succ.inj (hf.once (j + 1) (j' + 1) q hj hj' hq hat ha')

theorem Freeable.head_not_freed (hf : Freeable act i (p :: ps) h) (hat : act i = .free) :
    ¬Freed act (i + 1) ps p := by
  rintro ⟨hp, j, hj, ha'⟩
  rw [Nat.add_right_comm] at ha'
  exact absurd (hf.once 0 (j + 1) p rfl hj hp hat ha') (succ_ne_zero j).symm

/-- Each slot by its action, and a heap without what was freed. -/
structure Swept (act : ℕ → Action) (i : ℕ) (ps : List ℕ) (h : Heap) (r : List ℕ × Heap) : Prop where
  length : r.1.length = ps.length
  slots : ∀ j p, ps[j]? = some p → r.1[j]? = some (after (act (i + j)) p)
  freed : ∀ q, Freed act i ps q → r.2 q = none
  kept : ∀ q, ¬Freed act i ps q → r.2 q = h q

theorem Swept.cons {r} (hr : Swept act (i + 1) ps h' r) (hf : act i = .free → p ≠ 0 → h' p = none)
    (hk : ∀ q, ¬(q ≠ 0 ∧ q = p ∧ act i = .free) → h' q = h q)
    (hn : act i = .free → ¬Freed act (i + 1) ps p) :
    Swept act i (p :: ps) h (after (act i) p :: r.1, r.2) := by
  constructor
  · rw [length_cons, length_cons, hr.length]
  · intro j q hj
    cases j with
    | zero => rw [← some.inj hj]; rfl
    | succ j =>
      rw [← add_assoc, Nat.add_right_comm]
      exact hr.slots j q hj
  · intro q hq
    rcases freed_cons.mp hq with ⟨hq0, rfl, hat⟩ | hq
    · rw [hr.kept q (hn hat)]
      exact hf hat hq0
    · exact hr.freed q hq
  · intro q hq
    rw [freed_cons, not_or] at hq
    rw [hr.kept q hq.2]
    exact hk q hq.1

theorem free_of_live {c} (hp : p ≠ 0) (hc : h p = some c) : h.free p = .ok (update h p none) := by
  rw [Heap.free, if_neg hp, hc]

theorem sweep_spec (hf : Freeable act i ps h) : ∃ r, sweep act i ps h = .ok r ∧
    Swept act i ps h r := by
  induction ps generalizing i h with
  | nil =>
    refine ⟨([], h), rfl, rfl, nofun, ?_, fun q _ => rfl⟩
    rintro q ⟨-, j, hj, -⟩
    cases hj
  | cons p ps ih =>
    rw [sweep]
    obtain ⟨r, hr, hse⟩ := ih (hf.tail fun _ _ => rfl)
    cases hat : act i with
    | place q =>
      refine ⟨(q :: r.1, r.2), by rw [hr]; rfl, ?_⟩
      have := hse.cons (p := p) (h := h) (fun h0 => nomatch hat.symm.trans h0) (fun _ _ => rfl)
        fun h0 => nomatch hat.symm.trans h0
      rwa [hat] at this
    | keep =>
      refine ⟨(p :: r.1, r.2), by rw [hr]; rfl, ?_⟩
      have := hse.cons (p := p) (h := h) (fun h0 => nomatch hat.symm.trans h0) (fun _ _ => rfl)
        fun h0 => nomatch hat.symm.trans h0
      rwa [hat] at this
    | free =>
      by_cases hp : p = 0
      · refine ⟨(0 :: r.1, r.2), by rw [Heap.free, if_pos hp]; dsimp only; rw [hr]; rfl, ?_⟩
        have := hse.cons (p := p) (h := h) (fun _ h0 => absurd hp h0) (fun _ _ => rfl)
          fun h0 => hf.head_not_freed h0
        rwa [hat] at this
      obtain ⟨c, hc⟩ := hf.live p (freed_cons.mpr (.inl ⟨hp, rfl, hat⟩))
      have hn : ∀ q ≠ p, update h p none q = h q := fun q hq =>
        update_of_ne hq _ _
      have htl : Freeable act (i + 1) ps (update h p none) := by
        refine hf.tail fun q hq => hn q ?_
        rintro rfl
        exact hf.head_not_freed hat hq
      obtain ⟨r, hr, hse⟩ := ih htl
      refine ⟨(0 :: r.1, r.2), by rw [free_of_live hp hc]; dsimp only; rw [hr]; rfl, ?_⟩
      have := hse.cons (p := p) (h := h) (fun _ _ => update_self p none h)
        (fun q hq => hn q fun hqp => hq ⟨hqp ▸ hp, hqp, hat⟩) fun h0 => hf.head_not_freed h0
      rwa [hat] at this

variable {x : ℕ × TlsDtv}

def DtvChain (h : Heap) (tid : ℕ) : Option ℕ → List (ℕ × TlsDtv) → Prop
  | ref, [] => ref = none
  | ref, x :: ds => ref = some x.1 ∧ (∃ n, h x.1 = some ⟨tid, n, .dtv x.2⟩) ∧
      DtvChain h tid x.2.next ds

def top : List (ℕ × TlsDtv) → TlsDtv
  | [] => zeroDtv
  | x :: _ => x.2

theorem readDtv_of_cell {n d} (hp : h p = some ⟨tid, n, .dtv d⟩) : readDtv h (some p) = .ok d := by
  rw [readDtv, hp]

theorem writeDtv_of_cell {n d} (hp : h p = some ⟨tid, n, .dtv d⟩) (d') :
    writeDtv h (some p) d' = .ok (update h p (some ⟨tid, n, .dtv d'⟩)) := by
  rw [writeDtv, hp]

variable (hc : DtvChain h tid ref ds)
include hc

theorem DtvChain.congr (hh : ∀ x ∈ ds, h' x.1 = h x.1) : DtvChain h' tid ref ds := by
  induction ds generalizing ref with
  | nil => exact hc
  | cons x ds ih =>
    obtain ⟨hrf, hx, hd⟩ := hc
    refine ⟨hrf, ?_, ih hd fun y hy => hh y (mem_cons_of_mem x hy)⟩
    rw [hh x mem_cons_self]
    exact hx

theorem DtvChain.cell (hx : x ∈ ds) : ∃ n, h x.1 = some ⟨tid, n, .dtv x.2⟩ := by
  induction ds generalizing ref with
  | nil => cases hx
  | cons y ds ih =>
    obtain ⟨-, hy, hd⟩ := hc
    rcases mem_cons.mp hx with rfl | hx
    · exact hy
    · exact ih hd hx

theorem DtvChain.readDtv_top : readDtv h ref = .ok (top ds) := by
  cases ds with
  | nil =>
    obtain rfl : ref = none := hc
    rfl
  | cons x ds =>
    obtain ⟨rfl, ⟨n, hx⟩, -⟩ := hc
    exact readDtv_of_cell hx

end

def IsStatic (table : List TlsModule) (i : ℕ) : Prop :=
  ∃ m o, table[i]? = some m ∧ m.staticOffset = some o

/-- A thread and its DTVs `ds`: none is newer than `gen`, and no slot from `limit` on has ever been
filled. -/
structure ThreadInv (table : List TlsModule) (gen limit : ℕ) (h : Heap) (tid : ℕ) (th : Thread)
    (ds : List (ℕ × TlsDtv)) : Prop where
  chain : DtvChain h tid th.dtv ds
  nodup : (ds.map Prod.fst).Nodup
  counted : ds.length = th.dtvs
  gens : ∀ x ∈ ds, 0 < x.2.generation ∧ x.2.generation ≤ (top ds).generation
  topGen : (top ds).generation ≤ gen
  inBounds : ∀ x ∈ ds, ∀ i m, Registered table i m → m.firstGeneration ≤ x.2.generation →
    i < x.2.modules.length
  older : ∀ x ∈ ds, ∀ i m p, Registered table i m → m.firstGeneration ≤ x.2.generation →
    x.2.modules[i]? = some p → p = 0 ∨ (top ds).modules[i]? = some p
  static : ∀ i m o p, Registered table i m → m.staticOffset = some o →
    m.firstGeneration ≤ (top ds).generation → (top ds).modules[i]? = some p → p = th.staticTls + o
  dynamic : ∀ i m p, Registered table i m → m.staticOffset = none →
    m.firstGeneration ≤ (top ds).generation → (top ds).modules[i]? = some p → p ≠ 0 →
    h p = some ⟨tid, m.size, .block m.incarnation⟩
  blocks : ∀ i p, (top ds).modules[i]? = some p → p ≠ 0 → ¬IsStatic table i →
    ∃ n b, h p = some ⟨tid, n, .block b⟩
  once : ∀ i j p, (top ds).modules[i]? = some p → (top ds).modules[j]? = some p → p ≠ 0 →
    ¬IsStatic table i → ¬IsStatic table j → i = j
  filled : ∀ i p, (top ds).modules[i]? = some p → p ≠ 0 → i < limit
  ownBlocks : ∀ p n b, h p = some ⟨tid, n, .block b⟩ →
    ∃ i, ¬IsStatic table i ∧ (top ds).modules[i]? = some p
  ownDtvs : ∀ p n d, h p = some ⟨tid, n, .dtv d⟩ → p ∈ ds.map Prod.fst

variable {table : List TlsModule} {gen limit dtvAddr : ℕ} {th : Thread} {m : TlsModule}
  {M : Machine} {s : State}

section
variable {table' : List TlsModule} {gen' limit' : ℕ}

theorem ThreadInv.spawn (table gen limit staticTls) (hh : ∀ p c, h p = some c → c.tid ≠ tid) :
    ThreadInv table gen limit h tid ⟨staticTls, none, 0⟩ [] where
  chain := rfl
  nodup := nodup_nil
  counted := rfl
  gens := nofun
  topGen := zero_le gen
  inBounds := nofun
  older := nofun
  static := nofun
  dynamic := nofun
  blocks := nofun
  once := nofun
  filled := nofun
  ownBlocks := fun p _ _ hp => absurd rfl (hh p _ hp)
  ownDtvs := fun p _ _ hp => absurd rfl (hh p _ hp)

theorem ThreadInv.congr_heap (ht : ThreadInv table gen limit h tid th ds)
    (hh : ∀ p c, c.tid = tid → (h' p = some c ↔ h p = some c)) :
    ThreadInv table gen limit h' tid th ds where
  chain := by
    refine ht.chain.congr fun x hx => ?_
    obtain ⟨n, hn⟩ := ht.chain.cell hx
    rw [hn]
    exact (hh x.1 _ rfl).mpr hn
  nodup := ht.nodup
  counted := ht.counted
  gens := ht.gens
  topGen := ht.topGen
  inBounds := ht.inBounds
  older := ht.older
  static := ht.static
  dynamic := fun i m p hm ho hg hp h0 => (hh p _ rfl).mpr (ht.dynamic i m p hm ho hg hp h0)
  blocks := by
    intro i p hp h0 hi
    obtain ⟨n, b, hb⟩ := ht.blocks i p hp h0 hi
    exact ⟨n, b, (hh p _ rfl).mpr hb⟩
  once := ht.once
  filled := ht.filled
  ownBlocks := fun p n b hp => ht.ownBlocks p n b ((hh p _ rfl).mp hp)
  ownDtvs := fun p n d hp => ht.ownDtvs p n d ((hh p _ rfl).mp hp)

/-- What is new in the module table is newer than every DTV, and slots become static only where
nothing has been. -/
structure TableStep (table table' : List TlsModule) (gen limit : ℕ) : Prop where
  modules : ∀ i m, Registered table' i m → Registered table i m ∨ gen < m.firstGeneration
  static : ∀ i, IsStatic table i → IsStatic table' i
  newStatic : ∀ i, IsStatic table' i → IsStatic table i ∨ limit ≤ i

theorem ThreadInv.congr_table (ht : ThreadInv table gen limit h tid th ds)
    (hsp : TableStep table table' gen limit) (hgn : gen ≤ gen') (hl : limit ≤ limit')
    (h0 : h 0 = none) : ThreadInv table' gen' limit' h tid th ds := by
  have htp := ht.topGen
  have hod : ∀ i m g, Registered table' i m → m.firstGeneration ≤ g → g ≤ (top ds).generation →
      Registered table i m := by
    intro i m g hm hle hg
    rcases hsp.modules i m hm with hm | hn
    · exact hm
    · omega
  constructor
  · exact ht.chain
  · exact ht.nodup
  · exact ht.counted
  · exact ht.gens
  · exact htp.trans hgn
  · intro x hx i m hm hle
    exact ht.inBounds x hx i m (hod i m _ hm hle (ht.gens x hx).2) hle
  · intro x hx i m p hm hle
    exact ht.older x hx i m p (hod i m _ hm hle (ht.gens x hx).2) hle
  · intro i m o p hm ho hle
    exact ht.static i m o p (hod i m _ hm hle le_rfl) ho hle
  · intro i m p hm ho hle
    exact ht.dynamic i m p (hod i m _ hm hle le_rfl) ho hle
  · intro i p hp hp0 hi
    exact ht.blocks i p hp hp0 fun hs => hi (hsp.static i hs)
  · intro i j p hi hj hp0 hsi hsj
    exact ht.once i j p hi hj hp0 (fun hs => hsi (hsp.static i hs)) fun hs => hsj (hsp.static j hs)
  · intro i p hp hp0
    exact (ht.filled i p hp hp0).trans_le hl
  · intro p n b hp
    obtain ⟨i, hi, hip⟩ := ht.ownBlocks p n b hp
    refine ⟨i, fun hs => ?_, hip⟩
    have hp0 : p ≠ 0 := by
      rintro rfl
      cases h0.symm.trans hp
    have hlt := ht.filled i p hip hp0
    rcases hsp.newStatic i hs with hs | hle
    · exact hi hs
    · omega
  · exact ht.ownDtvs

theorem length_le_newDtvCount (h : table.length ≤ M.maxModules) :
    table.length ≤ calculateNewDtvCount M.abi table := by
  have hw := M.abi.word_cases
  have hss := M.abi.lt_sizes
  have hp : 0 < M.abi.word := by omega
  have hm : table.length * (8 * M.abi.word) ≤ M.abi.sizes / 2 - 1 :=
    (le_div_iff_mul_le (by omega)).mp h
  have hle : table.length * M.abi.word ≤ table.length * (8 * M.abi.word) :=
    mul_le_mul_left _ (by omega)
  have hmx : max 1 table.length * M.abi.word ≤ M.abi.word + table.length * M.abi.word := by
    rcases le_total 1 table.length with h1 | h1
    · rw [max_eq_right h1]
      omega
    · rw [max_eq_left h1]
      omega
  have hb : dtvSizeInBytes M.abi (max 1 table.length) =
      3 * M.abi.word + max 1 table.length * M.abi.word := mod_eq_of_lt (by omega)
  have hcl := le_pow_clog Nat.one_lt_two (dtvSizeInBytes M.abi (max 1 table.length))
  have hl : table.length * M.abi.word ≤ max 1 table.length * M.abi.word :=
    mul_le_mul_right _ (le_max_right 1 table.length)
  rw [calculateNewDtvCount, bitCeil, le_div_iff_mul_le hp]
  omega

/-- After `growDtv` the thread has a DTV at `a` with room for every module, and it holds what the
old one held. -/
structure Room (s : State) (tid : ℕ) (th : Thread) (ds : List (ℕ × TlsDtv)) (h : Heap)
    (th' : Thread) (a : ℕ) (d : TlsDtv) (rest : List (ℕ × TlsDtv)) : Prop where
  slot : th'.dtv = some a
  staticTls : th'.staticTls = th.staticTls
  cell : ∃ n, h a = some ⟨tid, n, .dtv d⟩
  chain : DtvChain h tid d.next rest
  nodup : (a :: rest.map Prod.fst).Nodup
  counted : rest.length + 1 = th'.dtvs
  generation : d.generation = (top ds).generation
  room : s.moduleTable.length ≤ d.modules.length
  old : ∀ i p : ℕ, d.modules[i]? = some p → p ≠ 0 → (top ds).modules[i]? = some p
  copied : ∀ i p : ℕ, (top ds).modules[i]? = some p → d.modules[i]? = some p
  others : ∀ q ≠ a, h q = s.heap q
  rest_mem : ∀ x ∈ rest, x ∈ ds
  mem : ∀ x ∈ ds, x = (a, d) ∨ x ∈ rest
  not_block : ∀ t n b, s.heap a ≠ some ⟨t, n, .block b⟩

theorem room_growDtv (ht : ThreadInv s.moduleTable gen limit s.heap tid th ds)
    (hm : s.moduleTable.length ≤ M.maxModules) (hps : 0 < s.moduleTable.length)
    (hf : s.heap dtvAddr = none) :
    ∃ a d rest, Room s tid th ds (growDtv M.abi s tid th (top ds) dtvAddr).1
      (growDtv M.abi s tid th (top ds) dtvAddr).2 a d rest := by
  by_cases hl : (top ds).modules.length < s.moduleTable.length
  · have hnw : ∀ q ≠ dtvAddr, update s.heap dtvAddr (some ⟨tid,
        dtvSizeInBytes M.abi (calculateNewDtvCount M.abi s.moduleTable),
        .dtv (largerDtv M.abi s.moduleTable th.dtv (top ds))⟩) q = s.heap q :=
      fun q hq => update_of_ne hq _ _
    have ha : ∀ x ∈ ds, x.1 ≠ dtvAddr := by
      intro x hx hxa
      obtain ⟨n, hn⟩ := ht.chain.cell hx
      rw [hxa, hf] at hn
      cases hn
    refine ⟨dtvAddr, largerDtv M.abi s.moduleTable th.dtv (top ds), ds, ?_⟩
    rw [growDtv, if_pos hl]
    constructor
    · rfl
    · rfl
    · exact ⟨_, update_self _ _ _⟩
    · exact ht.chain.congr fun x hx => hnw x.1 (ha x hx)
    · refine nodup_cons.mpr ⟨fun hmm => ?_, ht.nodup⟩
      obtain ⟨x, hx, hxa⟩ := mem_map.mp hmm
      exact ha x hx hxa
    · rw [ht.counted]
    · rfl
    · have hle := length_le_newDtvCount hm
      rw [largerDtv, length_append, length_replicate]
      omega
    · intro i p hp hp0
      rw [largerDtv] at hp
      rcases lt_or_ge i (top ds).modules.length with hi | hi
      · rwa [List.getElem?_append_left hi] at hp
      · rw [List.getElem?_append_right hi] at hp
        exact absurd (eq_of_mem_replicate (mem_of_getElem? hp)) hp0
    · intro i p hp
      rw [largerDtv, List.getElem?_append_left (List.getElem?_eq_some_iff.mp hp).1]
      exact hp
    · exact hnw
    · exact fun x hx => hx
    · exact fun x hx => .inr hx
    · intro t n b hb
      cases hf.symm.trans hb
  · have hcn := ht.chain
    have hnd := ht.nodup
    have hcd := ht.counted
    cases ds with
    | nil => exact absurd hps hl
    | cons x rest =>
      obtain ⟨hsl, ⟨n, hn⟩, hrs⟩ := hcn
      refine ⟨x.1, x.2, rest, ?_⟩
      rw [growDtv, if_neg hl]
      constructor
      · exact hsl
      · rfl
      · exact ⟨n, hn⟩
      · exact hrs
      · exact hnd
      · exact hcd
      · rfl
      · exact not_lt.mp hl
      · exact fun i p hp _ => hp
      · exact fun i p hp => hp
      · exact fun q _ => rfl
      · exact fun y hy => mem_cons_of_mem x hy
      · exact fun y hy => mem_cons.mp hy
      · intro t k b hb
        cases hn.symm.trans hb

end

/-- Unused slots are empty, and modules have a generation. -/
structure TableOk (table : List TlsModule) : Prop where
  empty : ∀ (i : ℕ) (m : TlsModule), table[i]? = some m → m.soinfoPtr = 0 → m = emptyModule
  pos : ∀ i m, Registered table i m → 0 < m.firstGeneration

variable {a n : ℕ} {th' : Thread} {rest : List (ℕ × TlsDtv)} {d : TlsDtv} {r : List ℕ × Heap}

section
variable {staticTls : ℕ}

theorem updateAction_static {o} (hm : table[i]? = some m) (ho : m.staticOffset = some o) :
    updateAction table staticTls gen i = .place (staticTls + o) := by
  rw [updateAction, hm]
  dsimp only
  rw [ho]

theorem updateAction_keep (hok : TableOk table) (hm : Registered table i m)
    (ho : m.staticOffset = none) (hl : m.firstGeneration ≤ gen) :
    updateAction table staticTls gen i = .keep := by
  have hp := hok.pos i m hm
  rw [updateAction, hm.1]
  dsimp only
  rw [ho]
  exact if_pos ⟨hp.ne', hl⟩

theorem not_static_of_free (hat : updateAction table staticTls gen i = .free) :
    ¬IsStatic table i := by
  rintro ⟨m, o, hm, ho⟩
  cases (updateAction_static hm ho).symm.trans hat

theorem keep_or_free (hi : ¬IsStatic table i) :
    updateAction table staticTls gen i = .keep ∨ updateAction table staticTls gen i = .free := by
  rw [updateAction]
  cases hm : table[i]? with
  | none => exact .inr rfl
  | some m =>
    dsimp only
    cases ho : m.staticOffset with
    | some o => exact absurd ⟨m, o, hm, ho⟩ hi
    | none =>
      dsimp only
      split
      · exact .inl rfl
      · exact .inr rfl

section
variable (hok : TableOk table) (hat : updateAction table staticTls gen i = .keep)
include hok hat

theorem of_updateAction_keep :
    ∃ m, Registered table i m ∧ m.staticOffset = none ∧ m.firstGeneration ≤ gen := by
  rw [updateAction] at hat
  cases hm : table[i]? with
  | none =>
    rw [hm] at hat
    cases hat
  | some m =>
    rw [hm] at hat
    dsimp only at hat
    cases ho : m.staticOffset with
    | some o =>
      rw [ho] at hat
      cases hat
    | none =>
      rw [ho] at hat
      by_cases hg : m.firstGeneration ≠ kTlsGenerationNone ∧ m.firstGeneration ≤ gen
      · refine ⟨m, ⟨hm, fun h0 => hg.1 ?_⟩, ho, hg.2⟩
        rw [hok.empty i m hm h0]
        rfl
      · rw [if_neg hg] at hat
        cases hat

theorem keep_not_static : ¬IsStatic table i := by
  obtain ⟨m, hm, ho, -⟩ := of_updateAction_keep hok hat
  rintro ⟨m', o, hm', ho'⟩
  cases hm.1.symm.trans hm'
  cases ho.symm.trans ho'

end

section
variable (hr : Room s tid th ds h th' a d rest)
  (ht : ThreadInv s.moduleTable gen limit s.heap tid th ds)
include hr ht

theorem Room.freeable :
    Freeable (updateAction s.moduleTable th'.staticTls d.generation) 0 d.modules h := by
  constructor
  · rintro q ⟨hq0, j, hj, hat⟩
    rw [zero_add] at hat
    obtain ⟨n, b, hb⟩ := ht.blocks j q (hr.old j q hj hq0) hq0 (not_static_of_free hat)
    have hq : q ≠ a := by
      rintro rfl
      exact hr.not_block _ _ _ hb
    exact ⟨_, (hr.others q hq).trans hb⟩
  · intro j j' q hj hj' hq0 hat ha'
    rw [zero_add] at hat ha'
    exact ht.once j j' q (hr.old j q hj hq0) (hr.old j' q hj' hq0) hq0
      (not_static_of_free hat) (not_static_of_free ha')

theorem Room.not_freed (hq : ∀ t n b, s.heap q ≠ some ⟨t, n, .block b⟩) :
    ¬Freed (updateAction s.moduleTable th'.staticTls d.generation) 0 d.modules q := by
  rintro ⟨hq0, j, hj, hat⟩
  rw [zero_add] at hat
  obtain ⟨n, b, hb⟩ := ht.blocks j q (hr.old j q hj hq0) hq0 (not_static_of_free hat)
  exact hq _ _ _ hb

end

def updated (s : State) (d : TlsDtv) (r : List ℕ × Heap) : TlsDtv :=
  { d with modules := r.1, generation := s.generation }

def updatedHeap (s : State) (tid a n : ℕ) (d : TlsDtv) (r : List ℕ × Heap) : Heap :=
  update r.2 a (some ⟨tid, n, .dtv (updated s d r)⟩)

theorem Swept.slot {act ps} (hs : Swept act 0 ps h r)
    (hp : r.1[i]? = some p) : ∃ p', ps[i]? = some p' ∧ p = after (act i) p' := by
  obtain ⟨hl, -⟩ := List.getElem?_eq_some_iff.mp hp
  rw [hs.length] at hl
  refine ⟨ps[i], List.getElem?_eq_getElem hl, ?_⟩
  have hsl := hs.slots i ps[i] (List.getElem?_eq_getElem hl)
  rw [zero_add] at hsl
  exact some.inj (hp.symm.trans hsl)

theorem Swept.kept_slot {ps} (hs : Swept (updateAction table staticTls gen) 0 ps h r)
    (hi : ¬IsStatic table i) (hp : r.1[i]? = some p) (hp0 : p ≠ 0) :
    updateAction table staticTls gen i = .keep ∧ ps[i]? = some p := by
  obtain ⟨p', hp', rfl⟩ := hs.slot hp
  rcases keep_or_free hi with hat | hat
  · rw [hat] at hp ⊢
    exact ⟨rfl, hp'⟩
  · rw [hat] at hp0
    exact absurd rfl hp0

section
variable (hr : Room s tid th ds h th' a d rest)
  (hs : Swept (updateAction s.moduleTable th'.staticTls d.generation) 0 d.modules h r)
include hr hs

theorem of_updatedHeap {c} (hqa : q ≠ a)
    (hq : updatedHeap s tid a n d r q = some c) : s.heap q = some c ∧
      ¬Freed (updateAction s.moduleTable th'.staticTls d.generation) 0 d.modules q := by
  rw [updatedHeap, update_of_ne hqa] at hq
  have hk : ¬Freed (updateAction s.moduleTable th'.staticTls d.generation) 0 d.modules q := by
    intro hf
    cases hq.symm.trans (hs.freed q hf)
  rw [hs.kept q hk, hr.others q hqa] at hq
  exact ⟨hq, hk⟩

variable (ht : ThreadInv s.moduleTable gen limit s.heap tid th ds) (hok : TableOk s.moduleTable)
include ht hok

theorem updatedHeap_of_kept (hat : updateAction s.moduleTable th'.staticTls d.generation i = .keep)
    (hp : d.modules[i]? = some p) (hp0 : p ≠ 0) : updatedHeap s tid a n d r p = s.heap p := by
  have hi := keep_not_static hok hat
  have hip := hr.old i p hp hp0
  obtain ⟨k, b, hb⟩ := ht.blocks i p hip hp0 hi
  have hpa : p ≠ a := by
    rintro rfl
    exact hr.not_block _ _ _ hb
  have hk : ¬Freed (updateAction s.moduleTable th'.staticTls d.generation) 0 d.modules p := by
    rintro ⟨-, j, hj, hf⟩
    rw [zero_add] at hf
    have hij := ht.once i j p hip (hr.old j p hj hp0) hp0 hi (not_static_of_free hf)
    rw [hij, hf] at hat
    cases hat
  rw [updatedHeap, update_of_ne hpa, hs.kept p hk, hr.others p hpa]

theorem slot_of_old (hm : Registered s.moduleTable i m)
    (hl : m.firstGeneration ≤ (top ds).generation) (hp : (top ds).modules[i]? = some p) :
    r.1[i]? = some p := by
  have hsl := hs.slots i p (hr.copied i p hp)
  rw [zero_add] at hsl
  cases ho : m.staticOffset with
  | some o =>
    rw [updateAction_static hm.1 ho, after, hr.staticTls] at hsl
    rw [hsl, ht.static i m o p hm ho hl hp]
  | none =>
    rw [updateAction_keep hok hm ho (hr.generation ▸ hl)] at hsl
    exact hsl

theorem ThreadInv.updated (hgn : (top ds).generation < s.generation) (hn : s.heap 0 = none) :
    ThreadInv s.moduleTable s.generation s.moduleTable.length (updatedHeap s tid a n d r) tid th'
      ((a, updated s d r) :: rest) := by
  have hg : ∀ x ∈ rest, 0 < x.2.generation ∧ x.2.generation ≤ (top ds).generation :=
    fun x hx => ht.gens x (hr.rest_mem x hx)
  have hrs : ∀ x ∈ rest, x.1 ≠ a := by
    intro x hx hxa
    exact (nodup_cons.mp hr.nodup).1 (hxa ▸ mem_map_of_mem hx)
  have hlt : ∀ i m, Registered s.moduleTable i m → i < s.moduleTable.length :=
    fun i m hm => (List.getElem?_eq_some_iff.mp hm.1).1
  constructor
  · refine ⟨hr.slot, ⟨n, update_self _ _ _⟩, hr.chain.congr fun x hx => ?_⟩
    obtain ⟨k, hk⟩ := ht.chain.cell (hr.rest_mem x hx)
    rw [updatedHeap, update_of_ne (hrs x hx)]
    refine hs.kept x.1 (hr.not_freed ht fun t n b hb => ?_)
    cases hk.symm.trans hb
  · exact hr.nodup
  · exact hr.counted
  · refine forall_mem_cons.mpr ⟨⟨by dsimp only [ElfTlsDtv.updated]; omega, le_rfl⟩, ?_⟩
    intro x hx
    exact ⟨(hg x hx).1, (hg x hx).2.trans hgn.le⟩
  · exact le_rfl
  · refine forall_mem_cons.mpr ⟨fun i m hm _ => ?_, fun x hx => ?_⟩
    · exact (hlt i m hm).trans_le (hr.room.trans_eq hs.length.symm)
    · exact ht.inBounds x (hr.rest_mem x hx)
  · refine forall_mem_cons.mpr ⟨fun i m p _ _ hp => .inr hp, fun x hx i m p hm hl hp => ?_⟩
    rcases ht.older x (hr.rest_mem x hx) i m p hm hl hp with h0 | htp
    · exact .inl h0
    · exact .inr (slot_of_old hr hs ht hok hm (hl.trans (hg x hx).2) htp)
  · intro i m o p hm ho _ hp
    obtain ⟨p', -, rfl⟩ := hs.slot hp
    rw [updateAction_static hm.1 ho]
    rfl
  · intro i m p hm ho _ hp hp0
    have hi : ¬IsStatic s.moduleTable i := by
      rintro ⟨m', o, hm', ho'⟩
      cases hm.1.symm.trans hm'
      cases ho.symm.trans ho'
    obtain ⟨hat, hp'⟩ := hs.kept_slot hi hp hp0
    obtain ⟨m', hm', -, hl⟩ := of_updateAction_keep hok hat
    cases hm.1.symm.trans hm'.1
    rw [updatedHeap_of_kept hr hs ht hok hat hp' hp0]
    exact ht.dynamic i m p hm ho (hr.generation ▸ hl) (hr.old i p hp' hp0) hp0
  · intro i p hp hp0 hi
    obtain ⟨hat, hp'⟩ := hs.kept_slot hi hp hp0
    rw [updatedHeap_of_kept hr hs ht hok hat hp' hp0]
    exact ht.blocks i p (hr.old i p hp' hp0) hp0 hi
  · intro i j p hi hj hp0 hsi hsj
    have hpi := (hs.kept_slot hsi hi hp0).2
    have hpj := (hs.kept_slot hsj hj hp0).2
    exact ht.once i j p (hr.old i p hpi hp0) (hr.old j p hpj hp0) hp0 hsi hsj
  · intro i p hp hp0
    by_cases hi : IsStatic s.moduleTable i
    · obtain ⟨m, o, hm, -⟩ := hi
      exact (List.getElem?_eq_some_iff.mp hm).1
    · obtain ⟨m, hm, -⟩ := of_updateAction_keep hok (hs.kept_slot hi hp hp0).1
      exact hlt i m hm
  · intro q k b hq
    have hqa : q ≠ a := by
      rintro rfl
      rw [updatedHeap, update_self] at hq
      cases hq
    obtain ⟨hq, hkp⟩ := of_updatedHeap hr hs hqa hq
    have hq0 : q ≠ 0 := by
      rintro rfl
      cases hn.symm.trans hq
    obtain ⟨i, hi, hip⟩ := ht.ownBlocks q k b hq
    have hid := hr.copied i q hip
    have hsl := hs.slots i q hid
    rw [zero_add] at hsl
    rcases keep_or_free hi with hat | hat
    · rw [hat] at hsl
      exact ⟨i, hi, hsl⟩
    · exact absurd ⟨hq0, i, hid, by rwa [zero_add]⟩ hkp
  · intro q k d' hq
    by_cases hqa : q = a
    · exact hqa ▸ mem_cons_self
    obtain ⟨hq, -⟩ := of_updatedHeap hr hs hqa hq
    obtain ⟨x, hx, rfl⟩ := mem_map.mp (ht.ownDtvs q k d' hq)
    rcases hr.mem x hx with rfl | hx
    · exact absurd rfl hqa
    · exact mem_cons_of_mem _ (mem_map_of_mem hx)

end

end

/-- A thread changes its own cells, and takes those the allocator gives it. -/
structure HeapStep (tid : ℕ) (new : ℕ → ℕ → Prop) (h h' : Heap) : Prop where
  cells : ∀ q c, h' q = some c → (c.tid = tid ∧ new q c.size) ∨
    ∃ c', h q = some c' ∧ c'.size = c.size ∧ c'.tid = c.tid
  others : ∀ q c, c.tid ≠ tid → (h' q = some c ↔ h q = some c)

section
variable {new : ℕ → ℕ → Prop} {h'' : Heap} {b : Body}

theorem HeapStep.refl (tid) (new : ℕ → ℕ → Prop) (h) : HeapStep tid new h h :=
  ⟨fun _ c hq => .inr ⟨c, hq, rfl, rfl⟩, fun _ _ _ => Iff.rfl⟩

theorem HeapStep.trans (h1 : HeapStep tid new h h') (h2 : HeapStep tid new h' h'') :
    HeapStep tid new h h'' := by
  refine ⟨fun q c hq => ?_, fun q c hc => (h2.others q c hc).trans (h1.others q c hc)⟩
  rcases h2.cells q c hq with hn | ⟨c', hc', hsz, htd⟩
  · exact .inl hn
  rcases h1.cells q c' hc' with ⟨ht, hn⟩ | ⟨c'', hc'', hsz', htd'⟩
  · exact .inl ⟨htd ▸ ht, hsz ▸ hn⟩
  · exact .inr ⟨c'', hc'', hsz'.trans hsz, htd'.trans htd⟩

theorem HeapStep.store
    (hp : (h p = none ∧ new p n) ∨ ∃ c, h p = some c ∧ c.tid = tid ∧ c.size = n) :
    HeapStep tid new h (update h p (some ⟨tid, n, b⟩)) := by
  constructor
  · intro q c hq
    by_cases hqp : q = p
    · subst hqp
      rw [update_self] at hq
      cases hq
      rcases hp with ⟨-, hn⟩ | ⟨c, hc, htd, hsz⟩
      · exact .inl ⟨rfl, hn⟩
      · exact .inr ⟨c, hc, hsz, htd⟩
    · rw [update_of_ne hqp] at hq
      exact .inr ⟨c, hq, rfl, rfl⟩
  intro q c hc
  by_cases hqp : q = p
  · subst hqp
    rw [update_self]
    constructor
    · intro hq
      cases hq
      exact absurd rfl hc
    intro hq
    rcases hp with ⟨hno, -⟩ | ⟨c', hc', htd, -⟩
    · cases hno.symm.trans hq
    · cases hc'.symm.trans hq
      exact absurd htd hc
  · rw [update_of_ne hqp]

theorem HeapStep.sweep {act ps} (hs : Swept act i ps h r)
    (ho : ∀ q c, Freed act i ps q → h q = some c → c.tid = tid) : HeapStep tid new h r.2 := by
  constructor
  · intro q c hq
    have hk : ¬Freed act i ps q := by
      intro hf
      cases hq.symm.trans (hs.freed q hf)
    rw [hs.kept q hk] at hq
    exact .inr ⟨c, hq, rfl, rfl⟩
  · intro q c hc
    by_cases hf : Freed act i ps q
    · rw [hs.freed q hf]
      exact ⟨nofun, fun hq => absurd (ho q c hf hq) hc⟩
    · rw [hs.kept q hf]

variable {ds' : List (ℕ × TlsDtv)}

def NewDtv (M : Machine) (s : State) (dtvAddr q n : ℕ) : Prop :=
  q = dtvAddr ∧ n = dtvSizeInBytes M.abi (calculateNewDtvCount M.abi s.moduleTable)

/-- The DTVs of a thread after `update_tls_dtv`. -/
structure Refreshed (s : State) (tid : ℕ) (new : ℕ → ℕ → Prop) (th : Thread)
    (ds : List (ℕ × TlsDtv)) (h : Heap) (th' : Thread) (ds' : List (ℕ × TlsDtv)) : Prop where
  inv : ThreadInv s.moduleTable s.generation s.moduleTable.length h tid th' ds'
  current : (top ds').generation = s.generation
  staticTls : th'.staticTls = th.staticTls
  heapStep : HeapStep tid new s.heap h
  newer : ∀ x ∈ ds, ∃ x' ∈ ds', x'.1 = x.1 ∧ x.2.generation ≤ x'.2.generation
  slots : ∀ i m p, Registered s.moduleTable i m → m.firstGeneration ≤ (top ds).generation →
    (top ds).modules[i]? = some p → (top ds').modules[i]? = some p

theorem heapStep_growDtv (M tid th old) (hf : s.heap dtvAddr = none) :
    HeapStep tid (NewDtv M s dtvAddr) s.heap (growDtv M.abi s tid th old dtvAddr).1 := by
  rw [growDtv]
  split
  · exact HeapStep.store (.inl ⟨hf, rfl, rfl⟩)
  · exact HeapStep.refl _ _ _

theorem updateTlsDtv_spec
    (ht : ThreadInv s.moduleTable s.generation s.moduleTable.length s.heap tid th ds)
    (hok : TableOk s.moduleTable) (hmx : s.moduleTable.length ≤ M.maxModules)
    (hps : 0 < s.moduleTable.length) (hnl : s.heap 0 = none) (hf : s.heap dtvAddr = none) :
    ∃ h th' ds', updateTlsDtv M.abi s tid th dtvAddr = .ok (h, th') ∧
      Refreshed s tid (NewDtv M s dtvAddr) th ds h th' ds' := by
  rw [updateTlsDtv, ht.chain.readDtv_top]
  dsimp only
  by_cases hg : (top ds).generation = s.generation
  · rw [if_pos hg]
    exact ⟨s.heap, th, ds, rfl, ht, hg, rfl, HeapStep.refl _ _ _,
      fun x hx => ⟨x, hx, rfl, le_rfl⟩, fun _ _ _ _ _ hp => hp⟩
  rw [if_neg hg]
  obtain ⟨a, d, rest, hr⟩ := room_growDtv ht hmx hps hf
  have hgw := heapStep_growDtv M tid th (top ds) hf
  generalize growDtv M.abi s tid th (top ds) dtvAddr = grown at hr hgw
  obtain ⟨h, th'⟩ := grown
  obtain ⟨n, hn⟩ := hr.cell
  obtain ⟨r, hse, hs⟩ := sweep_spec (hr.freeable ht)
  have hce : r.2 a = some ⟨tid, n, .dtv d⟩ := by
    rw [hs.kept a (hr.not_freed ht hr.not_block), hn]
  rw [hr.slot, readDtv_of_cell hn]
  dsimp only
  rw [hse]
  dsimp only
  rw [writeDtv_of_cell hce]
  have hl : (top ds).generation < s.generation := lt_of_le_of_ne ht.topGen hg
  refine ⟨_, th', (a, updated s d r) :: rest, rfl, ?_, rfl, hr.staticTls, ?_, ?_, ?_⟩
  · exact ThreadInv.updated hr hs ht hok hl hnl
  · refine hgw.trans (HeapStep.trans (HeapStep.sweep hs ?_) (HeapStep.store ?_))
    · rintro q c ⟨hq0, j, hj, hat⟩ hq
      rw [zero_add] at hat
      obtain ⟨k, b, hb⟩ := ht.blocks j q (hr.old j q hj hq0) hq0 (not_static_of_free hat)
      have hqa : q ≠ a := by
        rintro rfl
        exact hr.not_block _ _ _ hb
      rw [hr.others q hqa, hb] at hq
      cases hq
      rfl
    · exact .inr ⟨_, hce, rfl, rfl⟩
  · intro x hx
    rcases hr.mem x hx with rfl | hx'
    · exact ⟨_, mem_cons_self, rfl, hr.generation.trans_le hl.le⟩
    · exact ⟨x, mem_cons_of_mem _ hx', rfl, le_rfl⟩
  · exact fun i m p hm hle hp => slot_of_old hr hs ht hok hm hle hp

variable {blockAddr : ℕ}

/-- The current DTV with a block in slot `i`. -/
def withBlock (d : TlsDtv) (i blockAddr : ℕ) : TlsDtv :=
  { d with modules := d.modules.set i blockAddr }

def blockHeap (tid i blockAddr a n : ℕ) (m : TlsModule) (d : TlsDtv) (h : Heap) : Heap :=
  update (update h blockAddr (some ⟨tid, m.size, .block m.incarnation⟩)) a
    (some ⟨tid, n, .dtv (withBlock d i blockAddr)⟩)

theorem blockHeap_block (ha : blockAddr ≠ a) : blockHeap tid i blockAddr a n m d h blockAddr =
    some ⟨tid, m.size, .block m.incarnation⟩ := by
  rw [blockHeap, update_of_ne ha, update_self]

theorem blockHeap_of_ne (hq : q ≠ a) (hqb : q ≠ blockAddr) :
    blockHeap tid i blockAddr a n m d h q = h q := by
  rw [blockHeap, update_of_ne hq, update_of_ne hqb]

theorem withBlock_slot {j} (hp : (withBlock d i blockAddr).modules[j]? = some p) :
    (j = i ∧ p = blockAddr) ∨ (j ≠ i ∧ d.modules[j]? = some p) := by
  rw [withBlock, List.getElem?_set] at hp
  by_cases hij : i = j
  · rw [if_pos hij] at hp
    split at hp
    · exact .inl ⟨hij.symm, (some.inj hp).symm⟩
    · cases hp
  · rw [if_neg hij] at hp
    exact .inr ⟨Ne.symm hij, hp⟩

theorem withBlock_other {j} (hj : j ≠ i) (hp : d.modules[j]? = some p) :
    (withBlock d i blockAddr).modules[j]? = some p := by
  rw [withBlock, List.getElem?_set, if_neg hj.symm]
  exact hp

theorem withBlock_self (hi : i < d.modules.length) :
    (withBlock d i blockAddr).modules[i]? = some blockAddr := by
  rw [withBlock, List.getElem?_set, if_pos rfl, if_pos hi]

theorem ThreadInv.withBlock (ht : ThreadInv table gen table.length h tid th ((a, d) :: rest))
    (hn : h a = some ⟨tid, n, .dtv d⟩) (hm : Registered table i m) (ho : m.staticOffset = none)
    (hsl : d.modules[i]? = some 0) (hnl : h 0 = none) (hf : h blockAddr = none) :
    ThreadInv table gen table.length (blockHeap tid i blockAddr a n m d h) tid th
      ((a, ElfTlsDtv.withBlock d i blockAddr) :: rest) := by
  have ha : blockAddr ≠ a := by
    rintro rfl
    cases hf.symm.trans hn
  have hi : ¬IsStatic table i := by
    rintro ⟨m', o, hm', ho'⟩
    cases hm.1.symm.trans hm'
    cases ho.symm.trans ho'
  have hce : ∀ q c, h q = some c → q ≠ a → blockHeap tid i blockAddr a n m d h q = some c := by
    intro q c hq hqa
    have hqb : q ≠ blockAddr := by
      rintro rfl
      cases hf.symm.trans hq
    rw [blockHeap_of_ne hqa hqb]
    exact hq
  have hbk : ∀ {q k b}, h q = some ⟨tid, k, .block b⟩ → q ≠ a := by
    rintro q k b hq rfl
    cases hn.symm.trans hq
  constructor
  · refine ⟨ht.chain.1, ⟨n, update_self _ _ _⟩, ht.chain.2.2.congr fun x hx => ?_⟩
    obtain ⟨k, hk⟩ := ht.chain.cell (mem_cons_of_mem (a, d) hx)
    have hxa : x.1 ≠ a := fun hxa =>
      (nodup_cons.mp ht.nodup).1 (mem_map.mpr ⟨x, hx, hxa⟩)
    rw [hk]
    exact hce x.1 _ hk hxa
  · exact ht.nodup
  · exact ht.counted
  · exact forall_mem_cons.mpr
      ⟨ht.gens (a, d) mem_cons_self, fun x hx => ht.gens x (mem_cons_of_mem _ hx)⟩
  · exact ht.topGen
  · refine forall_mem_cons.mpr
      ⟨fun j m' hm' hl => ?_, fun x hx => ht.inBounds x (mem_cons_of_mem _ hx)⟩
    have hlt := ht.inBounds (a, d) mem_cons_self j m' hm' hl
    exact hlt.trans_eq (length_set ..).symm
  · refine forall_mem_cons.mpr ⟨fun j m' p _ _ hp => .inr hp, fun x hx j m' p hm' hl hp => ?_⟩
    rcases ht.older x (mem_cons_of_mem _ hx) j m' p hm' hl hp with hp0 | hp
    · exact .inl hp0
    by_cases hji : j = i
    · subst hji
      cases hsl.symm.trans hp
      exact .inl rfl
    · exact .inr (withBlock_other hji hp)
  · intro j m' o p hm' ho' hl hp
    rcases withBlock_slot hp with ⟨rfl, -⟩ | ⟨-, hp⟩
    · exact absurd ⟨m', o, hm'.1, ho'⟩ hi
    · exact ht.static j m' o p hm' ho' hl hp
  · intro j m' p hm' ho' hl hp hp0
    rcases withBlock_slot hp with ⟨rfl, rfl⟩ | ⟨-, hp⟩
    · cases hm.1.symm.trans hm'.1
      exact blockHeap_block ha
    · have hb := ht.dynamic j m' p hm' ho' hl hp hp0
      exact hce p _ hb (hbk hb)
  · intro j p hp hp0 hj
    rcases withBlock_slot hp with ⟨rfl, rfl⟩ | ⟨-, hp⟩
    · exact ⟨_, _, blockHeap_block ha⟩
    · obtain ⟨k, b, hb⟩ := ht.blocks j p hp hp0 hj
      exact ⟨k, b, hce p _ hb (hbk hb)⟩
  · have hnw : ∀ j, ¬IsStatic table j → blockAddr ≠ 0 → d.modules[j]? ≠ some blockAddr := by
      intro j hj hb0 hp
      obtain ⟨k, b, hb⟩ := ht.blocks j blockAddr hp hb0 hj
      cases hf.symm.trans hb
    intro j k p hj hk hp0 hsj hsk
    rcases withBlock_slot hj with ⟨rfl, rfl⟩ | ⟨-, hj'⟩
    · rcases withBlock_slot hk with ⟨rfl, -⟩ | ⟨-, hk'⟩
      · rfl
      · exact absurd hk' (hnw k hsk hp0)
    · rcases withBlock_slot hk with ⟨rfl, rfl⟩ | ⟨-, hk'⟩
      · exact absurd hj' (hnw j hsj hp0)
      · exact ht.once j k p hj' hk' hp0 hsj hsk
  · intro j p hp hp0
    rcases withBlock_slot hp with ⟨rfl, -⟩ | ⟨-, hp⟩
    · exact (List.getElem?_eq_some_iff.mp hm.1).1
    · exact ht.filled j p hp hp0
  · intro q k b hq
    by_cases hqb : q = blockAddr
    · subst hqb
      exact ⟨i, hi, withBlock_self (List.getElem?_eq_some_iff.mp hsl).1⟩
    by_cases hqa : q = a
    · subst hqa
      rw [blockHeap, update_self] at hq
      cases hq
    rw [blockHeap_of_ne hqa hqb] at hq
    obtain ⟨j, hj, hjq⟩ := ht.ownBlocks q k b hq
    refine ⟨j, hj, withBlock_other ?_ hjq⟩
    rintro rfl
    cases hsl.symm.trans hjq
    cases hnl.symm.trans hq
  · intro q k d' hq
    by_cases hqa : q = a
    · exact hqa ▸ mem_cons_self
    by_cases hqb : q = blockAddr
    · subst hqb
      rw [blockHeap_block ha] at hq
      cases hq
    · rw [blockHeap_of_ne hqa hqb] at hq
      exact ht.ownDtvs q k d' hq

def NewBlock (m : TlsModule) (blockAddr q n : ℕ) : Prop := q = blockAddr ∧ n = m.size

/-- The DTVs of a thread after the rest of the slow path, and the pointer that it has for the
module. -/
structure Provided (table : List TlsModule) (gen tid i blockAddr : ℕ) (m : TlsModule) (th : Thread)
    (ds : List (ℕ × TlsDtv)) (h : Heap) (p : ℕ) (h' : Heap) (ds' : List (ℕ × TlsDtv)) : Prop where
  inv : ThreadInv table gen table.length h' tid th ds'
  generation : (top ds').generation = (top ds).generation
  slot : (top ds').modules[i]? = some p
  ne_zero : p ≠ 0
  same : ∀ p', (top ds).modules[i]? = some p' → p' ≠ 0 → p = p'
  heapStep : HeapStep tid (NewBlock m blockAddr) h h'
  newer : ∀ x ∈ ds, ∃ x' ∈ ds', x'.1 = x.1 ∧ x.2.generation ≤ x'.2.generation

theorem moduleBlock_spec
    (ht : ThreadInv table gen table.length h tid th ds) (hm : Registered table i m)
    (hf : 0 < m.firstGeneration) (hl : m.firstGeneration ≤ (top ds).generation)
    (hsa : th.staticTls ≠ 0) (hnl : h 0 = none) (hfr : h blockAddr = none)
    (hb0 : blockAddr ≠ 0) : ∃ p h' ds', moduleBlock table tid th i blockAddr h = .ok (p, h') ∧
      Provided table gen tid i blockAddr m th ds h p h' ds' := by
  cases ds with
  | nil => exact absurd hl (not_le.mpr hf)
  | cons x rest =>
    obtain ⟨a, d⟩ := x
    obtain ⟨hsl, ⟨n, hn⟩, -⟩ := ht.chain
    have hlt : i < d.modules.length := ht.inBounds (a, d) mem_cons_self i m hm hl
    obtain ⟨p, hp⟩ : ∃ p, d.modules[i]? = some p := ⟨_, List.getElem?_eq_getElem hlt⟩
    rw [moduleBlock, ht.chain.readDtv_top]
    dsimp only [top]
    rw [hp]
    dsimp only
    by_cases hp0 : p = 0
    · subst hp0
      have ho : m.staticOffset = none := by
        cases ho : m.staticOffset with
        | none => rfl
        | some o =>
          have h0 := ht.static i m o 0 hm ho hl hp
          omega
      have ha : a ≠ blockAddr := by
        rintro rfl
        cases hfr.symm.trans hn
      have hn' : update h blockAddr (some ⟨tid, m.size, .block m.incarnation⟩) a =
          some ⟨tid, n, .dtv d⟩ := by
        rw [update_of_ne ha]
        exact hn
      rw [if_neg (not_not.mpr rfl), hm.1]
      dsimp only
      rw [hsl, writeDtv_of_cell hn']
      refine ⟨blockAddr, _, (a, ElfTlsDtv.withBlock d i blockAddr) :: rest, rfl, ?_⟩
      refine ⟨ht.withBlock hn hm ho hp hnl hfr, rfl, withBlock_self hlt, hb0, ?_, ?_, ?_⟩
      · intro p' hp' hp0
        cases hp.symm.trans hp'
        exact absurd rfl hp0
      · refine HeapStep.trans (HeapStep.store (.inl ⟨hfr, rfl, rfl⟩)) (HeapStep.store ?_)
        exact .inr ⟨_, hn', rfl, rfl⟩
      · refine forall_mem_cons.mpr ⟨⟨_, mem_cons_self, rfl, le_rfl⟩, fun x hx => ?_⟩
        exact ⟨x, mem_cons_of_mem _ hx, rfl, le_rfl⟩
    · rw [if_pos hp0]
      refine ⟨p, h, (a, d) :: rest, rfl, ht, rfl, hp, hp0, ?_, HeapStep.refl _ _ _,
        fun x hx => ⟨x, hx, rfl, le_rfl⟩⟩
      intro p' hp' _
      exact some.inj (hp.symm.trans hp')

variable {fuel : ℕ}

theorem exitAction_free_iff : exitAction table i = .free ↔ ¬IsStatic table i := by
  rw [exitAction]
  cases hm : table[i]? with
  | none =>
    refine iff_of_true rfl ?_
    rintro ⟨m, o, hm', -⟩
    cases hm.symm.trans hm'
  | some m =>
    dsimp only
    cases ho : m.staticOffset with
    | none =>
      refine iff_of_true rfl ?_
      rintro ⟨m', o, hm', ho'⟩
      cases hm.symm.trans hm'
      cases ho.symm.trans ho'
    | some o => exact iff_of_false nofun (not_not.mpr ⟨m, o, hm, ho⟩)

theorem freeDtvs_spec (hc : DtvChain h tid ref ds) (hnd : (ds.map fst).Nodup)
    (hg : ∀ x ∈ ds, 0 < x.2.generation) (hnl : h 0 = none) (hf : ds.length < fuel) :
    ∃ h', freeDtvs fuel h ref = .ok h' ∧ (∀ q ∈ ds.map fst, h' q = none) ∧
      ∀ q, q ∉ ds.map fst → h' q = h q := by
  induction ds generalizing h ref fuel with
  | nil =>
    obtain ⟨fuel, rfl⟩ : ∃ k, fuel = k + 1 := exists_eq_succ_of_ne_zero (by omega)
    obtain rfl : ref = none := hc
    exact ⟨h, rfl, nofun, fun q _ => rfl⟩
  | cons x ds ih =>
    obtain ⟨fuel, rfl⟩ : ∃ k, fuel = k + 1 := exists_eq_succ_of_ne_zero (by omega)
    obtain ⟨rfl, ⟨n, hn⟩, hd⟩ := hc
    obtain ⟨hx, hnd⟩ := nodup_cons.mp hnd
    have hgn : x.2.generation ≠ kTlsGenerationNone := (hg x mem_cons_self).ne'
    have hx0 : x.1 ≠ 0 := by
      intro h0
      rw [h0, hnl] at hn
      cases hn
    have hcn : DtvChain (update h x.1 none) tid x.2.next ds := by
      refine hd.congr fun y hy => update_of_ne ?_ _ _
      intro hyx
      exact hx (hyx ▸ mem_map_of_mem hy)
    rw [length_cons] at hf
    obtain ⟨h', hok, hfr, hk⟩ := ih hcn hnd (fun y hy => hg y (mem_cons_of_mem x hy))
      (by rw [update_of_ne hx0.symm]; exact hnl) (lt_of_succ_lt_succ hf)
    refine ⟨h', ?_, ?_, ?_⟩
    · rw [freeDtvs, readDtv_of_cell hn]
      dsimp only
      rw [if_neg hgn, free_of_live hx0 hn]
      exact hok
    · refine forall_mem_cons.mpr ⟨?_, hfr⟩
      rw [hk x.1 hx, update_self]
    · intro q hq
      rw [map_cons, mem_cons, not_or] at hq
      rw [hk q hq.2, update_of_ne hq.1]

theorem freeDynamicTls_spec (ht : ThreadInv table gen limit h tid th ds) (hnl : h 0 = none) :
    ∃ h', freeDynamicTls table h th = .ok h' ∧ HeapStep tid (fun _ _ => False) h h' ∧
      ∀ p c, h' p = some c → c.tid ≠ tid := by
  rw [freeDynamicTls, ht.chain.readDtv_top]
  dsimp only
  by_cases hg : (top ds).generation = kTlsGenerationNone
  · rw [if_pos hg]
    have hni : ds = [] := by
      cases ds with
      | nil => rfl
      | cons x ds => exact absurd hg (ht.gens x mem_cons_self).1.ne'
    subst hni
    refine ⟨h, rfl, HeapStep.refl _ _ _, ?_⟩
    rintro p ⟨t, n, b⟩ hp rfl
    cases b with
    | dtv d => exact absurd (ht.ownDtvs p n d hp) not_mem_nil
    | block b =>
      obtain ⟨i, -, hi⟩ := ht.ownBlocks p n b hp
      cases hi
  rw [if_neg hg]
  have hbk : ∀ q, Freed (exitAction table) 0 (top ds).modules q →
      ∃ n b, h q = some ⟨tid, n, .block b⟩ := by
    rintro q ⟨hq0, j, hj, hat⟩
    rw [zero_add] at hat
    exact ht.blocks j q hj hq0 (exitAction_free_iff.mp hat)
  have hf : Freeable (exitAction table) 0 (top ds).modules h := by
    constructor
    · intro q hq
      obtain ⟨n, b, hb⟩ := hbk q hq
      exact ⟨_, hb⟩
    · intro j j' q hj hj' hq0 hat ha'
      rw [zero_add] at hat ha'
      exact ht.once j j' q hj hj' hq0 (exitAction_free_iff.mp hat) (exitAction_free_iff.mp ha')
  obtain ⟨r, hse, hs⟩ := sweep_spec hf
  have hd : ∀ x ∈ ds, r.2 x.1 = h x.1 := by
    intro x hx
    refine hs.kept x.1 fun hfr => ?_
    obtain ⟨n, b, hb⟩ := hbk x.1 hfr
    obtain ⟨k, hk⟩ := ht.chain.cell hx
    cases hk.symm.trans hb
  have hnl' : r.2 0 = none := by
    rw [hs.kept 0 fun hfr => hfr.1 rfl]
    exact hnl
  obtain ⟨h', hfe, hno, hkp⟩ := freeDtvs_spec (ht.chain.congr hd) ht.nodup
    (fun x hx => (ht.gens x hx).1) hnl' (ht.counted.trans_lt (lt_succ_self _))
  rw [hse]
  have ho : ∀ q c, h' q = some c → q ∉ ds.map fst ∧ r.2 q = some c := by
    intro q c hq
    have hm : q ∉ ds.map fst := by
      intro hm
      cases hq.symm.trans (hno q hm)
    exact ⟨hm, (hkp q hm).symm.trans hq⟩
  refine ⟨h', hfe, HeapStep.trans (HeapStep.sweep hs ?_) ⟨?_, ?_⟩, ?_⟩
  · intro q c hfr hq
    obtain ⟨n, b, hb⟩ := hbk q hfr
    cases hb.symm.trans hq
    rfl
  · intro q c hq
    exact .inr ⟨c, (ho q c hq).2, rfl, rfl⟩
  · intro q c hc
    refine ⟨fun hq => (ho q c hq).2, fun hq => ?_⟩
    rw [hkp q]
    · exact hq
    intro hm
    obtain ⟨x, hx, rfl⟩ := mem_map.mp hm
    obtain ⟨n, hn⟩ := ht.chain.cell hx
    cases (hd x hx).symm.trans hq |>.symm.trans hn
    exact hc rfl
  rintro p ⟨t, n, b⟩ hp rfl
  obtain ⟨hm, hr⟩ := ho p _ hp
  have hkp : ¬Freed (exitAction table) 0 (top ds).modules p := by
    intro hfr
    cases hr.symm.trans (hs.freed p hfr)
  rw [hs.kept p hkp] at hr
  cases b with
  | dtv d => exact hm (ht.ownDtvs p n d hr)
  | block b =>
    obtain ⟨i, hi, hip⟩ := ht.ownBlocks p n b hr
    refine hkp ⟨?_, i, hip, ?_⟩
    · rintro rfl
      cases hnl.symm.trans hr
    · rw [zero_add]
      exact exitAction_free_iff.mpr hi

end

end ElfTlsDtv
