import Mathlib

/-! Installing and removing heapprofd, malloc_heapprofd.cpp. Signals, mallocs that reach the
ephemeral hook, init threads and resets run side by side, one atomic operation at a time;
`gGlobalsMutating` lets one of their bodies run at a time. -/
namespace MallocHeapprofd

open Function Bool

inductive Dispatch where
  | gwpAsan
  | native
  /-- `malloc_dispatch_table`, filled by heapprofd's library. -/
  | heapprofd
  /-- `gEphemeralDispatch`. -/
  | ephemeral
  deriving DecidableEq

abbrev Table : Type := Option Dispatch

inductive HeapprofdState where
  | initialState
  | installingEphemeralHook
  | ephemeralHookInstalled
  | removingEphemeralHook
  | installingHook
  | hookInstalled
  | uninstallingHook
  | incompatibleHooks
  deriving DecidableEq

inductive Pc where
  | signalCheck
  | signalEnter
  | signalFromInitial
  | signalFromInstalled
  | signalLoadDefault
  | signalStorePrevious (defaultDispatch : Table)
  | signalLoadPrevious
  | signalInstall
  | signalFinish
  | signalLeave
  | hookLock
  | hookEnter
  | hookBegin
  | hookLoadPrevious
  | hookStoreDefault (previousDispatch : Table)
  | hookFinish
  | hookCreate
  | hookLeave
  | hookUnlock
  | initLock
  | initEnter
  | initBegin
  | initLoad
  | initInitialize
  | initStoreDefault
  | initFinish
  | initLeave
  | initUnlock
  | resetCheck
  | resetLock
  | resetEnter
  | resetBegin
  | resetLoadPrevious
  | resetStoreDefault (previousDispatch : Table)
  | resetFinish
  | resetLeave
  | resetUnlock
  deriving DecidableEq

structure State where
  /-- `gHeapprofdState`. -/
  state : HeapprofdState
  /-- `gGlobalsMutating`. -/
  mutating : Bool
  /-- Who holds `gGlobalsMutateLock`. -/
  lock : Option ℕ
  default : Table
  /-- `gPreviousDefaultDispatchTable`. -/
  previous : Table
  /-- What `gEphemeralDispatch` is a copy of, apart from its `malloc`. -/
  ephemeralBase : Table
  /-- Whether `gHeapprofdHandle` is set. -/
  handle : Bool
  threads : ℕ → Option Pc
  /-- A ghost: the tables given to heapprofd as its backing allocator. -/
  given : List Dispatch
  /-- A ghost: the default table at each moment at which a reset reported success. -/
  resets : List Table

def startTable (gwpAsan : Bool) : Table := if gwpAsan then some .gwpAsan else none

def initial (gwpAsan : Bool) : State where
  state := .initialState
  mutating := false
  lock := none
  default := startTable gwpAsan
  previous := none
  ephemeralBase := none
  handle := false
  threads := fun _ => none
  given := []
  resets := []

/-- Whether the library could be loaded and found, whether its initialisation succeeded, and the
thread that `pthread_create` made. -/
structure Answer where
  libraryOk : Bool
  initOk : Bool
  created : Option ℕ

def goto (s : State) (k : ℕ) (pc : Pc) : State :=
  { s with threads := update s.threads k (some pc) }

def exit (s : State) (k : ℕ) : State := { s with threads := update s.threads k none }

/-- The exchange at the head of `MaybeModifyGlobals`. -/
def enter (s : State) (k : ℕ) (body : Pc) (failed : State) : State :=
  if s.mutating then failed else goto { s with mutating := true } k body

def compareExchange (s : State) (k : ℕ) (expected new : HeapprofdState) (pc failed : Pc) : State :=
  if s.state = expected then goto { s with state := new } k pc else goto s k failed

def advance (s : State) (k : ℕ) (a : Answer) : Pc → State
  | .signalCheck => if s.state = .incompatibleHooks then exit s k else goto s k .signalEnter
  | .signalEnter => enter s k .signalFromInitial (exit s k)
  | .signalFromInitial =>
    if s.state = .initialState then
      goto { s with state := .installingEphemeralHook } k .signalLoadDefault
    else if s.state = .ephemeralHookInstalled then goto s k .signalLeave
    else goto s k .signalFromInstalled
  | .signalFromInstalled =>
    compareExchange s k .hookInstalled .installingEphemeralHook .signalLoadPrevious .signalLeave
  | .signalLoadDefault => goto s k (.signalStorePrevious s.default)
  | .signalStorePrevious d =>
    if d = some .gwpAsan then goto { s with previous := d, ephemeralBase := d } k .signalInstall
    else goto { s with previous := none, ephemeralBase := some .native } k .signalInstall
  | .signalLoadPrevious =>
    goto { s with ephemeralBase := some (s.previous.getD .native) } k .signalInstall
  | .signalInstall => goto { s with default := some .ephemeral } k .signalFinish
  | .signalFinish => goto { s with state := .ephemeralHookInstalled } k .signalLeave
  | .signalLeave => exit { s with mutating := false } k
  | .hookLock => goto { s with lock := some k } k .hookEnter
  | .hookEnter => enter s k .hookBegin (goto s k .hookUnlock)
  | .hookBegin =>
    compareExchange s k .ephemeralHookInstalled .removingEphemeralHook .hookLoadPrevious .hookLeave
  | .hookLoadPrevious => goto s k (.hookStoreDefault s.previous)
  | .hookStoreDefault p => goto { s with default := p } k .hookFinish
  | .hookFinish => goto { s with state := .initialState } k .hookCreate
  | .hookCreate =>
    match a.created with
    | none => goto s k .hookLeave
    | some thread => goto (goto s thread .initLock) k .hookLeave
  | .hookLeave => goto { s with mutating := false } k .hookUnlock
  | .hookUnlock => exit { s with lock := none } k
  | .initLock => goto { s with lock := some k } k .initEnter
  | .initEnter => enter s k .initBegin (goto s k .initUnlock)
  | .initBegin => compareExchange s k .initialState .installingHook .initLoad .initLeave
  | .initLoad =>
    if a.libraryOk then goto { s with handle := true } k .initInitialize else goto s k .initFinish
  | .initInitialize =>
    let s := { s with given := s.default.getD .native :: s.given }
    if a.initOk then goto s k .initStoreDefault else goto s k .initFinish
  | .initStoreDefault => goto { s with default := some .heapprofd } k .initFinish
  | .initFinish => goto { s with state := .hookInstalled } k .initLeave
  | .initLeave => goto { s with mutating := false } k .initUnlock
  | .initUnlock => exit { s with lock := none } k
  | .resetCheck =>
    if s.state = .initialState then exit { s with resets := s.default :: s.resets } k
    else goto s k .resetLock
  | .resetLock => goto { s with lock := some k } k .resetEnter
  | .resetEnter => enter s k .resetBegin (goto s k .resetUnlock)
  | .resetBegin =>
    compareExchange s k .hookInstalled .uninstallingHook .resetLoadPrevious .resetLeave
  | .resetLoadPrevious => goto s k (.resetStoreDefault s.previous)
  | .resetStoreDefault p => goto { s with default := p } k .resetFinish
  | .resetFinish =>
    goto { s with state := .initialState, resets := s.default :: s.resets } k .resetLeave
  | .resetLeave => goto { s with mutating := false } k .resetUnlock
  | .resetUnlock => exit { s with lock := none } k

inductive Event where
  | signal (k : ℕ)
  | malloc (k : ℕ)
  /-- `M_RESET_HOOKS`. -/
  | reset (k : ℕ)
  | advance (k : ℕ) (a : Answer)

def step (s : State) : Event → State
  | .signal k => goto s k .signalCheck
  | .malloc k => goto s k .hookLock
  | .reset k => goto s k .resetCheck
  | .advance k a =>
    match s.threads k with
    | none => s
    | some pc => advance s k a pc

def Pc.waits : Pc → Bool
  | .hookLock | .initLock | .resetLock => true
  | _ => false

def Enabled (s : State) : Event → Prop
  | .signal k | .malloc k | .reset k => s.threads k = none
  | .advance k a => ∃ pc, s.threads k = some pc ∧ (pc.waits → s.lock = none) ∧
      ∀ t, a.created = some t → t ≠ k ∧ s.threads t = none

inductive Reachable (gwpAsan : Bool) : State → Prop where
  | initial : Reachable gwpAsan (initial gwpAsan)
  | step {s : State} (e : Event) : Reachable gwpAsan s → Enabled s e → Reachable gwpAsan (step s e)

/-- In a body that `gGlobalsMutating` guards. -/
def Pc.guarded : Pc → Bool
  | .signalFromInitial | .signalFromInstalled | .signalLoadDefault | .signalStorePrevious _
  | .signalLoadPrevious | .signalInstall | .signalFinish | .signalLeave
  | .hookBegin | .hookLoadPrevious | .hookStoreDefault _ | .hookFinish | .hookCreate | .hookLeave
  | .initBegin | .initLoad | .initInitialize | .initStoreDefault | .initFinish | .initLeave
  | .resetBegin | .resetLoadPrevious | .resetStoreDefault _ | .resetFinish | .resetLeave => true
  | _ => false

def HeapprofdState.transient : HeapprofdState → Bool
  | .installingEphemeralHook | .removingEphemeralHook | .installingHook | .uninstallingHook => true
  | _ => false

def Running (s : State) : Prop := ∃ k pc, s.threads k = some pc ∧ pc.guarded

structure Sound (gwpAsan : Bool) (s : State) : Prop where
  restored : s.state = .initialState → ¬Running s → s.default = startTable gwpAsan
  backing : ∀ t ∈ s.given, t ≠ .heapprofd ∧ t ≠ .ephemeral
  resets : ∀ t ∈ s.resets, t = startTable gwpAsan
  /-- A body that is in a transient state is not stuck: its next operation waits for nothing. -/
  unstuck : s.state.transient → ∃ k pc, s.threads k = some pc ∧ pc.guarded ∧ pc.waits = false

variable {g : Bool} {s s' : State} {k : ℕ} {pc pc' : Pc} {a : Answer} {e : Event}

def Stable (g : Bool) (s : State) : Prop :=
  match s.state with
  | .initialState => s.default = startTable g
  | .ephemeralHookInstalled => s.previous = startTable g
  | .hookInstalled => s.previous = startTable g ∧
      (s.default = startTable g ∨ s.default = some .heapprofd)
  | _ => False

def BodyInv (g : Bool) (s : State) : Pc → Prop
  | .signalLoadDefault => s.state = .installingEphemeralHook ∧ s.default = startTable g
  | .signalStorePrevious d => s.state = .installingEphemeralHook ∧ d = startTable g
  | .signalLoadPrevious | .signalInstall | .signalFinish =>
    s.state = .installingEphemeralHook ∧ s.previous = startTable g
  | .hookLoadPrevious => s.state = .removingEphemeralHook ∧ s.previous = startTable g
  | .hookStoreDefault p => s.state = .removingEphemeralHook ∧ s.previous = startTable g ∧
      p = startTable g
  | .hookFinish => s.state = .removingEphemeralHook ∧ s.previous = startTable g ∧
      s.default = startTable g
  | .hookCreate => s.state = .initialState ∧ s.previous = startTable g ∧ s.default = startTable g
  | .initLoad | .initInitialize | .initStoreDefault => s.state = .installingHook ∧
      s.previous = startTable g ∧ s.default = startTable g
  | .initFinish => s.state = .installingHook ∧ s.previous = startTable g ∧
      (s.default = startTable g ∨ s.default = some .heapprofd)
  | .resetLoadPrevious => s.state = .uninstallingHook ∧ s.previous = startTable g
  | .resetStoreDefault p => s.state = .uninstallingHook ∧ p = startTable g
  | .resetFinish => s.state = .uninstallingHook ∧ s.default = startTable g
  | _ => Stable g s

def Pc.inits : Pc → Bool
  | .initLock | .initEnter | .initBegin => true
  | _ => false

structure Inv (g : Bool) (s : State) : Prop where
  mutating : s.mutating ↔ Running s
  unique : ∀ k k' pc pc', s.threads k = some pc → s.threads k' = some pc' → pc.guarded →
    pc'.guarded → k = k'
  stable : s.mutating = false → Stable g s
  body : ∀ k pc, s.threads k = some pc → pc.guarded → BodyInv g s pc
  inits : ∀ k pc, s.threads k = some pc → pc.inits → s.previous = startTable g
  backing : ∀ t ∈ s.given, t ≠ .heapprofd ∧ t ≠ .ephemeral
  resets : ∀ t ∈ s.resets, t = startTable g

theorem Inv.initial (g) : Inv g (initial g) where
  mutating := ⟨nofun, fun ⟨_, _, h, _⟩ => (nomatch h)⟩
  unique := nofun
  stable := fun _ => rfl
  body := nofun
  inits := nofun
  backing := fun _ h => absurd h List.not_mem_nil
  resets := fun _ h => absurd h List.not_mem_nil

variable {o : Option Pc}

theorem update_cases {threads k'} (h : update threads k o k' = some pc') :
    (k' = k ∧ o = some pc') ∨ (k' ≠ k ∧ threads k' = some pc') := by
  by_cases hk : k' = k
  · subst hk
    rw [update_self] at h
    exact .inl ⟨rfl, h⟩
  · rw [update_of_ne hk] at h
    exact .inr ⟨hk, h⟩

/-- All but the threads, the lock and the reports is as before. -/
structure SameGlobals (g : Bool) (s s' : State) : Prop where
  state : s'.state = s.state
  mutating : s'.mutating = s.mutating
  default : s'.default = s.default
  previous : s'.previous = s.previous
  given : s'.given = s.given
  resets : ∀ t ∈ s'.resets, t ∈ s.resets ∨ t = startTable g

theorem SameGlobals.stable (h : SameGlobals g s s') : Stable g s' ↔ Stable g s := by
  rw [Stable, Stable, h.state, h.default, h.previous]

theorem SameGlobals.bodyInv (h : SameGlobals g s s') : BodyInv g s' pc ↔ BodyInv g s pc := by
  cases pc <;> simp only [BodyInv, h.state, h.default, h.previous, h.stable]

theorem Inv.outside (hiv : Inv g s) (hs : SameGlobals g s s')
    (htr : s'.threads = update s.threads k o)
    (hk : ∀ p, s.threads k = some p → p.guarded = false) (hg : ∀ p, o = some p → p.guarded = false)
    (hi : ∀ p, o = some p → p.inits → s.previous = startTable g) : Inv g s' := by
  have hod : ∀ k' p, s'.threads k' = some p → p.guarded → s.threads k' = some p := by
    intro k' p h hp
    rw [htr] at h
    rcases update_cases h with ⟨-, ho⟩ | ⟨-, h⟩
    · exact absurd ((hg p ho).symm.trans hp) false_ne_true
    · exact h
  have hkp : ∀ k' p, s.threads k' = some p → p.guarded → s'.threads k' = some p := by
    intro k' p h hp
    have hn : k' ≠ k := by
      rintro rfl
      exact absurd ((hk p h).symm.trans hp) false_ne_true
    rw [htr, update_of_ne hn, h]
  constructor
  · rw [hs.mutating, hiv.mutating]
    exact ⟨fun ⟨k', p, h, hp⟩ => ⟨k', p, hkp k' p h hp, hp⟩,
      fun ⟨k', p, h, hp⟩ => ⟨k', p, hod k' p h hp, hp⟩⟩
  · intro k1 k2 p1 p2 h1 h2 hp1 hp2
    exact hiv.unique k1 k2 p1 p2 (hod k1 p1 h1 hp1) (hod k2 p2 h2 hp2) hp1 hp2
  · exact fun h => hs.stable.2 (hiv.stable (hs.mutating.symm.trans h))
  · exact fun k' p h hp => hs.bodyInv.2 (hiv.body k' p (hod k' p h hp) hp)
  · intro k' p h hp
    rw [hs.previous]
    rw [htr] at h
    rcases update_cases h with ⟨-, ho⟩ | ⟨-, h⟩
    · exact hi p ho hp
    · exact hiv.inits k' p h hp
  · exact hs.given ▸ hiv.backing
  · intro t ht
    rcases hs.resets t ht with ht | ht
    · exact hiv.resets t ht
    · exact ht

def Alone (s : State) (k : ℕ) : Prop :=
  ∀ k' p, k' ≠ k → s.threads k' = some p → p.guarded = false

section
variable (hiv : Inv g s)
include hiv

theorem Inv.alone (hk : s.threads k = some pc) (hg : pc.guarded) : Alone s k := by
  intro k' p hn h
  cases hp : p.guarded with
  | false => rfl
  | true => exact absurd (hiv.unique k' k p pc h hk hp hg) hn

theorem Inv.alone_of_free (hf : s.mutating = false) (k) : Alone s k := by
  intro k' p _ h
  cases hp : p.guarded with
  | false => rfl
  | true => exact absurd (hf.symm.trans (hiv.mutating.2 ⟨k', p, h, hp⟩)) false_ne_true

theorem Inv.inside (ha : Alone s k) (htr : s'.threads = update s.threads k o)
    (hm : s'.mutating = (o.map Pc.guarded).getD false) (hs : s'.mutating = false → Stable g s')
    (hb : ∀ p, o = some p → p.guarded → BodyInv g s' p)
    (hi : ∀ p, o = some p → p.inits → s'.previous = startTable g)
    (hpv : s'.previous = s.previous ∨ s'.previous = startTable g)
    (hgv : ∀ t ∈ s'.given, t ∈ s.given ∨ t ≠ .heapprofd ∧ t ≠ .ephemeral)
    (hr : ∀ t ∈ s'.resets, t ∈ s.resets ∨ t = startTable g) : Inv g s' := by
  have hat : ∀ k' p, s'.threads k' = some p → p.guarded → k' = k ∧ o = some p := by
    intro k' p h hp
    rw [htr] at h
    rcases update_cases h with h | ⟨hn, h⟩
    · exact h
    · exact absurd ((ha k' p hn h).symm.trans hp) false_ne_true
  constructor
  · rw [hm]
    constructor
    · intro h
      cases o with
      | none => cases h
      | some p =>
        refine ⟨k, p, ?_, h⟩
        rw [htr, update_self]
    · rintro ⟨k', p, h, hp⟩
      rw [(hat k' p h hp).2]
      exact hp
  · intro k1 k2 p1 p2 h1 h2 hp1 hp2
    exact (hat k1 p1 h1 hp1).1.trans (hat k2 p2 h2 hp2).1.symm
  · exact hs
  · exact fun k' p h hp => hb p (hat k' p h hp).2 hp
  · intro k' p h hp
    rw [htr] at h
    rcases update_cases h with ⟨-, ho⟩ | ⟨-, h⟩
    · exact hi p ho hp
    rcases hpv with hpv | hpv
    · exact hpv.trans (hiv.inits k' p h hp)
    · exact hpv
  · intro t ht
    exact (hgv t ht).elim (hiv.backing t) id
  · intro t ht
    exact (hr t ht).elim (hiv.resets t) id

section
variable (hk : s.threads k = some pc) (hg : pc.guarded)
include hk hg

theorem Inv.next (t) (ht : t.threads = s.threads) (hm : t.mutating = s.mutating) (hg' : pc'.guarded)
    (hi : pc'.inits = false) (hb : BodyInv g t pc')
    (hp : t.previous = s.previous ∨ t.previous = startTable g)
    (hgv : ∀ x ∈ t.given, x ∈ s.given ∨ x ≠ .heapprofd ∧ x ≠ .ephemeral)
    (hrs : ∀ x ∈ t.resets, x ∈ s.resets ∨ x = startTable g) : Inv g (goto t k pc') := by
  have hr : t.mutating := hm.trans (hiv.mutating.2 ⟨k, pc, hk, hg⟩)
  have hu : (goto t k pc').threads = update s.threads k (some pc') := by
    rw [goto, ht]
  refine hiv.inside (hiv.alone hk hg) hu ?_ ?_ ?_ ?_ hp hgv hrs
  · exact hr.trans hg'.symm
  · exact fun h => absurd (h.symm.trans hr) false_ne_true
  · rintro p ⟨⟩ -
    have hs : SameGlobals g t (goto t k pc') := ⟨rfl, rfl, rfl, rfl, rfl, fun _ h => .inl h⟩
    exact hs.bodyInv.2 hb
  · rintro p ⟨⟩ h
    exact absurd (hi.symm.trans h) false_ne_true

theorem Inv.store
    (state default) (hg' : pc'.guarded) (hi : pc'.inits = false)
    (hb : BodyInv g { s with state := state, default := default } pc') :
    Inv g (goto { s with state := state, default := default } k pc') :=
  hiv.next hk hg _ rfl rfl hg' hi hb (.inl rfl) (fun _ h => .inl h) fun _ h => .inl h

theorem Inv.leave (hs : Stable g s)
    (ho : ∀ p, o = some p → p.guarded = false ∧ p.inits = false) :
    Inv g { s with mutating := false, threads := update s.threads k o } := by
  refine hiv.inside (hiv.alone hk hg) rfl ?_ (fun _ => hs) ?_ ?_ (.inl rfl)
    (fun _ h => .inl h) fun _ h => .inl h
  · cases o with
    | none => rfl
    | some p => exact (ho p rfl).1.symm
  · intro p h hp
    exact absurd ((ho p h).1.symm.trans hp) false_ne_true
  · intro p h hp
    exact absurd ((ho p h).2.symm.trans hp) false_ne_true

end

theorem Inv.enter {failed} (hg' : pc'.guarded)
    (hb : BodyInv g { s with mutating := true } pc' ↔ Stable g s)
    (hi : pc'.inits → s.previous = startTable g) (hf : Inv g failed) :
    Inv g (enter s k pc' failed) := by
  rw [MallocHeapprofd.enter]
  split
  · exact hf
  rename_i hfe
  have hfe : s.mutating = false := Bool.eq_false_iff.2 hfe
  have hs : SameGlobals g { s with mutating := true }
      (goto { s with mutating := true } k pc') := ⟨rfl, rfl, rfl, rfl, rfl, fun _ h => .inl h⟩
  refine hiv.inside (hiv.alone_of_free hfe k) rfl hg'.symm nofun ?_ ?_
    (.inl rfl) (fun _ h => .inl h) fun _ h => .inl h
  · rintro p ⟨⟩ -
    exact hs.bodyInv.2 (hb.2 (hiv.stable hfe))
  · rintro p ⟨⟩ h
    exact hi h

theorem Inv.pass (hk : ∀ p, s.threads k = some p → p.guarded = false)
    (lock) (o : Option Pc) (ho : ∀ p, o = some p → p.guarded = false)
    (hi : ∀ p, o = some p → p.inits → s.previous = startTable g) :
    Inv g { s with lock := lock, threads := update s.threads k o } :=
  hiv.outside ⟨rfl, rfl, rfl, rfl, rfl, fun _ h => .inl h⟩ rfl hk ho hi

theorem Inv.compareExchange {expected new failed}
    (hk : s.threads k = some pc) (hg : pc.guarded) (hst : BodyInv g s pc ↔ Stable g s)
    (hg' : pc'.guarded) (hi : pc'.inits = false)
    (hb : s.state = expected → Stable g s → BodyInv g { s with state := new } pc')
    (hf : failed.guarded) (hif : failed.inits = false)
    (hl : BodyInv g s failed ↔ Stable g s) :
    Inv g (compareExchange s k expected new pc' failed) := by
  have hs := hst.1 (hiv.body k _ hk hg)
  rw [MallocHeapprofd.compareExchange]
  split
  · rename_i hsa
    exact hiv.store hk hg new s.default hg' hi (hb hsa hs)
  · exact hiv.store hk hg s.state s.default hf hif (hl.2 hs)

theorem Inv.signalFromInitial (hk : s.threads k = some .signalFromInitial) :
    Inv g (advance s k a .signalFromInitial) := by
  have hs : Stable g s := hiv.body k _ hk rfl
  rw [advance]
  split
  · rename_i hst
    rw [Stable, hst] at hs
    exact hiv.store hk rfl .installingEphemeralHook s.default rfl rfl ⟨rfl, hs⟩
  · split
    all_goals exact hiv.store hk rfl s.state s.default rfl rfl hs

theorem Inv.signalStorePrevious {d} (hk : s.threads k = some (.signalStorePrevious d)) :
    Inv g (advance s k a (.signalStorePrevious d)) := by
  obtain ⟨hs, hd⟩ := hiv.body k _ hk rfl
  rw [advance]
  split
  · exact hiv.next hk rfl _ rfl rfl rfl rfl ⟨hs, hd⟩ (.inr hd) (fun _ h => .inl h)
      fun _ h => .inl h
  rename_i hne
  have hn : none = startTable g := by
    cases g with
    | false => rfl
    | true => exact absurd hd hne
  exact hiv.next hk rfl _ rfl rfl rfl rfl ⟨hs, hn⟩ (.inr hn) (fun _ h => .inl h)
    fun _ h => .inl h

theorem Inv.hookCreate (hk : s.threads k = some .hookCreate)
    (hc : ∀ t, a.created = some t → t ≠ k ∧ s.threads t = none) :
    Inv g (advance s k a .hookCreate) := by
  obtain ⟨hst, hp, hd⟩ := hiv.body k _ hk rfl
  have hs : Stable g s := by
    rw [Stable, hst]
    exact hd
  rw [advance]
  split
  · exact hiv.store hk rfl s.state s.default rfl rfl hs
  rename_i t ht
  obtain ⟨hn, hf⟩ := hc t ht
  have hsa : Inv g (goto s t .initLock) := by
    refine hiv.pass (fun p h => ?_) s.lock (some .initLock) ?_ ?_
    · cases hf.symm.trans h
    · rintro p ⟨⟩
      rfl
    · exact fun _ _ _ => hp
  have hk' : (goto s t .initLock).threads k = some .hookCreate :=
    (update_of_ne hn.symm _ _).trans hk
  exact hsa.store hk' rfl s.state s.default rfl rfl hs

end

theorem startTable_getD (g) :
    (startTable g).getD .native ≠ .heapprofd ∧ (startTable g).getD .native ≠ .ephemeral := by
  cases g <;> decide

section
variable (hiv : Inv g s)
include hiv

theorem Inv.initInitialize (hk : s.threads k = some .initInitialize) :
    Inv g (advance s k a .initInitialize) := by
  obtain ⟨hs, hp, hd⟩ := hiv.body k _ hk rfl
  have hgv : ∀ x ∈ s.default.getD .native :: s.given,
      x ∈ s.given ∨ x ≠ .heapprofd ∧ x ≠ .ephemeral := by
    intro x hx
    rcases List.mem_cons.1 hx with rfl | hx
    · rw [hd]
      exact .inr (startTable_getD g)
    · exact .inl hx
  rw [advance]
  split
  · exact hiv.next hk rfl _ rfl rfl rfl rfl ⟨hs, hp, hd⟩ (.inl rfl) hgv fun _ h => .inl h
  · exact hiv.next hk rfl _ rfl rfl rfl rfl ⟨hs, hp, .inl hd⟩ (.inl rfl) hgv fun _ h => .inl h

theorem Inv.default_of_initial (hst : s.state = .initialState) : s.default = startTable g := by
  cases hm : s.mutating with
  | false =>
    have hs := hiv.stable hm
    rwa [Stable, hst] at hs
  | true =>
    obtain ⟨k, pc, hk, hg⟩ := hiv.mutating.1 hm
    have hb := hiv.body k pc hk hg
    cases pc <;> simp_all [BodyInv, Stable, Pc.guarded]

section
variable (hk : s.threads k = some pc) (hg : pc.guarded = false)
include hk hg

theorem Inv.passTo (lock) (hg' : pc'.guarded = false)
    (hi : pc'.inits → s.previous = startTable g) :
    Inv g (goto { s with lock := lock } k pc') := by
  refine hiv.pass (fun p h => ?_) lock (some pc') ?_ ?_
  · cases hk.symm.trans h
    exact hg
  · rintro p ⟨⟩
    exact hg'
  · rintro p ⟨⟩
    exact hi

theorem Inv.passOut (lock) : Inv g (exit { s with lock := lock } k) := by
  refine hiv.pass (fun p h => ?_) lock none nofun nofun
  cases hk.symm.trans h
  exact hg

end

theorem Inv.resetCheck (hk : s.threads k = some .resetCheck) :
    Inv g (advance s k a .resetCheck) := by
  have ho : ∀ p, s.threads k = some p → p.guarded = false := by
    intro p h
    cases hk.symm.trans h
    rfl
  rw [advance]
  split
  · rename_i hs
    refine hiv.outside ⟨rfl, rfl, rfl, rfl, rfl, fun t ht => ?_⟩ rfl ho nofun nofun
    rcases List.mem_cons.1 ht with rfl | ht
    · exact .inr (hiv.default_of_initial hs)
    · exact .inl ht
  · exact hiv.passTo hk rfl s.lock rfl nofun

theorem Inv.resetFinish (hk : s.threads k = some .resetFinish) :
    Inv g (advance s k a .resetFinish) := by
  obtain ⟨-, hd⟩ := hiv.body k _ hk rfl
  refine hiv.next hk rfl _ rfl rfl rfl rfl hd (.inl rfl) (fun _ h => .inl h) fun t ht => ?_
  rcases List.mem_cons.1 ht with rfl | ht
  · exact .inr hd
  · exact .inl ht

theorem Inv.advance (hk : s.threads k = some pc)
    (hc : ∀ t, a.created = some t → t ≠ k ∧ s.threads t = none) : Inv g (advance s k a pc) := by
  cases pc with
  | signalCheck =>
    rw [MallocHeapprofd.advance]
    split
    · exact hiv.passOut hk rfl s.lock
    · exact hiv.passTo hk rfl s.lock rfl nofun
  | signalEnter =>
    exact hiv.enter rfl Iff.rfl nofun (hiv.passOut hk rfl s.lock)
  | signalFromInitial => exact hiv.signalFromInitial hk
  | signalFromInstalled | resetBegin =>
    refine hiv.compareExchange hk rfl Iff.rfl rfl rfl (fun hst hs => ?_) rfl rfl Iff.rfl
    rw [Stable, hst] at hs
    exact ⟨rfl, hs.1⟩
  | signalLoadDefault | resetLoadPrevious =>
    obtain ⟨hst, hl⟩ := hiv.body k _ hk rfl
    exact hiv.store hk rfl s.state s.default rfl rfl ⟨hst, hl⟩
  | signalStorePrevious d => exact hiv.signalStorePrevious hk
  | signalLoadPrevious =>
    exact hiv.next hk rfl _ rfl rfl rfl rfl (hiv.body k _ hk rfl) (.inl rfl)
      (fun _ h => .inl h) fun _ h => .inl h
  | signalInstall =>
    exact hiv.store hk rfl s.state (some .ephemeral) rfl rfl (hiv.body k _ hk rfl)
  | signalFinish =>
    exact hiv.store hk rfl .ephemeralHookInstalled s.default rfl rfl (hiv.body k _ hk rfl).2
  | signalLeave => exact hiv.leave hk rfl (hiv.body k _ hk rfl) nofun
  | hookLock | resetLock => exact hiv.passTo hk rfl (some k) rfl nofun
  | hookEnter | resetEnter =>
    exact hiv.enter rfl Iff.rfl nofun (hiv.passTo hk rfl s.lock rfl nofun)
  | hookBegin =>
    refine hiv.compareExchange hk rfl Iff.rfl rfl rfl (fun hst hs => ?_) rfl rfl Iff.rfl
    rw [Stable, hst] at hs
    exact ⟨rfl, hs⟩
  | hookLoadPrevious =>
    obtain ⟨hst, hp⟩ := hiv.body k _ hk rfl
    exact hiv.store hk rfl s.state s.default rfl rfl ⟨hst, hp, hp⟩
  | hookStoreDefault p | resetStoreDefault p =>
    exact hiv.store hk rfl s.state p rfl rfl (hiv.body k _ hk rfl)
  | hookFinish =>
    exact hiv.store hk rfl .initialState s.default rfl rfl ⟨rfl, (hiv.body k _ hk rfl).2⟩
  | hookCreate => exact hiv.hookCreate hk hc
  | hookLeave | initLeave | resetLeave =>
    refine hiv.leave hk rfl (hiv.body k _ hk rfl) ?_
    rintro p ⟨⟩
    exact ⟨rfl, rfl⟩
  | hookUnlock | initUnlock | resetUnlock => exact hiv.passOut hk rfl none
  | initLock => exact hiv.passTo hk rfl (some k) rfl fun _ => hiv.inits k _ hk rfl
  | initEnter =>
    exact hiv.enter rfl Iff.rfl (fun _ => hiv.inits k _ hk rfl)
      (hiv.passTo hk rfl s.lock rfl nofun)
  | initBegin =>
    refine hiv.compareExchange hk rfl Iff.rfl rfl rfl (fun hst hs => ?_) rfl rfl Iff.rfl
    rw [Stable, hst] at hs
    exact ⟨rfl, hiv.inits k _ hk rfl, hs⟩
  | initLoad =>
    obtain ⟨hst, hp, hd⟩ := hiv.body k _ hk rfl
    rw [MallocHeapprofd.advance]
    split
    · exact hiv.next hk rfl _ rfl rfl rfl rfl ⟨hst, hp, hd⟩ (.inl rfl)
        (fun _ h => .inl h) fun _ h => .inl h
    · exact hiv.store hk rfl s.state s.default rfl rfl ⟨hst, hp, .inl hd⟩
  | initInitialize => exact hiv.initInitialize hk
  | initStoreDefault =>
    obtain ⟨hst, hp, -⟩ := hiv.body k _ hk rfl
    exact hiv.store hk rfl s.state (some .heapprofd) rfl rfl ⟨hst, hp, .inr rfl⟩
  | initFinish =>
    exact hiv.store hk rfl .hookInstalled s.default rfl rfl (hiv.body k _ hk rfl).2
  | resetCheck => exact hiv.resetCheck hk
  | resetFinish => exact hiv.resetFinish hk

theorem Inv.start (hf : s.threads k = none) (hg : pc.guarded = false)
    (hi : pc.inits = false) : Inv g (goto s k pc) := by
  refine hiv.pass (fun p h => ?_) s.lock (some pc) ?_ ?_
  · cases hf.symm.trans h
  · rintro p ⟨⟩
    exact hg
  · rintro p ⟨⟩ h
    exact absurd (hi.symm.trans h) false_ne_true

theorem Inv.step (hen : Enabled s e) : Inv g (step s e) := by
  cases e with
  | signal k | malloc k | reset k => exact hiv.start hen rfl rfl
  | advance k a =>
    obtain ⟨pc, hk, -, hc⟩ := hen
    rw [MallocHeapprofd.step, hk]
    exact hiv.advance hk hc

end

theorem Inv.of_reachable (h : Reachable g s) : Inv g s := by
  induction h with
  | initial => exact Inv.initial g
  | step _ _ hen ih => exact ih.step hen

theorem waits_of_guarded (h : pc.guarded) : pc.waits = false := by
  cases pc <;> first | rfl | cases h

theorem Inv.sound (hiv : Inv g s) : Sound g s where
  restored := fun hst _ => hiv.default_of_initial hst
  backing := hiv.backing
  resets := hiv.resets
  unstuck := by
    intro ht
    cases hm : s.mutating with
    | true =>
      obtain ⟨k, pc, hk, hg⟩ := hiv.mutating.1 hm
      exact ⟨k, pc, hk, hg, waits_of_guarded hg⟩
    | false =>
      have hs := hiv.stable hm
      rw [Stable] at hs
      revert ht hs
      cases s.state <;> simp [HeapprofdState.transient]

/-- However signals, mallocs, init threads and resets interleave, and whatever fails. -/
theorem heapprofd_sound (gwpAsan : Bool) (s : State) (h : Reachable gwpAsan s) : Sound gwpAsan s :=
  (Inv.of_reachable h).sound

theorem Reachable.advance (h : Reachable g s) (pc) (hk : s.threads 0 = some pc)
    (hw : pc.waits = false) :
    Reachable g (MallocHeapprofd.step s (.advance 0 ⟨true, true, none⟩)) := by
  refine h.step (.advance 0 ⟨true, true, none⟩) ⟨pc, hk, fun hwi => ?_, nofun⟩
  exact absurd (hw.symm.trans hwi) false_ne_true

/-- A signal that finds GWP-ASan installs the ephemeral hook. -/
theorem heapprofd_sound_signal : ∃ s, s.state = .ephemeralHookInstalled ∧
    s.default = some .ephemeral ∧ s.ephemeralBase = some .gwpAsan ∧ Sound true s := by
  have hs : Reachable true (step (initial true) (.signal 0)) := Reachable.initial.step _ rfl
  have hc := hs.advance .signalCheck rfl rfl
  have het := hc.advance .signalEnter rfl rfl
  have hb := het.advance .signalFromInitial rfl rfl
  have hl := hb.advance .signalLoadDefault rfl rfl
  have hso := hl.advance (.signalStorePrevious (some .gwpAsan)) rfl rfl
  have hin := hso.advance .signalInstall rfl rfl
  have hf := hin.advance .signalFinish rfl rfl
  exact ⟨_, rfl, rfl, rfl, heapprofd_sound true _ hf⟩

end MallocHeapprofd
