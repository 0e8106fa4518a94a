import Bionic.WordAlign

/-! `__cxa_atexit` and `__cxa_finalize`. Exit handlers are kept in one array in the order of their
registration. Finalization walks it backwards and gives the lock away around every handler, which
may register and finalize, as may other threads. A step is a stretch for which the lock is held. -/
namespace Atexit

open WordAlign
open List Nat Function

structure AtexitEntry where
  fn : ℕ
  arg : ℕ
  dso : ℕ
  serial : ℕ
  deriving DecidableEq

def AtexitEntry.null : AtexitEntry := ⟨0, 0, 0, 0⟩

/-- Page size, size of an entry, number of values of a `size_t`. -/
structure Machine where
  pageSize : ℕ
  entrySize : ℕ
  sizeCount : ℕ

def Machine.pageEnd (m : Machine) (n : ℕ) : ℕ :=
  alignDown m.pageSize ((n + (m.pageSize - 1)) % m.sizeCount)

def Machine.pageEndOfIndex (m : Machine) (idx : ℕ) : ℕ :=
  m.pageEnd (idx * m.entrySize % m.sizeCount)

/-- `totalAppends` has 64 bits in the source; here it counts on. -/
structure AtexitArray where
  array : ℕ → AtexitEntry
  size : ℕ
  extractedCount : ℕ
  capacity : ℕ
  totalAppends : ℕ

def nextCapacity (m : Machine) (capacity : ℕ) : Option ℕ :=
  if capacity = 0 then some (m.pageEnd m.entrySize / m.entrySize)
  else
    let numBytes := m.pageEndOfIndex capacity * 2
    if m.sizeCount ≤ numBytes then none else some (numBytes / m.entrySize)

namespace AtexitArray

/-- `mapped`: whether `mmap` or `mremap` succeeds. -/
def expandCapacity (m : Machine) (a : AtexitArray) (mapped : Bool) : Option AtexitArray :=
  match nextCapacity m a.capacity with
  | none => none
  | some capacity => if mapped then some { a with capacity } else none

def appendEntry (m : Machine) (a : AtexitArray) (entry : AtexitEntry) (mapped : Bool) :
    Option AtexitArray :=
  (if a.capacity ≤ a.size then a.expandCapacity m mapped else some a).map fun a =>
    { a with
      array := update a.array a.size entry
      size := a.size + 1
      totalAppends := a.totalAppends + 1 }

def extractEntry (a : AtexitArray) (idx : ℕ) : AtexitArray :=
  { a with
    array := update a.array idx .null
    extractedCount := a.extractedCount + 1 }

def needsRecompaction (m : Machine) (a : AtexitArray) : Bool :=
  m.pageEndOfIndex (a.size - a.extractedCount) < m.pageEndOfIndex a.size

def skipNonNull (array : ℕ → AtexitEntry) (src : ℕ) : ℕ → ℕ
  | 0 => src
  | n + 1 => if (array src).fn ≠ 0 then skipNonNull array (src + 1) n else src

/-- The loop that shifts `n` entries forward; the array and `dst`. -/
def shift (array : ℕ → AtexitEntry) (src dst : ℕ) : ℕ → (ℕ → AtexitEntry) × ℕ
  | 0 => (array, dst)
  | n + 1 =>
    let entry := array src
    let array := update array src .null
    if entry.fn ≠ 0 then shift (update array dst entry) (src + 1) (dst + 1) n
    else shift array (src + 1) dst n

def recompact (m : Machine) (a : AtexitArray) : AtexitArray :=
  if !a.needsRecompaction m then a
  else
    let start := skipNonNull a.array 0 a.size
    let (array, dst) := shift a.array start start (a.size - start)
    { a with array, size := dst, extractedCount := 0 }

/-- The loop of `__cxa_finalize` up to the entry that it extracts. -/
def scan (a : AtexitArray) (dso : ℕ) : ℕ → Option ℕ
  | 0 => none
  | i + 1 =>
    if (a.array i).fn = 0 ∨ (dso ≠ 0 ∧ (a.array i).dso ≠ dso) then a.scan dso i else some i

end AtexitArray

abbrev ThreadId := ℕ

/-- A `__cxa_finalize` that waits for a handler: its argument, its index and the appends it has
seen. -/
structure Frame where
  dso : ℕ
  index : ℕ
  totalAppends : ℕ
  deriving DecidableEq

/-- `callDepth` has 32 bits. A thread that has called `__cxa_finalize` is in the handler that the
first of its frames waits for. -/
structure State where
  array : AtexitArray
  callDepth : ℕ
  threads : ThreadId → List Frame

def State.initial : State := ⟨⟨fun _ => .null, 0, 0, 0, 0⟩, 0, fun _ => []⟩

inductive Event where
  | registered (entry : AtexitEntry)
  | refused
  | called (t : ThreadId) (dso : ℕ) (entry : AtexitEntry)
  | returned (t : ThreadId) (dso : ℕ)
  deriving DecidableEq

inductive Action where
  | atexit (fn arg dso : ℕ) (mapped : Bool)
  | finalize (t : ThreadId) (dso : ℕ)
  | handlerReturns (t : ThreadId)
  deriving DecidableEq

def increment (callDepth : ℕ) : ℕ := (callDepth + 1) % 2 ^ 32

def decrement (callDepth : ℕ) : ℕ := (callDepth + (2 ^ 32 - 1)) % 2 ^ 32

namespace State

def cxaAtexit (m : Machine) (s : State) (fn arg dso : ℕ) (mapped : Bool) : State × Event :=
  if fn = 0 then (s, .refused)
  else
    let entry := ⟨fn, arg, dso, s.array.totalAppends⟩
    match s.array.appendEntry m entry mapped with
    | none => (s, .refused)
    | some array => ({ s with array }, .registered entry)

/-- The handler of an extracted entry starts. -/
def callHandler (s : State) (t : ThreadId) (frames : List Frame) (dso i : ℕ) : State :=
  { s with
    array := s.array.extractEntry i
    threads := update s.threads t (⟨dso, i, s.array.totalAppends⟩ :: frames) }

def leave (m : Machine) (s : State) (t : ThreadId) (frames : List Frame) (dso callDepth : ℕ) :
    State where
  array := if callDepth = 0 ∧ dso ≠ 0 then s.array.recompact m else s.array
  callDepth := callDepth
  threads := update s.threads t frames

def finalizeFrom (m : Machine) (s : State) (t : ThreadId) (frames : List Frame) (dso index : ℕ) :
    State × Event :=
  match s.array.scan dso index with
  | some i => (s.callHandler t frames dso i, .called t dso (s.array.array i))
  | none => (s.leave m t frames dso (decrement s.callDepth), .returned t dso)

def step (m : Machine) (s : State) : Action → Option (State × Event)
  | .atexit fn arg dso mapped => some (s.cxaAtexit m fn arg dso mapped)
  | .finalize t dso =>
    let s := { s with callDepth := increment s.callDepth }
    some (s.finalizeFrom m t (s.threads t) dso s.array.size)
  | .handlerReturns t =>
    match s.threads t with
    | [] => none
    | frame :: frames =>
      if s.array.totalAppends ≠ frame.totalAppends then
        some (s.finalizeFrom m t frames frame.dso s.array.size)
      else some (s.finalizeFrom m t frames frame.dso frame.index)

def run (m : Machine) (s : State) : List Action → Option (State × List Event)
  | [] => some (s, [])
  | action :: actions => do
    let (s, event) ← s.step m action
    let (s, events) ← s.run m actions
    some (s, event :: events)

end State

def AtexitEntry.Matches (dso : ℕ) (e : AtexitEntry) : Prop := dso = 0 ∨ e.dso = dso

/-- The handlers that wait to be called, in the order of registration, and the number of
registrations so far. -/
structure Registry where
  entries : List AtexitEntry
  appends : ℕ

/-- The last registered handler that matches is called; a finalization returns when none match. -/
inductive Registry.Step : Registry → Event → Registry → Prop where
  | registered {r : Registry} {e : AtexitEntry} : e.serial = r.appends →
      Step r (.registered e) ⟨r.entries ++ [e], r.appends + 1⟩
  | refused {r : Registry} : Step r .refused r
  | called {before behind : List AtexitEntry} {e : AtexitEntry} {n dso : ℕ} {t : ThreadId} :
      e.Matches dso → (∀ e' ∈ behind, ¬e'.Matches dso) →
      Step ⟨before ++ e :: behind, n⟩ (.called t dso e) ⟨before ++ behind, n⟩
  | returned {r : Registry} {dso : ℕ} {t : ThreadId} : (∀ e ∈ r.entries, ¬e.Matches dso) →
      Step r (.returned t dso) r

inductive Registry.Run : List Event → Registry → Prop where
  | start : Run [] ⟨[], 0⟩
  | step {events : List Event} {r r' : Registry} {event : Event} : Run events r →
      Registry.Step r event r' → Run (events ++ [event]) r'

def Event.call : Event → Option AtexitEntry
  | .called _ _ e => some e
  | _ => none

def Event.registration : Event → Option AtexitEntry
  | .registered e => some e
  | _ => none

def calls (events : List Event) : List AtexitEntry := events.filterMap Event.call

def registrations (events : List Event) : List AtexitEntry := events.filterMap Event.registration

theorem calls_append (events event) :
    calls (events ++ [event]) = calls events ++ event.call.toList := by
  cases event <;> simp [calls, Event.call]

theorem registrations_append (events event) :
    registrations (events ++ [event]) = registrations events ++ event.registration.toList := by
  cases event <;> simp [registrations, Event.registration]

structure Registry.Orderly (events : List Event) (r : Registry) : Prop where
  sorted : r.entries.Pairwise fun e e' => e.serial < e'.serial
  once : (calls events).Nodup
  numbered : ∀ e ∈ registrations events, e.serial < r.appends
  called : ∀ e ∈ calls events, e ∈ registrations events
  waiting : ∀ e, e ∈ r.entries ↔ e ∈ registrations events ∧ e ∉ calls events

variable {a a' : AtexitArray} {e : AtexitEntry} {events : List Event} {r : Registry} {dso i n : ℕ}
  {array orig : ℕ → AtexitEntry} {start : ℕ} {src dst : ℕ}

theorem Registry.Orderly.congr {events'}
    (h : Registry.Orderly events r) (hc : calls events' = calls events)
    (hr : registrations events' = registrations events) : Registry.Orderly events' r := by
  refine ⟨h.sorted, ?_, ?_, ?_, ?_⟩
  · rw [hc]
    exact h.once
  · rw [hr]
    exact h.numbered
  · rw [hc, hr]
    exact h.called
  · rw [hc, hr]
    exact h.waiting

theorem Registry.Orderly.register (h : Registry.Orderly events r) (hs : e.serial = r.appends) :
    Registry.Orderly (events ++ [.registered e]) ⟨r.entries ++ [e], r.appends + 1⟩ := by
  have hcs : calls (events ++ [.registered e]) = calls events := by
    rw [calls_append]
    exact append_nil _
  have hn : e ∉ registrations events := by
    intro ho
    exact absurd (h.numbered e ho) (by omega)
  refine ⟨?_, ?_, ?_, ?_, ?_⟩
  · rw [pairwise_append]
    refine ⟨h.sorted, pairwise_singleton _ _, ?_⟩
    intro e' he' e'' he''
    cases mem_singleton.mp he''
    rw [hs]
    exact h.numbered e' ((h.waiting e').mp he').1
  · rw [hcs]
    exact h.once
  · intro e' he'
    rw [registrations_append, mem_append] at he'
    rcases he' with he' | he'
    · exact lt_succ_of_lt (h.numbered e' he')
    · cases mem_singleton.mp he'
      exact lt_succ_of_le (le_of_eq hs)
  · intro e' he'
    rw [hcs] at he'
    rw [registrations_append]
    exact mem_append_left _ (h.called e' he')
  intro e'
  rw [hcs, registrations_append, mem_append, mem_append, h.waiting e']
  constructor
  · rintro (⟨ho, hc⟩ | hl)
    · exact ⟨.inl ho, hc⟩
    · cases mem_singleton.mp hl
      exact ⟨.inr mem_cons_self, fun hc => hn (h.called e hc)⟩
  · rintro ⟨ho | hl, hc⟩
    · exact .inl ⟨ho, hc⟩
    · exact .inr hl

theorem Registry.Orderly.call {before behind t}
    (h : Registry.Orderly events ⟨before ++ e :: behind, n⟩) :
    Registry.Orderly (events ++ [.called t dso e]) ⟨before ++ behind, n⟩ := by
  have hc : calls (events ++ [.called t dso e]) = calls events ++ [e] := calls_append _ _
  have hr : registrations (events ++ [.called t dso e]) = registrations events := by
    rw [registrations_append]
    exact append_nil _
  have hs : (e :: (before ++ behind)).Nodup := by
    rw [← List.perm_middle.nodup_iff]
    exact h.sorted.imp fun hl heq => absurd (congrArg AtexitEntry.serial heq) (Nat.ne_of_lt hl)
  obtain ⟨hin, ho⟩ := (h.waiting e).mp (by simp)
  refine ⟨?_, ?_, ?_, ?_, ?_⟩
  · refine h.sorted.sublist ?_
    exact List.Sublist.append_left (sublist_cons_self e behind) before
  · rw [hc, nodup_append]
    refine ⟨h.once, nodup_singleton e, ?_⟩
    rintro e' he' _ hla rfl
    cases mem_singleton.mp hla
    exact ho he'
  · rw [hr]
    exact h.numbered
  · intro e' he'
    rw [hc, mem_append, mem_singleton] at he'
    rw [hr]
    rcases he' with he' | rfl
    · exact h.called e' he'
    · exact hin
  intro e'
  have hm : e' ∈ before ++ e :: behind ↔ e' = e ∨ e' ∈ before ++ behind := by
    rw [List.perm_middle.mem_iff, mem_cons]
  have hcl : e' ∈ calls events ++ [e] ↔ e' ∈ calls events ∨ e' = e := by
    rw [mem_append, mem_singleton]
  rw [hc, hr, hcl, not_or, ← and_assoc, ← h.waiting e', hm]
  constructor
  · intro hrs
    exact ⟨.inr hrs, fun heq => (List.nodup_cons.mp hs).1 (heq ▸ hrs)⟩
  rintro ⟨heq | hrs, hn⟩
  · exact absurd heq hn
  · exact hrs

theorem Registry.Run.orderly (h : Registry.Run events r) : Registry.Orderly events r := by
  induction h with
  | start =>
    refine ⟨List.Pairwise.nil, nodup_nil, ?_, ?_, ?_⟩
    · intro e he
      cases he
    · intro e he
      cases he
    · intro e
      simp [registrations]
  | step _ hs ih =>
    cases hs with
    | registered hsr => exact ih.register hsr
    | called _ _ => exact ih.call
    | refused | returned _ =>
      refine ih.congr ?_ ?_
      · rw [calls_append]
        exact append_nil _
      · rw [registrations_append]
        exact append_nil _

def liveFrom (array : ℕ → AtexitEntry) (start n : ℕ) : List AtexitEntry :=
  ((List.range' start n).map array).filter (·.fn ≠ 0)

def AtexitArray.live (a : AtexitArray) : List AtexitEntry := liveFrom a.array 0 a.size

theorem liveFrom_append (array : ℕ → AtexitEntry) (start n k) :
    liveFrom array start (n + k) = liveFrom array start n ++ liveFrom array (start + n) k := by
  rw [liveFrom, liveFrom, liveFrom, ← filter_append, ← map_append, range'_append_1]

theorem liveFrom_one (array : ℕ → AtexitEntry) (i) :
    liveFrom array i 1 = if (array i).fn ≠ 0 then [array i] else [] := by
  by_cases h : (array i).fn ≠ 0 <;> simp [liveFrom, h]

theorem liveFrom_congr {array'} (h : ∀ k, start ≤ k → k < start + n → array' k = array k) :
    liveFrom array' start n = liveFrom array start n := by
  unfold liveFrom
  congr 1
  apply map_congr_left
  intro k hk
  obtain ⟨hl, hlt⟩ := mem_range'_1.mp hk
  exact h k hl hlt

theorem mem_liveFrom : e ∈ liveFrom array start n ↔
      ∃ k, start ≤ k ∧ k < start + n ∧ array k = e ∧ (array k).fn ≠ 0 := by
  simp only [liveFrom, mem_filter, mem_map, mem_range'_1, decide_eq_true_eq]
  constructor
  · rintro ⟨⟨k, ⟨hl, hlt⟩, rfl⟩, hf⟩
    exact ⟨k, hl, hlt, rfl, hf⟩
  · rintro ⟨k, hl, hlt, rfl, hf⟩
    exact ⟨⟨k, ⟨hl, hlt⟩, rfl⟩, hf⟩

theorem live_split (h : i < a.size) : a.live = liveFrom a.array 0 i ++ liveFrom a.array i 1 ++
      liveFrom a.array (i + 1) (a.size - (i + 1)) := by
  have hs : a.size = i + 1 + (a.size - (i + 1)) := by omega
  rw [AtexitArray.live, hs, liveFrom_append, liveFrom_append, zero_add, zero_add, ← hs]

theorem live_append {m mapped} (h : a.appendEntry m e mapped = some a') (hf : e.fn ≠ 0) :
    a'.live = a.live ++ [e] ∧ a'.totalAppends = a.totalAppends + 1 ∧ a'.size = a.size + 1 ∧
      a'.array = update a.array a.size e := by
  obtain ⟨b, hb, ha'⟩ := Option.map_eq_some_iff.mp h
  have hsm : b.array = a.array ∧ b.size = a.size ∧ b.totalAppends = a.totalAppends := by
    split at hb
    · unfold AtexitArray.expandCapacity at hb
      split at hb
      · cases hb
      split at hb
      · cases hb
        exact ⟨rfl, rfl, rfl⟩
      · cases hb
    · cases hb
      exact ⟨rfl, rfl, rfl⟩
  obtain ⟨ha, hs, ht⟩ := hsm
  subst ha'
  refine ⟨?_, by rw [ht], by rw [hs], by rw [ha, hs]⟩
  dsimp only [AtexitArray.live]
  rw [liveFrom_append, liveFrom_one, zero_add, update_self, if_pos hf, ha, hs]
  congr 1
  apply liveFrom_congr
  intro k _ hk
  exact update_of_ne (by omega) _ _

theorem extractEntry_array (a : AtexitArray) (i) :
    (a.extractEntry i).array = update a.array i .null := rfl

theorem live_extract (h : i < a.size) : (a.extractEntry i).live = liveFrom a.array 0 i ++
      liveFrom a.array (i + 1) (a.size - (i + 1)) := by
  have hn : liveFrom (a.extractEntry i).array i 1 = [] := by
    rw [liveFrom_one, extractEntry_array, update_self]
    rfl
  rw [live_split (a := a.extractEntry i) h, hn, append_nil]
  congr 1
  · apply liveFrom_congr
    intro k _ hk
    exact update_of_ne (by omega) _ _
  · apply liveFrom_congr
    intro k hk _
    exact update_of_ne (by omega) _ _

def AtexitArray.Hit (a : AtexitArray) (dso k : ℕ) : Prop :=
  (a.array k).fn ≠ 0 ∧ (a.array k).Matches dso

theorem not_hit_iff (a : AtexitArray) (dso k) :
    ((a.array k).fn = 0 ∨ (dso ≠ 0 ∧ (a.array k).dso ≠ dso)) ↔ ¬a.Hit dso k := by
  unfold AtexitArray.Hit AtexitEntry.Matches
  tauto

theorem scan_some (h : a.scan dso n = some i) :
    a.Hit dso i ∧ ∀ k, i < k → k < n → ¬a.Hit dso k := by
  induction n with
  | zero => cases h
  | succ n ih =>
    unfold AtexitArray.scan at h
    split at h <;> rename_i hn
    · rw [not_hit_iff] at hn
      obtain ⟨hh, hno⟩ := ih h
      refine ⟨hh, ?_⟩
      intro k hik hk
      rcases lt_or_eq_of_le (le_of_lt_succ hk) with hl | rfl
      · exact hno k hik hl
      · exact hn
    · rw [not_hit_iff, not_not] at hn
      cases h
      exact ⟨hn, fun k hik hk => absurd hik (by omega)⟩

theorem scan_none (h : a.scan dso n = none) : ∀ k < n, ¬a.Hit dso k := by
  induction n with
  | zero => exact fun k hk => absurd hk (not_lt_zero k)
  | succ n ih =>
    unfold AtexitArray.scan at h
    split at h
    · rename_i hn
      rw [not_hit_iff] at hn
      intro k hk
      rcases lt_or_eq_of_le (le_of_lt_succ hk) with hl | rfl
      · exact ih h k hl
      · exact hn
    · cases h

/-- Entries before `src` are before `dst`, in order and no further back than they were. -/
structure Shifted (orig array : ℕ → AtexitEntry) (src dst : ℕ) : Prop where
  le : dst ≤ src
  live : liveFrom array 0 dst = liveFrom orig 0 src
  moved : ∀ k < dst, ∃ k', k ≤ k' ∧ k' < src ∧ array k = orig k'
  cleared : ∀ k, dst ≤ k → k < src → array k = .null
  rest : ∀ k, src ≤ k → array k = orig k

theorem Shifted.step (h : Shifted orig array src dst) : if (array src).fn ≠ 0 then
      Shifted orig (update (update array src .null) dst (array src)) (src + 1) (dst + 1)
    else Shifted orig (update array src .null) (src + 1) dst := by
  have hey : array src = orig src := h.rest src (le_refl src)
  have hl := h.le
  split <;> rename_i hf
  · refine ⟨by omega, ?_, ?_, ?_, ?_⟩
    · rw [liveFrom_append, liveFrom_append, ← h.live, liveFrom_one, liveFrom_one, zero_add,
        zero_add, update_self, ← hey]
      congr 1
      apply liveFrom_congr
      intro k _ hk
      rw [update_of_ne (by omega), update_of_ne (by omega)]
    · intro k hk
      by_cases hkd : k = dst
      · subst hkd
        exact ⟨src, hl, lt_succ_self src, by rw [update_self, hey]⟩
      obtain ⟨k', hkk', hk', heq⟩ := h.moved k (by omega)
      refine ⟨k', hkk', by omega, ?_⟩
      rw [update_of_ne hkd, update_of_ne (by omega), heq]
    · intro k hk hks
      rw [update_of_ne (by omega)]
      by_cases hkq : k = src
      · rw [hkq, update_self]
      · rw [update_of_ne hkq]
        exact h.cleared k (by omega) (by omega)
    · intro k hk
      rw [update_of_ne (by omega), update_of_ne (by omega)]
      exact h.rest k (by omega)
  · refine ⟨by omega, ?_, ?_, ?_, ?_⟩
    · rw [liveFrom_append, ← h.live, liveFrom_one, zero_add, ← hey, if_neg hf, append_nil]
      apply liveFrom_congr
      intro k _ hk
      exact update_of_ne (by omega) _ _
    · intro k hk
      obtain ⟨k', hkk', hk', heq⟩ := h.moved k hk
      refine ⟨k', hkk', by omega, ?_⟩
      rw [update_of_ne (by omega), heq]
    · intro k hk hks
      by_cases hkq : k = src
      · rw [hkq, update_self]
      · rw [update_of_ne hkq]
        exact h.cleared k hk (by omega)
    · intro k hk
      rw [update_of_ne (by omega)]
      exact h.rest k (by omega)

theorem Shifted.loop (h : Shifted orig array src dst) (n) :
    Shifted orig (AtexitArray.shift array src dst n).1 (src + n)
      (AtexitArray.shift array src dst n).2 := by
  induction n generalizing array src dst with
  | zero => exact h
  | succ n ih =>
    have hs := h.step
    unfold AtexitArray.shift
    dsimp only
    rw [show src + (n + 1) = src + 1 + n by omega]
    split <;> rename_i hf
    · rw [if_pos hf] at hs
      exact ih hs
    · rw [if_neg hf] at hs
      exact ih hs

theorem skipNonNull_le (array : ℕ → AtexitEntry) (src n) :
    AtexitArray.skipNonNull array src n ≤ src + n := by
  induction n generalizing src with
  | zero => exact le_refl src
  | succ n ih =>
    unfold AtexitArray.skipNonNull
    split
    · have := ih (src + 1)
      omega
    · omega

def State.registry (s : State) : Registry := ⟨s.array.live, s.array.totalAppends⟩

/-- Behind its index, a waiting call has only appended entries to do. -/
def FrameOk (a : AtexitArray) (frame : Frame) : Prop :=
  frame.totalAppends ≤ a.totalAppends ∧
    (frame.totalAppends = a.totalAppends → ∀ k, frame.index ≤ k → ¬a.Hit frame.dso k)

structure State.Ok (s : State) : Prop where
  null : ∀ k, s.array.size ≤ k → (s.array.array k).fn = 0
  frames : ∀ t, ∀ frame ∈ s.threads t, FrameOk s.array frame

theorem FrameOk.mono {frame} (h : FrameOk a frame) (ht : a'.totalAppends = a.totalAppends)
    (hm : ∀ k, (a'.array k).fn ≠ 0 → ∃ k', k ≤ k' ∧ a'.array k = a.array k') :
    FrameOk a' frame := by
  refine ⟨ht ▸ h.1, ?_⟩
  intro heq k hk hh
  obtain ⟨k', hk', hs⟩ := hm k hh.1
  refine h.2 (heq.trans ht) k' (le_trans hk hk') ?_
  unfold AtexitArray.Hit at hh ⊢
  rw [← hs]
  exact hh

theorem extract_moved (a : AtexitArray) (i k) (h : ((a.extractEntry i).array k).fn ≠ 0) :
    k ≠ i ∧ (a.extractEntry i).array k = a.array k := by
  rw [extractEntry_array] at h ⊢
  by_cases hk : k = i
  · rw [hk, update_self] at h
    exact absurd rfl h
  · exact ⟨hk, update_of_ne hk _ _⟩

variable {s : State}

section
variable (h : s.Ok) {t : ThreadId} {frames : List Frame}
  (hfa : ∀ frame ∈ frames, FrameOk s.array frame)
include h hfa

theorem State.Ok.callHandler (hh : s.array.Hit dso i)
    (hb : ∀ k, i < k → ¬s.array.Hit dso k) : (s.callHandler t frames dso i).Ok ∧
      Registry.Step s.registry (.called t dso (s.array.array i))
        (s.callHandler t frames dso i).registry := by
  have hsz : i < s.array.size := by
    by_contra hg
    exact hh.1 (h.null i (not_lt.mp hg))
  have hm : ∀ k, ((s.array.extractEntry i).array k).fn ≠ 0 →
      ∃ k', k ≤ k' ∧ (s.array.extractEntry i).array k = s.array.array k' := fun k hk =>
    ⟨k, le_refl k, (extract_moved s.array i k hk).2⟩
  refine ⟨⟨?_, ?_⟩, ?_⟩
  · intro k hk
    by_contra hfn
    have hs := (extract_moved s.array i k hfn).2
    exact hfn ((congrArg AtexitEntry.fn hs).trans (h.null k hk))
  · intro t' frame hf
    unfold State.callHandler at hf ⊢
    dsimp only at hf ⊢
    by_cases ht : t' = t
    · rw [ht, update_self] at hf
      rcases List.mem_cons.mp hf with rfl | hf
      · refine ⟨le_rfl, ?_⟩
        intro _ k hk hh'
        obtain ⟨hn, hs⟩ := extract_moved s.array i k hh'.1
        refine hb k (lt_of_le_of_ne hk hn.symm) ?_
        unfold AtexitArray.Hit at hh' ⊢
        rw [← hs]
        exact hh'
      · exact (hfa frame hf).mono rfl hm
    · rw [update_of_ne ht] at hf
      exact (h.frames t' frame hf).mono rfl hm
  · unfold State.registry State.callHandler
    rw [live_extract hsz, live_split hsz, liveFrom_one, if_pos hh.1, append_assoc]
    refine Registry.Step.called hh.2 ?_
    intro e he hmt
    obtain ⟨k, hk, -, rfl, hfn⟩ := mem_liveFrom.mp he
    exact hb k hk ⟨hfn, hmt⟩

theorem State.Ok.leave (m callDepth) (hno : ∀ k, ¬s.array.Hit dso k) :
    (s.leave m t frames dso callDepth).Ok ∧
      Registry.Step s.registry (.returned t dso) (s.leave m t frames dso callDepth).registry := by
  unfold State.leave State.registry
  generalize ha : (if callDepth = 0 ∧ dso ≠ 0 then s.array.recompact m else s.array) = array
  have hsm : array.live = s.array.live ∧ array.totalAppends = s.array.totalAppends ∧
      (∀ k, array.size ≤ k → (array.array k).fn = 0) ∧
      ∀ k, (array.array k).fn ≠ 0 → ∃ k', k ≤ k' ∧ array.array k = s.array.array k' := by
    rw [← ha]
    split
    on_goal 2 => exact ⟨rfl, rfl, h.null, fun k _ => ⟨k, le_refl k, rfl⟩⟩
    unfold AtexitArray.recompact
    split
    · exact ⟨rfl, rfl, h.null, fun k _ => ⟨k, le_refl k, rfl⟩⟩
    have hn := h.null
    generalize s.array = a at hn
    have hs := skipNonNull_le a.array 0 a.size
    generalize AtexitArray.skipNonNull a.array 0 a.size = start at hs ⊢
    have hst : Shifted a.array a.array start start :=
      ⟨le_rfl, rfl, fun k hk => ⟨k, le_refl k, hk, rfl⟩, fun k hk hk' => by omega, fun _ _ => rfl⟩
    have hed := hst.loop (a.size - start)
    rw [show start + (a.size - start) = a.size by omega] at hed
    dsimp only
    generalize AtexitArray.shift a.array start start (a.size - start) = shifted at hed ⊢
    obtain ⟨array, dst⟩ := shifted
    refine ⟨hed.live, rfl, ?_, ?_⟩
    · intro k hk
      by_cases hl : k < a.size
      · rw [hed.cleared k hk hl]
        rfl
      · rw [hed.rest k (by omega)]
        exact hn k (by omega)
    intro k hk
    by_cases hl : k < dst
    · obtain ⟨k', hkk', -, heq⟩ := hed.moved k hl
      exact ⟨k', hkk', heq⟩
    by_cases hsz : k < a.size
    · rw [hed.cleared k (by omega) hsz] at hk
      exact absurd rfl hk
    · exact ⟨k, le_refl k, hed.rest k (by omega)⟩
  obtain ⟨hlv, htt, hn, hm⟩ := hsm
  refine ⟨⟨hn, ?_⟩, ?_⟩
  · intro t' frame hf
    dsimp only at hf ⊢
    by_cases ht : t' = t
    · rw [ht, update_self] at hf
      exact (hfa frame hf).mono htt hm
    · rw [update_of_ne ht] at hf
      exact (h.frames t' frame hf).mono htt hm
  · rw [hlv, htt]
    refine Registry.Step.returned ?_
    intro e he hmt
    obtain ⟨k, -, -, rfl, hfn⟩ := mem_liveFrom.mp he
    exact hno k ⟨hfn, hmt⟩

theorem State.Ok.finalizeFrom (m) (hst : ∀ k, start ≤ k → ¬s.array.Hit dso k) {s' event}
    (hs : s.finalizeFrom m t frames dso start = (s', event)) :
    s'.Ok ∧ Registry.Step s.registry event s'.registry := by
  unfold State.finalizeFrom at hs
  cases hsc : s.array.scan dso start with
  | some i =>
    rw [hsc] at hs
    cases hs
    obtain ⟨hh, hn⟩ := scan_some hsc
    refine h.callHandler hfa hh ?_
    intro k hk
    by_cases hks : k < start
    · exact hn k hk hks
    · exact hst k (not_lt.mp hks)
  | none =>
    rw [hsc] at hs
    obtain ⟨rfl, rfl⟩ := Prod.mk.inj hs
    refine h.leave hfa m _ ?_
    intro k
    by_cases hks : k < start
    · exact scan_none hsc k hks
    · exact hst k (not_lt.mp hks)

end

variable {m : Machine} {s' : State}

theorem State.Ok.cxaAtexit (h : s.Ok) (m fn arg dso mapped) :
    (s.cxaAtexit m fn arg dso mapped).1.Ok ∧
      Registry.Step s.registry (s.cxaAtexit m fn arg dso mapped).2
        (s.cxaAtexit m fn arg dso mapped).1.registry := by
  unfold State.cxaAtexit
  split
  · exact ⟨h, .refused⟩
  rename_i hfn
  dsimp only
  split
  · exact ⟨h, .refused⟩
  rename_i array ha
  obtain ⟨hl, ht, hs, har⟩ := live_append ha hfn
  refine ⟨⟨?_, ?_⟩, ?_⟩
  · intro k hk
    dsimp only at hk ⊢
    rw [har, update_of_ne (by omega)]
    exact h.null k (by omega)
  · intro t frame hf
    have ho := (h.frames t frame hf).1
    refine ⟨by rw [ht]; omega, ?_⟩
    intro heq
    rw [ht] at heq
    omega
  · unfold State.registry
    rw [hl, ht]
    exact Registry.Step.registered rfl

theorem State.Ok.step {action event} (h : s.Ok) (hs : s.step m action = some (s', event)) :
    s'.Ok ∧ Registry.Step s.registry event s'.registry := by
  cases action with
  | atexit fn arg dso mapped =>
    have hsc := h.cxaAtexit m fn arg dso mapped
    rw [Option.some.inj hs] at hsc
    exact hsc
  | finalize t dso =>
    have hsz : ∀ k, s.array.size ≤ k → ¬s.array.Hit dso k := fun k hk hh =>
      hh.1 (h.null k hk)
    have het : ({ s with callDepth := increment s.callDepth } : State).Ok :=
      ⟨h.null, h.frames⟩
    exact het.finalizeFrom (h.frames t) m hsz (Option.some.inj hs)
  | handlerReturns t =>
    unfold State.step at hs
    dsimp only at hs
    split at hs
    · cases hs
    rename_i frame frames ht
    have hfa : ∀ f ∈ frames, FrameOk s.array f := fun f hf =>
      h.frames t f (ht ▸ mem_cons_of_mem _ hf)
    have hfm : FrameOk s.array frame := h.frames t frame (ht ▸ mem_cons_self)
    split at hs
    · have hsz : ∀ k, s.array.size ≤ k → ¬s.array.Hit frame.dso k := fun k hk hh =>
        hh.1 (h.null k hk)
      exact h.finalizeFrom hfa m hsz (Option.some.inj hs)
    · rename_i hsm
      exact h.finalizeFrom hfa m (hfm.2 (not_not.mp hsm).symm) (Option.some.inj hs)

theorem State.Ok.run {actions past}
    (h : s.Ok) (hp : Registry.Run past s.registry) (hr : s.run m actions = some (s', events)) :
    s'.Ok ∧ Registry.Run (past ++ events) s'.registry := by
  induction actions generalizing s past events with
  | nil =>
    cases hr
    rw [append_nil]
    exact ⟨h, hp⟩
  | cons action actions ih =>
    obtain ⟨⟨s1, event⟩, hs, hrs⟩ := Option.bind_eq_some_iff.mp hr
    obtain ⟨⟨s2, later⟩, hl, heq⟩ := Option.bind_eq_some_iff.mp hrs
    cases heq
    obtain ⟨h1, hrg⟩ := h.step hs
    have hed := ih h1 (hp.step hrg) hl
    rw [append_assoc, singleton_append] at hed
    exact hed

theorem State.Ok.initial : State.initial.Ok := by
  refine ⟨fun _ _ => rfl, ?_⟩
  intro t frame hf
  cases hf

/-- For any program and any threads and nesting: a handler is called when it is the last registered
of those that wait and match, and never again; a finalization returns when none of them match; the
others keep their order. -/
theorem finalize_lifo {m : Machine} {actions : List Action} {s : State} {events : List Event}
    (h : State.initial.run m actions = some (s, events)) :
    Registry.Run events s.registry ∧ (calls events).Nodup ∧
      (∀ e, e ∈ s.array.live ↔ e ∈ registrations events ∧ e ∉ calls events) ∧
      s.array.live.Pairwise fun e e' => e.serial < e'.serial := by
  obtain ⟨-, hr⟩ := State.Ok.initial.run .start h
  have ho := hr.orderly
  exact ⟨hr, ho.once, ho.waiting, ho.sorted⟩

def smallMachine : Machine := ⟨48, 24, 2 ^ 64⟩

/-- A handler of library 5 registers another one and finalizes its library, while another thread
finalizes everything. -/
def nestedRun : List Action :=
  [.atexit 1 0 5 true, .atexit 2 0 6 true, .atexit 3 0 5 true, .finalize 0 5,
    .atexit 4 0 5 true, .finalize 0 5, .finalize 1 0, .handlerReturns 0, .handlerReturns 1,
    .handlerReturns 0, .handlerReturns 0]

theorem finalize_lifo_nestedRun :
    ∃ s events, State.initial.run smallMachine nestedRun = some (s, events) ∧
      (calls events).map AtexitEntry.fn = [3, 4, 2, 1] ∧ s.array.size = 0 ∧
      Registry.Run events s.registry := by
  have ho : ((State.initial.run smallMachine nestedRun).map fun (s, events) =>
      ((calls events).map AtexitEntry.fn, s.array.size)) = some ([3, 4, 2, 1], 0) := by
    decide +kernel
  obtain ⟨⟨s, events⟩, hr, heq⟩ := Option.map_eq_some_iff.mp ho
  obtain ⟨hc, hs⟩ := Prod.mk.injEq .. ▸ heq
  exact ⟨s, events, hr, hc, hs, (finalize_lifo hr).1⟩

end Atexit
