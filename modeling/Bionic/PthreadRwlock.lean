import Bionic.BionicLock
import Bionic.BitFields
import Bionic.FutexThreads

/-! Read-write locks. The word `state` holds the flag of the writer, the number of readers and two
flags for pending threads; `writer_tid` is a second word. Threads that wait count themselves under
`pending_lock` and sleep on a serial, one for readers and one for writers, that an unlock moves on
before it wakes. Every access is a step. A timed wait may end at any moment. -/
namespace PthreadRwlock

open Bool (not_eq_true toNat_false toNat_true)
open FutexThreads Prod
open BionicLock (LockState)
open List Nat Function BitFields

inductive Side where
  | reader | writer
  deriving DecidableEq

def stateHavePendingReadersFlag : BitVec 32 := BitVec.ofNat 32 (2 ^ 0)

def stateHavePendingWritersFlag : BitVec 32 := BitVec.ofNat 32 (2 ^ 1)

def stateReaderCountChangeStep : BitVec 32 := BitVec.ofNat 32 (2 ^ 2)

def stateOwnedByWriterFlag : BitVec 32 := BitVec.ofNat 32 (2 ^ 31)

def stateHavePendingReadersOrWritersFlag : BitVec 32 :=
  stateHavePendingReadersFlag ||| stateHavePendingWritersFlag

def Side.flag : Side → BitVec 32
  | .reader => stateHavePendingReadersFlag
  | .writer => stateHavePendingWritersFlag

def stateOwnedByWriter (state : BitVec 32) : Prop := state.toInt < 0

def stateOwnedByReaders (state : BitVec 32) : Prop :=
  stateReaderCountChangeStep.toInt ≤ state.toInt

def stateOwnedByReadersOrWriter (state : BitVec 32) : Prop :=
  state.toInt < 0 ∨ stateReaderCountChangeStep.toInt ≤ state.toInt

def stateAddWriterFlag (state : BitVec 32) : BitVec 32 := state ||| stateOwnedByWriterFlag

def stateIsLastReader (state : BitVec 32) : Prop := state.sshiftRight 2 = 1

def stateHavePendingWriters (state : BitVec 32) : Prop := state &&& stateHavePendingWritersFlag ≠ 0

def stateHavePendingReadersOrWriters (state : BitVec 32) : Prop :=
  state &&& stateHavePendingReadersOrWritersFlag ≠ 0

instance (state : BitVec 32) : Decidable (stateOwnedByWriter state) :=
  inferInstanceAs (Decidable (_ < _))

instance (state : BitVec 32) : Decidable (stateOwnedByReaders state) :=
  inferInstanceAs (Decidable (_ ≤ _))

instance (state : BitVec 32) : Decidable (stateOwnedByReadersOrWriter state) :=
  inferInstanceAs (Decidable (_ ∨ _))

instance (state : BitVec 32) : Decidable (stateIsLastReader state) :=
  inferInstanceAs (Decidable (_ = _))

instance (state : BitVec 32) : Decidable (stateHavePendingWriters state) :=
  inferInstanceAs (Decidable (_ ≠ _))

instance (state : BitVec 32) : Decidable (stateHavePendingReadersOrWriters state) :=
  inferInstanceAs (Decidable (_ ≠ _))

def canAcquireReadLock (writerNonrecursivePreferred : Bool) (old : BitVec 32) : Prop :=
  ¬(stateOwnedByWriter old ∨ writerNonrecursivePreferred ∧ stateHavePendingWriters old)

def canAcquireWriteLock (old : BitVec 32) : Prop := ¬stateOwnedByReadersOrWriter old

/-- Whether a thread of this side can take the lock in this state. -/
def canAcquire (preferred : Bool) : Side → BitVec 32 → Prop
  | .reader, old => canAcquireReadLock preferred old
  | .writer, old => canAcquireWriteLock old

instance (preferred : Bool) (side : Side) (old : BitVec 32) :
    Decidable (canAcquire preferred side old) :=
  match side with
  | .reader => inferInstanceAs (Decidable (¬(_ ∨ _ ∧ _)))
  | .writer => inferInstanceAs (Decidable (¬_))

/-- The lock. The word of a serial shows its low 32 bits; the counts of pending threads do not
overflow, since there are fewer threads. -/
structure Rwlock (Tid : Type) where
  state : BitVec 32
  writerTid : Option Tid
  pendingLock : LockState
  pendingCount : Side → ℕ
  wakeupSerial : Side → ℕ

inductive Ret where
  | ok | EAGAIN | EBUSY | EDEADLK | EINVAL | EPERM | ETIMEDOUT
  deriving DecidableEq

/-- The `abs_timeout` of a call: none, an accepted one, one with bad nanoseconds, or one before the
epoch. -/
inductive Timeout where
  | none | valid | malformed | negative
  deriving DecidableEq

def checkTimespec : Timeout → Option Ret
  | .none | .valid => .none
  | .malformed => some .EINVAL
  | .negative => some .ETIMEDOUT

inductive Op where
  | lock (side : Side)
  | timedlock (side : Side) (timeout : Timeout)
  | trylock (side : Side)
  | unlock
  deriving DecidableEq

def Op.timeout : Op → Timeout
  | .timedlock _ timeout => timeout
  | _ => .none

/-- Who tries: the fast path of a lock, a trylock, or the loop of the timed functions. -/
inductive Caller where
  | fast | trylock | loop
  deriving DecidableEq

/-- Under `pending_lock` a thread counts itself, sets its flag and reads the serial, or goes out
again; or an unlock chooses whom to wake. -/
inductive Section where
  | pendCount (side : Side)
  | pendFlag (side : Side)
  | pendSerial (side : Side) (old : BitVec 32)
  | unpendCount (side : Side) (timedOut : Bool)
  | unpendFlag (side : Side) (timedOut : Bool)
  | chooseWriters
  | chooseReaders
  | bump (side : Side)
  deriving DecidableEq

/-- What follows the release of `pending_lock`. -/
inductive After where
  | wait (side : Side) (old : BitVec 32) (serial : ℕ)
  | unpended (side : Side) (timedOut : Bool)
  | wake (side : Side)
  | done
  deriving DecidableEq

inductive Pc where
  /-- In no operation; the last one returned this. -/
  | outside (last : Option Ret)
  /-- `__pthread_rwlock_tryrdlock` and `__pthread_rwlock_trywrlock`. -/
  | tryLoad (side : Side) (caller : Caller)
  | tryCas (side : Side) (caller : Caller) (old : BitVec 32)
  | tidStore
  /-- `__pthread_rwlock_timedrdlock` and `__pthread_rwlock_timedwrlock`. -/
  | tidLoad (side : Side)
  | checkLoad (side : Side)
  | futexWait (side : Side) (serial : ℕ)
  | asleep (side : Side)
  /-- `pending_lock.lock()`, what it protects, the exchange and the wake of `pending_lock.unlock()`.
  -/
  | locking (place : BionicLock.Pc) (next : Section)
  | inside (now : Section)
  | unlocking (after : After)
  | unlockWake (after : After)
  /-- `pthread_rwlock_unlock`. -/
  | unlockLoad
  | unlockTidLoad
  | unlockTidStore
  | unlockAnd
  | unlockSub
  | wake (side : Side)
  deriving DecidableEq

structure Holds where
  reads : ℕ
  writing : Bool
  deriving DecidableEq

/-- A thread: its place, its hold, and of its current or last call the operation, the hold at its
start, and whether it has written to the lock or changed its owners. -/
structure Thread where
  pc : Pc
  holds : Holds
  op : Op
  start : Holds
  wrote : Bool
  moved : Bool
  deriving DecidableEq

namespace Thread

def goto (l : Thread) (pc : Pc) : Thread := { l with pc := pc }

def ret (l : Thread) (r : Ret) : Thread := { l with pc := .outside (some r) }

def call (l : Thread) (op : Op) (pc : Pc) : Thread := ⟨pc, l.holds, op, l.holds, false, false⟩

def write (l : Thread) (pc : Pc) : Thread := { l with pc := pc, wrote := true }

def hold (l : Thread) (holds : Holds) (pc : Pc) : Thread :=
  { l with pc := pc, holds := holds, wrote := true, moved := true }

def acquire (l : Thread) : Side → Thread
  | .reader => l.hold ⟨l.holds.reads + 1, l.holds.writing⟩ (.outside (some .ok))
  | .writer => l.hold ⟨l.holds.reads, true⟩ .tidStore

def failed (l : Thread) (side : Side) (caller : Caller) (r : Ret) : Thread :=
  match caller with
  | .trylock => l.ret r
  | .fast => l.goto (.tidLoad side)
  | .loop =>
    if r = .EAGAIN then l.ret r
    else
      match checkTimespec l.op.timeout with
      | some e => l.ret e
      | none => l.goto (.checkLoad side)

/-- The loop of a try once `old_state` has been read. -/
def tried (preferred : Bool) (l : Thread) (side : Side) (caller : Caller) (old : BitVec 32) :
    Thread :=
  if canAcquire preferred side old then
    if side = .reader ∧ ¬stateOwnedByReaders (old + stateReaderCountChangeStep) then
      l.failed side caller .EAGAIN
    else l.goto (.tryCas side caller old)
  else l.failed side caller .EBUSY

def released (preferred : Bool) (l : Thread) : After → Thread
  | .wait side old serial =>
    if canAcquire preferred side old then l.goto (.locking .cas (.unpendCount side false))
    else l.goto (.futexWait side serial)
  | .unpended side timedOut =>
    if timedOut then l.ret .ETIMEDOUT else l.goto (.tryLoad side .loop)
  | .wake side => l.goto (.wake side)
  | .done => l.ret .ok

def unslept (l : Thread) (side : Side) : List Thread :=
  l.goto (.locking .cas (.unpendCount side false)) ::
    if l.op.timeout = .valid then [l.goto (.locking .cas (.unpendCount side true))] else []

end Thread

section
variable {Tid : Type} [DecidableEq Tid]

def calls (l : Thread) : List Thread :=
  [l.call (.lock .reader) (.tryLoad .reader .fast), l.call (.lock .writer) (.tryLoad .writer .fast),
    l.call (.trylock .reader) (.tryLoad .reader .trylock),
    l.call (.trylock .writer) (.tryLoad .writer .trylock)] ++
  ([.none, .valid, .malformed, .negative].map fun timeout =>
    l.call (.timedlock .reader timeout) (.tidLoad .reader)) ++
  ([.none, .valid, .malformed, .negative].map fun timeout =>
    l.call (.timedlock .writer timeout) (.tidLoad .writer)) ++
  if 0 < l.holds.reads ∨ l.holds.writing then [l.call .unlock .unlockLoad] else []

def inside (m : Rwlock Tid) (l : Thread) : Section → Rwlock Tid × Thread
  | .pendCount side =>
    ({ m with pendingCount := update m.pendingCount side (m.pendingCount side + 1) },
      l.write (.inside (.pendFlag side)))
  | .pendFlag side =>
    ({ m with state := m.state ||| side.flag }, l.write (.inside (.pendSerial side m.state)))
  | .pendSerial side old => (m, l.goto (.unlocking (.wait side old (m.wakeupSerial side))))
  | .unpendCount side timedOut =>
    ({ m with pendingCount := update m.pendingCount side (m.pendingCount side - 1) },
      l.write (if m.pendingCount side - 1 = 0 then .inside (.unpendFlag side timedOut)
        else .unlocking (.unpended side timedOut)))
  | .unpendFlag side timedOut =>
    ({ m with state := m.state &&& ~~~side.flag }, l.write (.unlocking (.unpended side timedOut)))
  | .chooseWriters =>
    (m, l.goto (.inside (if m.pendingCount .writer ≠ 0 then .bump .writer else .chooseReaders)))
  | .chooseReaders =>
    (m, l.goto (if m.pendingCount .reader ≠ 0 then .inside (.bump .reader) else .unlocking .done))
  | .bump side =>
    ({ m with wakeupSerial := update m.wakeupSerial side (m.wakeupSerial side + 1) },
      l.write (.unlocking (.wake side)))

def acquired (side : Side) (old : BitVec 32) : BitVec 32 :=
  match side with
  | .reader => old + stateReaderCountChangeStep
  | .writer => stateAddWriterFlag old

def step (preferred : Bool) (t : Tid) (m : Rwlock Tid) (l : Thread) : List (Rwlock Tid × Thread) :=
  match l.pc with
  | .outside _ => (calls l).map (m, ·)
  | .tryLoad side caller => [(m, l.tried preferred side caller m.state)]
  | .tryCas side caller old =>
    weakCas (m.state = old) ({ m with state := acquired side old }, l.acquire side)
      (m, l.tried preferred side caller m.state)
  | .tidStore => [({ m with writerTid := some t }, l.write (.outside (some .ok)))]
  | .tidLoad side =>
    [(m, if m.writerTid = some t then l.ret .EDEADLK else l.goto (.tryLoad side .loop))]
  | .checkLoad side =>
    [(m, l.goto (if canAcquire preferred side m.state then .tryLoad side .loop
      else .locking .cas (.pendCount side)))]
  | .futexWait side serial =>
    (if m.wakeupSerial side % 2 ^ 32 = serial % 2 ^ 32 then [(m, l.goto (.asleep side))] else []) ++
      (l.unslept side).map (m, ·)
  | .asleep side => (l.unslept side).map (m, ·)
  | .locking place next =>
    (BionicLock.lock m.pendingLock place).map fun n =>
      ({ m with pendingLock := n.1 }, l.write (match n.2 with
        | none => .inside next
        | some place => .locking place next))
  | .inside now => [inside m l now]
  | .unlocking after =>
    [({ m with pendingLock := .unlocked },
      if BionicLock.unlockWakes m.pendingLock then l.write (.unlockWake after)
      else ({ l with wrote := true } : Thread).released preferred after)]
  | .unlockWake _ => []
  | .unlockLoad =>
    [(m, if stateOwnedByWriter m.state then l.goto .unlockTidLoad
      else if stateOwnedByReaders m.state then l.goto .unlockSub else l.ret .EPERM)]
  | .unlockTidLoad => [(m, if m.writerTid ≠ some t then l.ret .EPERM else l.goto .unlockTidStore)]
  | .unlockTidStore => [({ m with writerTid := none }, l.write .unlockAnd)]
  | .unlockAnd =>
    [({ m with state := m.state &&& ~~~stateOwnedByWriterFlag },
      l.hold ⟨l.holds.reads, false⟩ (if ¬stateHavePendingReadersOrWriters m.state then
        .outside (some .ok) else .locking .cas .chooseWriters))]
  | .unlockSub =>
    [({ m with state := m.state - stateReaderCountChangeStep },
      l.hold ⟨l.holds.reads - 1, l.holds.writing⟩
        (if ¬stateIsLastReader m.state ∨ ¬stateHavePendingReadersOrWriters m.state then
          .outside (some .ok) else .locking .cas .chooseWriters))]
  | .wake _ => []

end

inductive Word where
  | pendingLock
  | wakeupSerial (side : Side)
  deriving DecidableEq

def sleeps (l : Thread) : Option Word :=
  match l.pc with
  | .asleep side => some (.wakeupSerial side)
  | .locking .asleep _ => some .pendingLock
  | _ => none

def awaken (l : Thread) : Thread :=
  match l.pc with
  | .asleep side => l.goto (.locking .cas (.unpendCount side false))
  | .locking .asleep next => l.goto (.locking .exchange next)
  | _ => l

def Side.wakeCount : Side → WakeCount
  | .reader => .all
  | .writer => .upTo 1

def wakes (preferred : Bool) (l : Thread) : Option (Word × WakeCount × Thread) :=
  match l.pc with
  | .wake side => some (.wakeupSerial side, side.wakeCount, l.ret .ok)
  | .unlockWake after => some (.pendingLock, .upTo 1, l.released preferred after)
  | _ => none

def program (Tid : Type) [DecidableEq Tid] (preferred : Bool) :
    Program Tid Word (Rwlock Tid) Thread where
  step := step preferred
  sleeps := sleeps
  awaken := awaken
  wakes := wakes preferred

def initial (Tid : Type) : State Tid (Rwlock Tid) Thread :=
  ⟨⟨0, none, .unlocked, fun _ => 0, fun _ => 0⟩,
    fun _ => ⟨.outside none, ⟨0, false⟩, .unlock, ⟨0, false⟩, false, false⟩⟩

variable {Tid : Type} {preferred : Bool}

section
variable {x : BitVec 32}

def owners (x : BitVec 32) : ℕ := x.toNat / 2 ^ 2

def Side.pending (side : Side) (x : BitVec 32) : Prop :=
  match side with
  | .reader => x.toNat % 2 = 1
  | .writer => x.toNat / 2 % 2 = 1

theorem stateOwnedByWriter_iff : stateOwnedByWriter x ↔ 2 ^ 29 ≤ owners x := by
  rw [stateOwnedByWriter, owners, BitVec.toInt_eq_toNat_cond]
  split <;> omega

theorem step_toInt : stateReaderCountChangeStep.toInt = 4 := by decide

theorem stateOwnedByReaders_iff : stateOwnedByReaders x ↔ 0 < owners x ∧ owners x < 2 ^ 29 := by
  rw [stateOwnedByReaders, step_toInt, owners, BitVec.toInt_eq_toNat_cond]
  split <;> omega

theorem stateOwnedByReadersOrWriter_iff : stateOwnedByReadersOrWriter x ↔ 0 < owners x := by
  rw [stateOwnedByReadersOrWriter, step_toInt, owners, BitVec.toInt_eq_toNat_cond]
  split <;> omega

theorem stateIsLastReader_iff : stateIsLastReader x ↔ owners x = 1 := by
  rw [stateIsLastReader, ← BitVec.toInt_inj, BitVec.toInt_sshiftRight, owners,
    BitVec.toInt_eq_toNat_cond, show (1 : BitVec 32).toInt = 1 from rfl, Int.shiftRight_eq_div_pow]
  split <;> omega

theorem toNat_and_two_pow {k} (hk : k < 32) :
    (x &&& BitVec.ofNat 32 (2 ^ k)).toNat = x.toNat / 2 ^ k % 2 * 2 ^ k := by
  have hm := land_mask x.toNat k 1
  rw [BitVec.toNat_and, BitVec.toNat_ofNat, mod_eq_of_lt (Nat.pow_lt_pow_right Nat.one_lt_two hk)]
  simpa using hm

theorem stateHavePendingWriters_iff : stateHavePendingWriters x ↔ Side.writer.pending x := by
  have h := toNat_and_two_pow (x := x) (k := 1) (by decide)
  rw [stateHavePendingWriters, stateHavePendingWritersFlag, ne_eq, ← BitVec.toNat_inj, h]
  change ¬x.toNat / 2 % 2 * 2 = 0 ↔ x.toNat / 2 % 2 = 1
  omega

theorem stateHavePendingReadersOrWriters_iff :
    stateHavePendingReadersOrWriters x ↔ ∃ side : Side, side.pending x := by
  have hm : x.toNat &&& 3 = x.toNat / 1 % 4 * 1 := land_mask x.toNat 0 2
  rw [stateHavePendingReadersOrWriters, ne_eq, ← BitVec.toNat_inj, BitVec.toNat_and,
    show stateHavePendingReadersOrWritersFlag.toNat = 3 by decide, hm,
    show (0 : BitVec 32).toNat = 0 from rfl]
  constructor
  · intro hn
    by_cases hr : x.toNat % 2 = 1
    · exact ⟨.reader, hr⟩
    refine ⟨.writer, ?_⟩
    change x.toNat / 2 % 2 = 1
    omega
  · rintro ⟨side, hs⟩
    cases side <;> simp only [Side.pending] at hs <;> omega

theorem canAcquire_writer : canAcquire preferred .writer x ↔ owners x = 0 := by
  rw [canAcquire, canAcquireWriteLock, stateOwnedByReadersOrWriter_iff]
  omega

theorem canAcquire_reader : canAcquire preferred .reader x ↔
    owners x < 2 ^ 29 ∧ ¬(preferred ∧ Side.writer.pending x) := by
  rw [canAcquire, canAcquireReadLock, stateOwnedByWriter_iff, stateHavePendingWriters_iff, not_or,
    not_le]

theorem set_flag (side : Side) (x) : owners (x ||| side.flag) = owners x ∧
      ∀ other, other.pending (x ||| side.flag) ↔ other = side ∨ other.pending x := by
  rw [owners, owners]
  cases side
  case' reader =>
    have h : (x ||| Side.reader.flag).toNat + x.toNat / 1 % 2 * 1 = x.toNat + 1 :=
      toNat_set x (by decide)
  case' writer =>
    have h : (x ||| Side.writer.flag).toNat + x.toNat / 2 % 2 * 2 = x.toNat + 2 :=
      toNat_set x (by decide)
  all_goals
    refine ⟨by omega, fun other => ?_⟩
    cases other <;> simp only [Side.pending, reduceCtorEq, true_or, false_or, iff_true] <;> omega

theorem clear_flag (side : Side) (x) : owners (x &&& ~~~side.flag) = owners x ∧
      ∀ other, other.pending (x &&& ~~~side.flag) ↔ other ≠ side ∧ other.pending x := by
  rw [owners, owners]
  cases side
  case' reader =>
    have h : (x &&& ~~~Side.reader.flag).toNat + x.toNat / 1 % 2 * 1 = x.toNat :=
      toNat_clear x (by decide)
  case' writer =>
    have h : (x &&& ~~~Side.writer.flag).toNat + x.toNat / 2 % 2 * 2 = x.toNat :=
      toNat_clear x (by decide)
  all_goals
    refine ⟨by omega, fun other => ?_⟩
    cases other <;> simp only [Side.pending, ne_eq, reduceCtorEq, not_true_eq_false,
      not_false_eq_true, true_and, false_and, iff_false] <;> omega

theorem pending_congr {y} (h : y.toNat % 4 = x.toNat % 4) (side : Side) :
    side.pending y ↔ side.pending x := by
  cases side <;> simp only [Side.pending] <;> omega

theorem add_reader (h : owners x + 1 < 2 ^ 30) :
    owners (x + stateReaderCountChangeStep) = owners x + 1 ∧
      ∀ side : Side, side.pending (x + stateReaderCountChangeStep) ↔ side.pending x := by
  have hx := x.isLt
  have ha : (x + stateReaderCountChangeStep).toNat = x.toNat + 4 := by
    rw [owners] at h
    rw [BitVec.toNat_add, show stateReaderCountChangeStep.toNat = 4 from rfl]
    omega
  refine ⟨?_, pending_congr (by omega)⟩
  rw [owners, owners]
  omega

theorem sub_reader (h : 0 < owners x) : owners (x - stateReaderCountChangeStep) = owners x - 1 ∧
      ∀ side : Side, side.pending (x - stateReaderCountChangeStep) ↔ side.pending x := by
  have hx := x.isLt
  have hs : (x - stateReaderCountChangeStep).toNat = x.toNat - 4 := by
    rw [owners] at h
    rw [BitVec.toNat_sub, show stateReaderCountChangeStep.toNat = 4 from rfl]
    omega
  rw [owners] at h
  refine ⟨?_, pending_congr (by omega)⟩
  rw [owners, owners]
  omega

theorem add_writer (h : owners x < 2 ^ 29) : owners (stateAddWriterFlag x) = owners x + 2 ^ 29 ∧
      ∀ side : Side, side.pending (stateAddWriterFlag x) ↔ side.pending x := by
  have hs := toNat_set x (k := 31) (by decide)
  change (stateAddWriterFlag x).toNat + x.toNat / 2147483648 % 2 * 2147483648 =
    x.toNat + 2147483648 at hs
  rw [owners] at h
  refine ⟨?_, pending_congr (by omega)⟩
  rw [owners, owners]
  omega

theorem sub_writer (h : 2 ^ 29 ≤ owners x) :
    owners (x &&& ~~~stateOwnedByWriterFlag) = owners x - 2 ^ 29 ∧
      ∀ side : Side, side.pending (x &&& ~~~stateOwnedByWriterFlag) ↔ side.pending x := by
  have hx := x.isLt
  have hc := toNat_clear x (k := 31) (by decide)
  change (x &&& ~~~stateOwnedByWriterFlag).toNat + x.toNat / 2147483648 % 2 * 2147483648 =
    x.toNat at hc
  rw [owners] at h
  refine ⟨?_, pending_congr (by omega)⟩
  rw [owners, owners]
  omega

end

def Op.side : Op → Option Side
  | .lock side | .timedlock side _ | .trylock side => some side
  | .unlock => none

def Op.blocks : Op → Bool
  | .lock _ | .timedlock .. => true
  | _ => false

def Op.after (op : Op) (r : Ret) (h : Holds) : Holds :=
  if r = .ok then
    match op.side with
    | some .reader => ⟨h.reads + 1, h.writing⟩
    | some .writer => ⟨h.reads, true⟩
    | none => if h.writing then ⟨h.reads, false⟩ else ⟨h.reads - 1, false⟩
  else h

/-- Only success changes what the caller holds and the word; a blocking call of the writer that
holds the lock, and no other, gets `EDEADLK` and has written nothing. -/
def Returned (l : Thread) (r : Ret) : Prop :=
  l.holds = l.op.after r l.start ∧ (r ≠ .ok → l.moved = false) ∧
    (l.op.blocks → l.start.writing → r = .EDEADLK) ∧
    (r = .EDEADLK → l.start.writing ∧ l.wrote = false)

def Fresh (side : Side) (l : Thread) : Prop :=
  l.op.side = some side ∧ l.holds = l.start ∧ l.moved = false

def Looping (side : Side) (l : Thread) : Prop :=
  Fresh side l ∧ l.op.blocks ∧ l.start.writing = false

def Unlocked (l : Thread) : Prop := l.op = .unlock ∧ l.holds = l.op.after .ok l.start

def Unlocking (l : Thread) : Prop := l.op = .unlock ∧ l.holds = l.start ∧ l.moved = false

def Trying (side : Side) (caller : Caller) (l : Thread) : Prop :=
  match caller with
  | .fast => Fresh side l ∧ l.op.blocks ∧ l.wrote = false
  | .trylock => Fresh side l ∧ l.op.blocks = false
  | .loop => Looping side l

def Section.Ok (l : Thread) : Section → Prop
  | .pendCount side | .pendFlag side | .pendSerial side _ | .unpendCount side _
  | .unpendFlag side _ => Looping side l
  | .chooseWriters | .chooseReaders | .bump _ => Unlocked l

def After.Ok (l : Thread) : After → Prop
  | .wait side _ _ | .unpended side _ => Looping side l
  | .wake _ | .done => Unlocked l

def Ok (l : Thread) : Prop :=
  match l.pc with
  | .outside none => True
  | .outside (some r) => Returned l r
  | .tryLoad side caller => Trying side caller l
  | .tryCas side caller old =>
    Trying side caller l ∧ l.start.writing = false ∧
      match side with
      | .reader => owners old + 1 < 2 ^ 29
      | .writer => owners old = 0
  | .tidStore =>
    l.op.side = some .writer ∧ l.holds = ⟨l.start.reads, true⟩ ∧ l.start.writing = false
  | .tidLoad side => Fresh side l ∧ l.op.blocks ∧ l.wrote = false
  | .checkLoad side | .futexWait side _ | .asleep side => Looping side l
  | .locking _ now | .inside now => now.Ok l
  | .unlocking after | .unlockWake after => after.Ok l
  | .unlockLoad => Unlocking l ∧ (0 < l.holds.reads ∨ l.holds.writing)
  | .unlockTidLoad | .unlockTidStore | .unlockAnd => Unlocking l ∧ l.holds.writing
  | .unlockSub => Unlocking l ∧ 0 < l.holds.reads ∧ l.holds.writing = false
  | .wake _ => Unlocked l

/-- Whether the writer stands in `writer_tid`. -/
def Pc.recorded : Pc → Bool
  | .tidStore | .unlockAnd => false
  | _ => true

variable {side : Side} {w : Word}

variable {l l' : Thread}

section
variable {t : Tid} {m m' : Rwlock Tid}

structure View (t : Tid) (m : Rwlock Tid) (l : Thread) : Prop where
  bound : owners m.state ≤ 2 ^ 29
  writing : l.holds.writing → owners m.state = 2 ^ 29
  reading : 0 < l.holds.reads → 0 < owners m.state ∧ owners m.state < 2 ^ 29
  tid : m.writerTid = some t ↔ l.holds.writing ∧ l.pc.recorded

inductive Change (t : Tid) (m : Rwlock Tid) (l : Thread) (m' : Rwlock Tid) (l' : Thread) : Prop
  | quiet (owner : owners m'.state = owners m.state) (tid : m'.writerTid = m.writerTid)
      (holds : l'.holds = l.holds) (recorded : l'.pc.recorded = l.pc.recorded)
  | readLock (room : owners m.state + 1 < 2 ^ 29) (owner : owners m'.state = owners m.state + 1)
      (tid : m'.writerTid = m.writerTid)
      (holds : l'.holds = ⟨l.holds.reads + 1, l.holds.writing⟩)
      (recorded : l'.pc.recorded = l.pc.recorded)
  | writeLock (free : owners m.state = 0) (owner : owners m'.state = 2 ^ 29)
      (tid : m'.writerTid = m.writerTid) (holds : l'.holds = ⟨l.holds.reads, true⟩)
      (recorded : l'.pc.recorded = false)
  | storeTid (held : l.holds.writing) (owner : owners m'.state = owners m.state)
      (tid : m'.writerTid = some t) (holds : l'.holds = l.holds) (recorded : l'.pc.recorded)
  | clearTid (held : l.holds.writing) (owner : owners m'.state = owners m.state)
      (tid : m'.writerTid = none) (holds : l'.holds = l.holds) (recorded : l'.pc.recorded = false)
  | writeUnlock (held : l.holds.writing) (place : l.pc = .unlockAnd)
      (owner : owners m'.state = 0) (tid : m'.writerTid = m.writerTid)
      (holds : l'.holds = ⟨l.holds.reads, false⟩)
  | readUnlock (held : 0 < l.holds.reads) (place : l.pc = .unlockSub)
      (owner : owners m'.state = owners m.state - 1) (tid : m'.writerTid = m.writerTid)
      (holds : l'.holds = ⟨l.holds.reads - 1, l.holds.writing⟩)
      (recorded : l'.pc.recorded = l.pc.recorded)

theorem Fresh.returned {r} (h : Fresh side l) (hw : l.op.blocks → l.start.writing = false)
    (hr : r ≠ .ok ∧ r ≠ .EDEADLK) : Returned (l.ret r) r := by
  obtain ⟨-, hh, hm⟩ := h
  refine ⟨?_, fun _ => hm, fun hb hs => ?_, fun he => absurd he hr.2⟩
  · rw [Op.after, if_neg hr.1]
    exact hh
  · rw [show l.start.writing from hs] at hw
    cases hw hb

variable {caller : Caller} {n : WakeCount}

theorem failed_spec {r} (h : Trying side caller l) (hr : r = .EAGAIN ∨ r = .EBUSY) :
    Ok (l.failed side caller r) ∧ (l.failed side caller r).holds = l.holds ∧
      (l.failed side caller r).pc.recorded := by
  have hn : r ≠ .ok ∧ r ≠ .EDEADLK := by rcases hr with rfl | rfl <;> decide
  cases caller with
  | fast => exact ⟨h, rfl, rfl⟩
  | trylock =>
    obtain ⟨hf, hb⟩ := h
    exact ⟨hf.returned (by simp [hb]) hn, rfl, rfl⟩
  | loop =>
    obtain ⟨hf, hb, hs⟩ := id h
    have hrt : ∀ r, r ≠ .ok ∧ r ≠ .EDEADLK → Ok (l.ret r) := fun r hr =>
      hf.returned (fun _ => hs) hr
    rw [Thread.failed]
    split
    · exact ⟨hrt r hn, rfl, rfl⟩
    cases ht : l.op.timeout with
    | none | valid => exact ⟨h, rfl, rfl⟩
    | malformed | negative => exact ⟨hrt _ (by decide), rfl, rfl⟩

theorem tried_spec (v : View t m l) (h : Trying side caller l) :
    Ok (l.tried preferred side caller m.state) ∧
      (l.tried preferred side caller m.state).holds = l.holds ∧
      (l.tried preferred side caller m.state).pc.recorded := by
  have hh : l.holds = l.start := by
    cases caller with
    | fast | trylock | loop => exact h.1.2.1
  have hwg : owners m.state < 2 ^ 29 → l.start.writing = false := by
    intro hl
    rw [← hh, ← not_eq_true]
    intro hw
    have := v.writing hw
    omega
  rw [Thread.tried]
  split
  · rename_i hc
    split
    · exact failed_spec h (.inl rfl)
    rename_i hr
    refine ⟨⟨h, ?_⟩, rfl, rfl⟩
    cases side with
    | reader =>
      rw [canAcquire_reader] at hc
      rw [not_and_not_right, stateOwnedByReaders_iff, (add_reader (by omega)).1] at hr
      exact ⟨hwg hc.1, (hr rfl).2⟩
    | writer =>
      rw [canAcquire_writer] at hc
      exact ⟨hwg (by omega), hc⟩
  · exact failed_spec h (.inr rfl)

theorem released_spec (preferred) {after} (h : after.Ok l) :
    Ok (l.released preferred after) ∧ (l.released preferred after).holds = l.holds ∧
      (l.released preferred after).pc.recorded := by
  cases after with
  | wait side old serial =>
    rw [Thread.released]
    split
    all_goals exact ⟨h, rfl, rfl⟩
  | unpended side timedOut =>
    cases timedOut with
    | false => exact ⟨h, rfl, rfl⟩
    | true => exact ⟨h.1.returned (fun _ => h.2.2) (by decide), rfl, rfl⟩
  | wake side => exact ⟨h, rfl, rfl⟩
  | done =>
    obtain ⟨ho, hh⟩ := h
    exact ⟨⟨hh, by simp, by simp [Thread.released, Thread.ret, ho, Op.blocks], nofun⟩, rfl, rfl⟩

theorem unslept_spec (h : Looping side l) (hl : l' ∈ l.unslept side) :
    Ok l' ∧ l'.holds = l.holds ∧ l'.pc.recorded := by
  rcases List.mem_cons.mp hl with rfl | hl
  · exact ⟨h, rfl, rfl⟩
  split at hl
  · obtain rfl := mem_singleton.mp hl
    exact ⟨h, rfl, rfl⟩
  · cases hl

theorem inside_spec {now} (h : now.Ok l) :
    Ok (inside m l now).2 ∧ owners (inside m l now).1.state = owners m.state ∧
      (inside m l now).1.writerTid = m.writerTid ∧ (inside m l now).2.holds = l.holds ∧
      (inside m l now).2.pc.recorded := by
  cases now with
  | pendCount side | bump side => exact ⟨h, rfl, rfl, rfl, rfl⟩
  | pendFlag side => exact ⟨h, (set_flag side m.state).1, rfl, rfl, rfl⟩
  | pendSerial side old => exact ⟨h, rfl, rfl, rfl, rfl⟩
  | unpendCount side timedOut | chooseWriters | chooseReaders =>
    rw [inside]
    split
    all_goals exact ⟨h, rfl, rfl, rfl, rfl⟩
  | unpendFlag side timedOut => exact ⟨h, (clear_flag side m.state).1, rfl, rfl, rfl⟩

theorem calls_spec (hl : l' ∈ calls l) : Ok l' ∧ l'.holds = l.holds ∧ l'.pc.recorded := by
  simp only [calls, mem_append, mem_cons, mem_map, not_mem_nil, or_false] at hl
  rcases hl with ((((rfl | rfl | rfl | rfl) | ⟨timeout, -, rfl⟩) | ⟨timeout, -, rfl⟩) | hl)
  · exact ⟨⟨⟨rfl, rfl, rfl⟩, rfl, rfl⟩, rfl, rfl⟩
  · exact ⟨⟨⟨rfl, rfl, rfl⟩, rfl, rfl⟩, rfl, rfl⟩
  · exact ⟨⟨⟨rfl, rfl, rfl⟩, rfl⟩, rfl, rfl⟩
  · exact ⟨⟨⟨rfl, rfl, rfl⟩, rfl⟩, rfl, rfl⟩
  · exact ⟨⟨⟨rfl, rfl, rfl⟩, rfl, rfl⟩, rfl, rfl⟩
  · exact ⟨⟨⟨rfl, rfl, rfl⟩, rfl, rfl⟩, rfl, rfl⟩
  split at hl
  · rename_i hh
    obtain rfl := mem_singleton.mp hl
    exact ⟨⟨⟨rfl, rfl, rfl⟩, hh⟩, rfl, rfl⟩
  · cases hl

theorem unlock_after (ho : l.op = .unlock) (hh : l'.holds = l.op.after .ok l.start)
    (ho' : l'.op = l.op) (hs' : l'.start = l.start)
    (hp : l'.pc = .outside (some .ok) ∨ l'.pc = .locking .cas .chooseWriters) : Ok l' := by
  rcases hp with hp | hp <;> simp only [Ok, hp]
  · refine ⟨by rw [hh, ho', hs'], by simp, ?_, nofun⟩
    rw [ho', ho]
    exact nofun
  · exact ⟨ho'.trans ho, by rw [hh, ho', hs']⟩

theorem View.tid_self (v : View t m l) (c : Change t m l m' l') :
    m'.writerTid = some t ↔ l'.holds.writing ∧ l'.pc.recorded := by
  have ht := v.tid
  cases c with
  | quiet _ tid holds recorded | readLock _ _ tid holds recorded => rwa [tid, holds, recorded]
  | writeLock free _ tid holds recorded =>
    have hw : ¬l.holds.writing := by
      intro hw
      have := v.writing hw
      omega
    rw [tid, recorded, ht]
    simp [hw]
  | storeTid held _ tid holds recorded =>
    rw [tid, holds, recorded]
    simp [held]
  | clearTid held _ tid holds recorded =>
    rw [tid, recorded]
    simp
  | writeUnlock held place _ tid holds =>
    rw [tid, ht, place, holds]
    simp [Pc.recorded]
  | readUnlock _ _ _ tid holds recorded => rwa [tid, holds, recorded]

theorem wakes_eq_some (h : wakes preferred l = some (w, n, l')) :
    (∃ side, l.pc = .wake side ∧ w = .wakeupSerial side ∧ n = side.wakeCount ∧
        l' = l.ret .ok) ∨ ∃ after, l.pc = .unlockWake after ∧ w = .pendingLock ∧ n = .upTo 1 ∧
        l' = l.released preferred after := by
  rw [wakes] at h
  split at h
  · rename_i side hp
    cases h
    exact .inl ⟨side, hp, rfl, rfl, rfl⟩
  · rename_i after hp
    obtain ⟨rfl, rfl, rfl⟩ : .pendingLock = w ∧ .upTo 1 = n ∧ l.released preferred after = l' := by
      simpa using h
    exact .inr ⟨after, hp, rfl, rfl, rfl⟩
  · cases h

theorem sleeps_eq_some (h : sleeps l = some w) :
    (∃ side, l.pc = .asleep side ∧ w = .wakeupSerial side ∧
        awaken l = l.goto (.locking .cas (.unpendCount side false))) ∨
      ∃ next, l.pc = .locking .asleep next ∧ w = .pendingLock ∧
        awaken l = l.goto (.locking .exchange next) := by
  rw [sleeps] at h
  split at h
  · rename_i side hp
    exact .inl ⟨side, hp, (Option.some.inj h).symm, by simp only [awaken, hp]⟩
  · rename_i next hp
    exact .inr ⟨next, hp, (Option.some.inj h).symm, by simp only [awaken, hp]⟩
  · cases h

theorem awaken_spec (h : sleeps l = some w) (ok : Ok l) :
    Ok (awaken l) ∧ (awaken l).holds = l.holds ∧ (awaken l).pc.recorded = l.pc.recorded := by
  rcases sleeps_eq_some h with ⟨side, hp, -, ha⟩ | ⟨next, hp, -, ha⟩ <;>
    rw [ha, hp] <;> simp only [Ok, hp] at ok
  · exact ⟨ok, rfl, rfl⟩
  · exact ⟨by cases next <;> exact ok, rfl, rfl⟩

theorem wakes_spec (h : wakes preferred l = some (w, n, l')) (ok : Ok l) :
    Ok l' ∧ l'.holds = l.holds ∧ l'.pc.recorded = l.pc.recorded := by
  rcases wakes_eq_some h with ⟨side, hp, -, -, rfl⟩ | ⟨after, hp, -, -, rfl⟩ <;>
    simp only [Ok, hp] at ok <;> rw [hp]
  · have hd : After.done.Ok l := ok
    exact released_spec preferred hd
  · exact released_spec preferred ok

/-- A call that would deadlock with itself: a blocking lock operation of a thread that holds the
lock for writing. -/
def Relock (l : Thread) : Prop := l.op.blocks ∧ l.start.writing

def Pc.left : Pc → ℕ
  | .outside _ => 0
  | .tidLoad _ => 1
  | .tryLoad _ .fast => 2
  | _ => 3

theorem Relock.left_le (h : Relock l) (ok : Ok l) : l.pc.left ≤ 2 := by
  obtain ⟨hb, hw⟩ := h
  have hu : ¬l.op = .unlock := by
    intro ho
    rw [ho] at hb
    cases hb
  have hlp : ∀ side, ¬Looping side l := fun side hl => by
    cases hl.2.2.symm.trans hw
  cases hp : l.pc
  all_goals simp only [Ok, hp] at ok
  case outside last => exact zero_le 2
  case tryLoad side caller =>
    cases caller with
    | fast => exact le_refl 2
    | trylock => cases ok.2.symm.trans hb
    | loop => exact absurd ok (hlp side)
  case tryCas side caller old =>
    cases ok.2.1.symm.trans hw
  case tidLoad side => exact le_succ 1
  case tidStore =>
    cases ok.2.2.symm.trans hw
  case checkLoad side | futexWait side serial | asleep side =>
    exact absurd ok (hlp side)
  case locking now | inside now =>
    cases now with
    | chooseWriters | chooseReaders | bump _ => exact absurd ok.1 hu
    | _ => exact absurd ok (hlp _)
  case unlocking after | unlockWake after =>
    cases after with
    | wake _ | done => exact absurd ok.1 hu
    | _ => exact absurd ok (hlp _)
  case unlockLoad | unlockTidLoad | unlockTidStore | unlockAnd | unlockSub =>
    exact absurd ok.1.1 hu
  case wake side =>
    exact absurd ok.1 hu

theorem inside_marks (m : Rwlock Tid) (l now) :
    (inside m l now).1 = m ∨ (inside m l now).2.wrote := by
  cases now with
  | pendSerial side old | chooseWriters | chooseReaders => exact .inl rfl
  | _ => exact .inr rfl

variable [DecidableEq Tid]

theorem step_change (v : View t m l) (ok : Ok l) (h : (m', l') ∈ step preferred t m l) :
    Ok l' ∧ Change t m l m' l' := by
  have hq {pc : Pc} (hp : l.pc = pc) (hrc : pc.recorded)
      (hl : Ok l' ∧ l'.holds = l.holds ∧ l'.pc.recorded)
      (ho : owners m'.state = owners m.state) (ht : m'.writerTid = m.writerTid) :
      Ok l' ∧ Change t m l m' l' := by
    rw [← hp] at hrc
    exact ⟨hl.1, .quiet ho ht hl.2.1 (hl.2.2.trans hrc.symm)⟩
  have hok := ok
  cases hp : l.pc
  all_goals simp only [Ok, hp] at ok
  all_goals simp only [step, hp] at h
  case outside last =>
    obtain ⟨rfl, hl⟩ := mem_map_pair h
    exact hq hp rfl (calls_spec hl) rfl rfl
  case tryLoad side caller =>
    obtain ⟨rfl, rfl⟩ := mem_pair h
    exact hq hp rfl (tried_spec v ok) rfl rfl
  case tryCas side caller old =>
    rcases mem_weakCas.mp h with ⟨hm, h⟩ | h <;> cases h
    · subst hm
      simp only [Ok, hp] at hok
      obtain ⟨hty, hst, hold⟩ := hok
      obtain ⟨hsd, hh, -⟩ : Fresh side l := by
        cases caller with
        | fast | trylock | loop => exact hty.1
      have hrc : l.pc.recorded := by rw [hp]; rfl
      cases side with
      | reader =>
        refine ⟨⟨?_, by simp, fun _ hs => ?_, nofun⟩,
          .readLock hold (add_reader (by omega)).1 rfl rfl
          (by rw [hrc]; rfl)⟩
        · simp [Thread.acquire, Thread.hold, Op.after, hsd, hh]
        · cases hst.symm.trans hs
      | writer =>
        have hf : owners m.state = 0 := hold
        refine ⟨⟨hsd, ?_, hst⟩, .writeLock hf ?_ rfl rfl rfl⟩
        · simp [Thread.acquire, Thread.hold, hh]
        · change owners (stateAddWriterFlag m.state) = 2 ^ 29
          rw [(add_writer (by omega)).1, hf, zero_add]
    · exact hq hp rfl (tried_spec v ok.1) rfl rfl
  case tidStore =>
    obtain ⟨hsd, hh, hst⟩ := ok
    obtain ⟨rfl, rfl⟩ := mem_pair h
    refine ⟨⟨?_, by simp, fun _ hs => ?_, nofun⟩, .storeTid (by rw [hh]) rfl rfl rfl rfl⟩
    · simp [Thread.write, Op.after, hsd, hh]
    · cases hst.symm.trans hs
  case tidLoad side =>
    obtain ⟨hfr, hb, hwt⟩ := ok
    obtain ⟨-, hh, hmv⟩ := id hfr
    have ht := v.tid
    rw [hp] at ht
    rw [mem_singleton] at h
    split at h <;> obtain ⟨rfl, rfl⟩ := mk.inj h <;> rename_i ho
    · have hwg : l.start.writing := hh ▸ (ht.mp ho).1
      exact hq hp rfl ⟨⟨hh, fun _ => hmv, fun _ _ => rfl, fun _ => ⟨hwg, hwt⟩⟩, rfl, rfl⟩ rfl rfl
    · have hwg : l.start.writing = false := by
        rw [← hh, ← not_eq_true]
        exact fun hw => ho (ht.mpr ⟨hw, rfl⟩)
      exact hq hp rfl ⟨⟨hfr, hb, hwg⟩, rfl, rfl⟩ rfl rfl
  case checkLoad side =>
    obtain ⟨rfl, rfl⟩ := mem_pair h
    refine hq hp rfl ?_ rfl rfl
    split
    all_goals exact ⟨ok, rfl, rfl⟩
  case futexWait side serial =>
    rw [mem_append] at h
    rcases h with h | h
    · split at h
      · obtain ⟨rfl, rfl⟩ := mem_pair h
        exact hq hp rfl ⟨ok, rfl, rfl⟩ rfl rfl
      · cases h
    · obtain ⟨rfl, hl⟩ := mem_map_pair h
      exact hq hp rfl (unslept_spec ok hl) rfl rfl
  case asleep side =>
    obtain ⟨rfl, hl⟩ := mem_map_pair h
    exact hq hp rfl (unslept_spec ok hl) rfl rfl
  case locking place next =>
    obtain ⟨⟨state, place'⟩, -, h⟩ := mem_map.mp h
    cases h
    refine hq hp rfl ?_ rfl rfl
    have hnw : next.Ok { l with wrote := true } := by cases next <;> exact ok
    cases place' with
    | none | some place' => exact ⟨by cases next <;> exact hnw, rfl, rfl⟩
  case inside now =>
    rw [mem_singleton] at h
    obtain ⟨hok, ho, ht, hh, hrc⟩ := inside_spec ok
    rw [← h] at hok ho ht hh hrc
    exact hq hp rfl ⟨hok, hh, hrc⟩ ho ht
  case unlocking after =>
    obtain ⟨rfl, rfl⟩ := mem_pair h
    refine hq hp rfl ?_ rfl rfl
    split
    · exact ⟨by cases after <;> exact ok, rfl, rfl⟩
    · exact released_spec preferred (by cases after <;> exact ok)
  case unlockWake after =>
    cases h
  case unlockLoad =>
    obtain ⟨hu, hhd⟩ := ok
    obtain ⟨hop, hh, hmv⟩ := id hu
    have hwg := v.writing
    have hra := v.reading
    obtain ⟨rfl, rfl⟩ := mem_pair h
    refine hq hp rfl ?_ rfl rfl
    split <;> rename_i hod <;> rw [stateOwnedByWriter_iff] at hod
    · refine ⟨⟨hu, ?_⟩, rfl, rfl⟩
      rcases hhd with hr | hw
      · have := hra hr
        omega
      · exact hw
    · split <;> rename_i hrd <;> rw [stateOwnedByReaders_iff] at hrd
      · have hn : l.holds.writing = false := by
          rw [← not_eq_true]
          intro hw
          have := hwg hw
          omega
        exact ⟨⟨hu, hhd.resolve_right (by simp [hn]), hn⟩, rfl, rfl⟩
      · rcases hhd with hr | hw
        · have := hra hr
          omega
        · have := hwg hw
          omega
  case unlockTidLoad =>
    have ht := v.tid
    rw [hp] at ht
    rw [mem_singleton] at h
    rw [if_neg (not_not.mpr (ht.mpr ⟨ok.2, rfl⟩))] at h
    cases h
    exact hq hp rfl ⟨ok, rfl, rfl⟩ rfl rfl
  case unlockTidStore =>
    obtain ⟨rfl, rfl⟩ := mem_pair h
    exact ⟨ok, .clearTid ok.2 rfl rfl rfl rfl⟩
  case unlockAnd =>
    obtain ⟨⟨hop, hh, -⟩, hw⟩ := ok
    have ho := v.writing hw
    obtain ⟨rfl, rfl⟩ := mem_pair h
    refine ⟨unlock_after hop ?_ rfl rfl ?_, .writeUnlock hw hp ?_ rfl rfl⟩
    · simp [Thread.hold, Op.after, hop, Op.side, ← hh, hw]
    · simp only [Thread.hold]
      split
      · exact .inl rfl
      · exact .inr rfl
    · rw [(sub_writer (by omega)).1]
      omega
  case unlockSub =>
    obtain ⟨⟨hop, hh, -⟩, hr, hw⟩ := ok
    have ho := v.reading hr
    obtain ⟨rfl, rfl⟩ := mem_pair h
    refine ⟨unlock_after hop ?_ rfl rfl ?_, .readUnlock hr hp ?_ rfl rfl ?_⟩
    · simp [Thread.hold, Op.after, hop, Op.side, ← hh, hw]
    · simp only [Thread.hold]
      split
      · exact .inl rfl
      · exact .inr rfl
    · exact (sub_reader ho.1).1
    · rw [hp]
      simp only [Thread.hold]
      split <;> rfl
  case wake side =>
    cases h

theorem step_left (h : (m', l') ∈ step preferred t m l) (hp : 0 < l.pc.left) (hl : l.pc.left ≤ 2) :
    (l'.pc.left < l.pc.left ∨ l'.pc.left = 3) ∧ l'.op = l.op ∧ l'.start = l.start := by
  have hc : (∃ side, l.pc = .tidLoad side) ∨ ∃ side, l.pc = .tryLoad side .fast := by
    rw [Pc.left.eq_def] at hp hl
    split at hp <;> simp_all
  rcases hc with ⟨side, hpc⟩ | ⟨side, hpc⟩ <;>
    simp only [step, hpc, mem_singleton] at h <;> obtain ⟨rfl, rfl⟩ := mk.inj h <;>
    rw [hpc]
  · split <;> simp [Thread.ret, Thread.goto, Pc.left]
  · rw [Thread.tried]
    split
    · split <;> simp [Thread.failed, Thread.goto, Pc.left]
    · simp [Thread.failed, Thread.goto, Pc.left]

theorem exists_step (preferred) (t : Tid) (m)
    (hp : 0 < l.pc.left) (hl : l.pc.left ≤ 2) : ∃ n, n ∈ step preferred t m l := by
  rw [Pc.left.eq_def] at hp hl
  split at hp <;> simp_all [step]

theorem step_marks (ok : Ok l) (h : (m', l') ∈ step preferred t m l) :
    (m' = m ∨ l'.wrote) ∧ (owners m'.state = owners m.state ∨ l'.moved) := by
  have hs : m' = m → (m' = m ∨ l'.wrote) ∧ (owners m'.state = owners m.state ∨ l'.moved) := by
    intro hm
    exact ⟨.inl hm, .inl (by rw [hm])⟩
  cases hp : l.pc
  all_goals simp only [step, hp] at h
  case outside last | asleep side =>
    obtain ⟨l1, -, h⟩ := mem_map.mp h
    exact hs (mk.inj h).1.symm
  case tryLoad side caller | tidLoad side | checkLoad side | unlockLoad | unlockTidLoad =>
    rw [mem_singleton] at h
    exact hs (mk.inj h).1
  case tryCas side caller old =>
    rcases mem_weakCas.mp h with ⟨-, h⟩ | h
    · cases h
      cases side <;> exact ⟨.inr rfl, .inr rfl⟩
    · exact hs (mk.inj h).1
  case futexWait side serial =>
    rw [mem_append] at h
    rcases h with h | h
    · split at h
      · exact hs (mem_pair h).1
      · cases h
    · obtain ⟨l1, -, h⟩ := mem_map.mp h
      exact hs (mk.inj h).1.symm
  case locking place next =>
    obtain ⟨⟨state, place'⟩, -, h⟩ := mem_map.mp h
    cases h
    exact ⟨.inr rfl, .inl rfl⟩
  case inside now =>
    simp only [Ok, hp] at ok
    rw [mem_singleton] at h
    have hmr := inside_marks m l now
    have ho := (inside_spec (m := m) ok).2.1
    rw [← h] at hmr ho
    exact ⟨hmr, .inl ho⟩
  case unlocking after =>
    obtain ⟨rfl, rfl⟩ := mem_pair h
    refine ⟨.inr ?_, .inl rfl⟩
    split
    · rfl
    cases after with
    | wait side old serial =>
      rw [Thread.released]
      split <;> rfl
    | unpended side timedOut => cases timedOut <;> rfl
    | wake side => rfl
    | done => rfl
  case tidStore | unlockTidStore =>
    obtain ⟨rfl, rfl⟩ := mem_pair h
    exact ⟨.inr rfl, .inl rfl⟩
  case unlockAnd | unlockSub =>
    obtain ⟨rfl, rfl⟩ := mem_pair h
    exact ⟨.inr rfl, .inr rfl⟩
  case unlockWake after | wake side =>
    cases h

end

section
variable {t : Tid} {s s' : State Tid (Rwlock Tid) Thread}

variable [Fintype Tid]

structure Owned (s : State Tid (Rwlock Tid) Thread) : Prop where
  bound : owners s.mem.state ≤ 2 ^ 29
  readers : owners s.mem.state % 2 ^ 29 = total (fun l : Thread => l.holds.reads) s.pc
  writers : owners s.mem.state / 2 ^ 29 = total (fun l : Thread => l.holds.writing.toNat) s.pc
  tid : ∀ u, s.mem.writerTid = some u ↔ (s.pc u).holds.writing ∧ (s.pc u).pc.recorded
  ok : ∀ u, Ok (s.pc u)

theorem initial_owned : Owned (initial Tid) := by
  have ho : owners (initial Tid).mem.state = 0 := by
    change owners 0 = 0
    decide
  constructor
  · rw [ho]
    decide
  · rw [ho]
    exact (total_eq_zero fun _ => rfl).symm
  · rw [ho]
    exact (total_eq_zero fun _ => rfl).symm
  · exact fun u => by simp [initial]
  · exact fun u => trivial

theorem Owned.view (hi : Owned s) (t : Tid) : View t s.mem (s.pc t) := by
  have hb := hi.bound
  have hra := hi.readers
  have hwi := hi.writers
  refine ⟨hb, ?_, ?_, hi.tid t⟩
  · intro hw
    have hl : (s.pc t).holds.writing.toNat ≤ total (fun l : Thread => l.holds.writing.toNat) s.pc :=
      le_total (g := fun l : Thread => l.holds.writing.toNat) t
    rw [hw, toNat_true] at hl
    omega
  · intro hr
    have hl : (s.pc t).holds.reads ≤ total (fun l : Thread => l.holds.reads) s.pc :=
      le_total (g := fun l : Thread => l.holds.reads) t
    omega

theorem Owned.unique (hi : Owned s) {u v} (hu : (s.pc u).holds.writing)
    (hv : (s.pc v).holds.writing) : u = v := by
  by_contra huv
  have hl : (s.pc u).holds.writing.toNat + (s.pc v).holds.writing.toNat ≤
      total (fun l : Thread => l.holds.writing.toNat) s.pc :=
    add_le_total (g := fun l : Thread => l.holds.writing.toNat) huv
  have hw := hi.writers
  have hb := hi.bound
  rw [hu, hv, toNat_true] at hl
  omega

variable {m m' : Rwlock Tid}

variable [DecidableEq Tid]

theorem owned_run (hi : Owned s)
    (h : (m, l) ∈ step preferred t s.mem (s.pc t)) : Owned ⟨m, update s.pc t l⟩ := by
  have v := hi.view t
  obtain ⟨hok, c⟩ := step_change v (hi.ok t) h
  have hr : total (fun l => l.holds.reads) (update s.pc t l) +
      (s.pc t).holds.reads = total (fun l => l.holds.reads) s.pc + l.holds.reads :=
    total_update t l
  have hws : total (fun l => l.holds.writing.toNat) (update s.pc t l) +
      (s.pc t).holds.writing.toNat =
        total (fun l => l.holds.writing.toNat) s.pc + l.holds.writing.toNat :=
    total_update t l
  have hra := hi.readers
  have hwi := hi.writers
  have hb := hi.bound
  have hwd : owners m.state ≤ 2 ^ 29 ∧ owners m.state % 2 ^ 29 =
        total (fun l => l.holds.reads) (update s.pc t l) ∧
      owners m.state / 2 ^ 29 = total (fun l => l.holds.writing.toNat) (update s.pc t l) := by
    cases c with
    | quiet owner _ holds =>
      rw [holds] at hr hws
      omega
    | readLock room owner _ holds =>
      rw [holds] at hr hws
      dsimp only at hr hws
      omega
    | writeLock free owner _ holds =>
      have hw : (s.pc t).holds.writing = false := by
        rw [← not_eq_true]
        intro hw
        have := v.writing hw
        omega
      rw [holds] at hr hws
      rw [hw] at hws
      simp only [toNat_true, toNat_false] at hr hws
      omega
    | storeTid _ owner _ holds | clearTid _ owner _ holds =>
      rw [holds] at hr hws
      omega
    | writeUnlock held _ owner _ holds =>
      have hon := v.writing held
      rw [holds] at hr hws
      rw [held] at hws
      simp only [toNat_true, toNat_false] at hr hws
      omega
    | readUnlock held _ owner _ holds =>
      have hon := v.reading held
      rw [holds] at hr hws
      dsimp only at hr hws
      omega
  refine ⟨hwd.1, hwd.2.1, hwd.2.2, ?_, forall_update hok hi.ok⟩
  intro u
  dsimp only
  by_cases hut : u = t
  · subst hut
    rw [update_self]
    exact v.tid_self c
  rw [update_of_ne hut]
  have ho : (s.pc t).holds.writing → ¬((s.pc u).holds.writing ∧ (s.pc u).pc.recorded) :=
    fun ht hu => hut (hi.unique hu.1 ht)
  have hs : m.writerTid = s.mem.writerTid →
      (m.writerTid = some u ↔ (s.pc u).holds.writing ∧ (s.pc u).pc.recorded) := by
    intro h
    rw [h]
    exact hi.tid u
  cases c with
  | quiet _ tid => exact hs tid
  | readLock _ _ tid | writeLock _ _ tid => exact hs tid
  | storeTid held _ tid =>
    rw [tid]
    exact iff_of_false (fun h => hut (Option.some.inj h).symm) (ho held)
  | clearTid held _ tid =>
    rw [tid]
    exact iff_of_false nofun (ho held)
  | writeUnlock _ _ _ tid | readUnlock _ _ _ tid => exact hs tid

theorem owned_wake {n woken} (hi : Owned s)
    (call : (program Tid preferred).wakes (s.pc t) = some (w, n, l))
    (hw : FutexThreads.Wakes n ((program Tid preferred).sleepers s.pc w) woken) :
    Owned ⟨s.mem, update ((program Tid preferred).awakened s.pc woken) t l⟩ := by
  obtain ⟨ho, hh, hr⟩ := wakes_spec call (hi.ok t)
  have hsm : ∀ u, Ok (update ((program Tid preferred).awakened s.pc woken) t l u) ∧
      (update ((program Tid preferred).awakened s.pc woken) t l u).holds = (s.pc u).holds ∧
      (update ((program Tid preferred).awakened s.pc woken) t l u).pc.recorded =
        (s.pc u).pc.recorded := by
    intro u
    by_cases hut : u = t
    · subst hut
      rw [update_self]
      exact ⟨ho, hh, hr⟩
    rw [update_of_ne hut]
    rcases Program.awakened_cases hw u with hu | ⟨hs, hu⟩ <;> rw [hu]
    · exact ⟨hi.ok u, rfl, rfl⟩
    · exact awaken_spec hs (hi.ok u)
  refine ⟨hi.bound, ?_, ?_, ?_, fun u => (hsm u).1⟩
  · exact hi.readers.trans (total_congr fun u => by rw [(hsm u).2.1]).symm
  · exact hi.writers.trans (total_congr fun u => by rw [(hsm u).2.1]).symm
  intro u
  rw [(hsm u).2.1, (hsm u).2.2]
  exact hi.tid u

theorem reaches_owned (h : (program Tid preferred).Reaches (initial Tid) s) : Owned s := by
  refine h.invariant initial_owned ?_
  intro t s s' hi hs
  cases hs with
  | run next => exact owned_run hi next
  | wake call wakes => exact owned_wake hi call wakes

theorem Owned.relock (hi : Owned s) (h : Relock (s.pc t)) (hp : 0 < (s.pc t).pc.left) :
    (∃ s', (program Tid preferred).Step t s s') ∧
      ∀ s', (program Tid preferred).Step t s s' → (s'.pc t).pc.left < (s.pc t).pc.left := by
  have hl := h.left_le (hi.ok t)
  constructor
  · obtain ⟨⟨m, l⟩, hn⟩ := exists_step preferred t s.mem hp hl
    exact ⟨_, .run hn⟩
  intro s' hs
  cases hs with
  | @run m l next =>
    dsimp only
    rw [update_self]
    obtain ⟨ho, -⟩ := step_change (hi.view t) (hi.ok t) next
    obtain ⟨hlt | ht, hop, hst⟩ := step_left next hp hl
    · exact hlt
    have h' : Relock l := by rwa [Relock, hop, hst]
    have := h'.left_le ho
    omega
  | @wake w n l woken call wakes =>
    rcases wakes_eq_some call with ⟨side, hpc, -⟩ | ⟨after, hpc, -⟩ <;> simp [hpc, Pc.left] at hl

def readerCount (x : BitVec 32) : ℕ := owners x % 2 ^ 29

/-- Along every run a writer excludes all others, the word says who holds the lock, results say what
was changed, and a relock of the writer returns `EDEADLK` in a few steps of its own. -/
theorem writer_excludes (h : (program Tid preferred).Reaches (initial Tid) s) :
    (∀ u v, (s.pc u).holds.writing → (s.pc v).holds.writing → u = v) ∧
      (∀ u v, (s.pc u).holds.writing → (s.pc v).holds.reads = 0) ∧
      readerCount s.mem.state = total (fun l : Thread => l.holds.reads) s.pc ∧
      (stateOwnedByWriter s.mem.state ↔ ∃ u, (s.pc u).holds.writing) ∧
      (∀ u r, (s.pc u).pc = .outside (some r) → Returned (s.pc u) r) ∧
      (∀ u, Relock (s.pc u) → 0 < (s.pc u).pc.left → (∃ s', (program Tid preferred).Step u s s') ∧
          ∀ s', (program Tid preferred).Step u s s' → (s'.pc u).pc.left < (s.pc u).pc.left) ∧
      ∀ u s', (program Tid preferred).Step u s s' → (s'.mem = s.mem ∨ (s'.pc u).wrote) ∧
          (owners s'.mem.state = owners s.mem.state ∨ (s'.pc u).moved) := by
  have hi := reaches_owned h
  refine ⟨fun u v => hi.unique, ?_, hi.readers, ?_, ?_, fun u => hi.relock, ?_⟩
  · intro u v hu
    by_contra hv
    have hw := (hi.view u).writing hu
    have hra := (hi.view v).reading (pos_of_ne_zero hv)
    omega
  · rw [stateOwnedByWriter_iff]
    constructor
    · intro ho
      by_contra hn
      have hz : total (fun l : Thread => l.holds.writing.toNat) s.pc = 0 :=
        total_eq_zero fun u => by
          rw [Bool.eq_false_of_not_eq_true fun hu => hn ⟨u, hu⟩, toNat_false]
      have hwi := hi.writers
      omega
    · rintro ⟨u, hu⟩
      exact ((hi.view u).writing hu).ge
  · intro u r hr
    have hok := hi.ok u
    simpa only [Ok, hr] using hok
  · intro u s' hs
    cases hs with
    | @run m l next =>
      dsimp only
      rw [update_self]
      exact step_marks (hi.ok u) next
    | wake => exact ⟨.inl rfl, .inl rfl⟩

end

local instance neZeroTwo : NeZero 2 := ⟨two_ne_zero⟩

def readAfterWrite : List (Program.Move (Fin 2)) :=
  [.run 0 1] ++ List.replicate 3 (.run 0 0) ++ List.replicate 3 (.run 0 0)

theorem writer_excludes_read_after_write : ∃ s, (program (Fin 2) true).Reaches (initial (Fin 2)) s ∧
      ((s.pc 0).holds.writing ∧ (s.pc 0).pc = .outside (some .EDEADLK)) ∧
      (s.pc 1).holds.reads = 0 ∧ stateOwnedByWriter s.mem.state ∧ (s.pc 0).wrote = false := by
  have hrn : ∃ s, (program (Fin 2) true).Reaches (initial (Fin 2)) s ∧
      (s.pc 0).holds.writing ∧ (s.pc 0).pc = .outside (some .EDEADLK) :=
    Program.exists_reaches readAfterWrite (by decide +kernel)
  obtain ⟨s, hr, hw, hp⟩ := hrn
  obtain ⟨-, hrs, -, ho, hrt, -⟩ := writer_excludes hr
  exact ⟨s, hr, ⟨hw, hp⟩, hrs 0 1 hw, ho.mpr ⟨0, hw⟩, ((hrt 0 .EDEADLK hp).2.2.2 rfl).2⟩

def writeAfterRead : List (Program.Move (Fin 1)) :=
  List.replicate 3 (.run 0 0) ++ [.run 0 1] ++ List.replicate 10 (.run 0 0)

def readAfterRead : List (Program.Move (Fin 2)) :=
  List.replicate 3 (.run 0 0) ++ [.run 1 1] ++ List.replicate 10 (.run 1 0) ++
    List.replicate 11 (.run 0 0)

/-- Two relocks that wait for themselves: a thread that holds the lock for reading sleeps in
`wrlock`, and in `rdlock` behind a writer that waits for it. -/
theorem relock_of_reader_sleeps : (∃ s, (program (Fin 1) false).Reaches (initial (Fin 1)) s ∧
      (s.pc 0).op = .lock .writer ∧ (s.pc 0).holds = ⟨1, false⟩ ∧ (s.pc 0).pc = .asleep .writer) ∧
    ∃ s, (program (Fin 2) true).Reaches (initial (Fin 2)) s ∧
      (s.pc 0).op = .lock .reader ∧ (s.pc 0).holds = ⟨1, false⟩ ∧ (s.pc 0).pc = .asleep .reader ∧
      (s.pc 1).pc = .asleep .writer :=
  ⟨Program.exists_reaches writeAfterRead (by decide +kernel),
    Program.exists_reaches readAfterRead (by decide +kernel)⟩

end PthreadRwlock
