import Bionic.BitFields
import Bionic.FutexThreads

/-! Mutexes without priority inheritance: normal, recursive and error-checking ones. The 16-bit word
`state` holds the type, the shared flag, the counter of a recursive mutex and the lock state;
`owner_tid` is a second word (0 is `none` here) of the other two types. Every access is a step.
`check_timespec` may give any answer, and a futex wait may return at any moment. Programs are 64-bit
ones, where the futex word holds `state` alone. -/
namespace PthreadMutex

open BitVec (ofNat)
open FutexThreads BitVec
open List Function BitFields

def mutexStateMask : BitVec 16 := 0x0003

def mutexCounterMask : BitVec 16 := 0x1ffc

def mutexSharedMask : BitVec 16 := 0x2000

def mutexTypeMask : BitVec 16 := 0xc000

def mutexTypeBitsNormal : BitVec 16 := 0x0000

def mutexTypeBitsRecursive : BitVec 16 := 0x4000

def mutexTypeBitsErrorcheck : BitVec 16 := 0x8000

def mutexStateBitsUnlocked : BitVec 16 := 0

def mutexStateBitsLockedUncontended : BitVec 16 := 1

def mutexStateBitsLockedContended : BitVec 16 := 2

def mutexStateBitsIsLockedUncontended (v : BitVec 16) : Prop :=
  v &&& mutexStateMask = mutexStateBitsLockedUncontended

def mutexStateBitsIsLockedContended (v : BitVec 16) : Prop :=
  v &&& mutexStateMask = mutexStateBitsLockedContended

def mutexStateBitsFlipContention (v : BitVec 16) : BitVec 16 :=
  v ^^^ (mutexStateBitsLockedContended ^^^ mutexStateBitsLockedUncontended)

def mutexCounterBitsWillOverflow (v : BitVec 16) : Prop := v &&& mutexCounterMask = mutexCounterMask

def mutexCounterBitsIsZero (v : BitVec 16) : Prop := v &&& mutexCounterMask = 0

def mutexCounterBitsOne : BitVec 16 := 0x0004

instance (v : BitVec 16) : Decidable (mutexStateBitsIsLockedUncontended v) :=
  inferInstanceAs (Decidable (_ = _))

instance (v : BitVec 16) : Decidable (mutexStateBitsIsLockedContended v) :=
  inferInstanceAs (Decidable (_ = _))

instance (v : BitVec 16) : Decidable (mutexCounterBitsWillOverflow v) :=
  inferInstanceAs (Decidable (_ = _))

instance (v : BitVec 16) : Decidable (mutexCounterBitsIsZero v) :=
  inferInstanceAs (Decidable (_ = _))

inductive MutexType where
  | normal | recursive | errorcheck
  deriving DecidableEq

def pthreadMutexInit (type : MutexType) (pshared : Bool) : BitVec 16 :=
  (if pshared then mutexSharedMask else 0) |||
    match type with
    | .normal => mutexTypeBitsNormal
    | .recursive => mutexTypeBitsRecursive
    | .errorcheck => mutexTypeBitsErrorcheck

structure Mutex (Tid : Type) where
  state : BitVec 16
  ownerTid : Option Tid

inductive Ret where
  | ok | EAGAIN | EBUSY | EDEADLK | EINVAL | EPERM | ETIMEDOUT
  deriving DecidableEq

inductive Op where
  | lock | timedlock | trylock | unlock
  deriving DecidableEq

structure Flags where
  mtype : BitVec 16
  shared : BitVec 16
  deriving DecidableEq

def Flags.of (state : BitVec 16) : Flags := ⟨state &&& mutexTypeMask, state &&& mutexSharedMask⟩

def Flags.unlocked (f : Flags) : BitVec 16 := f.mtype ||| f.shared ||| mutexStateBitsUnlocked

def Flags.lockedUncontended (f : Flags) : BitVec 16 :=
  f.mtype ||| f.shared ||| mutexStateBitsLockedUncontended

def Flags.lockedContended (f : Flags) : BitVec 16 :=
  f.mtype ||| f.shared ||| mutexStateBitsLockedContended

inductive Pc where
  /-- In no mutex operation; the last one returned this. -/
  | outside (last : Option Ret)
  /-- `pthread_mutex_lock` and `__pthread_mutex_timedlock`: the first load, and the fast try. -/
  | lockLoad
  | lockTry (f : Flags)
  | mutexLoad
  /-- `NormalMutexLock`: its try, the exchange of the loop, the futex wait. -/
  | normalTry (f : Flags)
  | normalExchange (f : Flags)
  | normalWait (f : Flags)
  | normalAsleep (f : Flags)
  /-- The rest of `MutexLockWithTimeout`: the load of the owner, the increment of
  `RecursiveIncrement`, the first compare-and-exchange, the two of the loop, the futex wait, the
  load after it, and the store of the owner. -/
  | ownerLoad (f : Flags) (old : BitVec 16)
  | increment
  | fastCas (f : Flags)
  | takeCas (f : Flags)
  | flipCas (f : Flags) (old : BitVec 16)
  | wait (f : Flags) (old : BitVec 16)
  | asleep (f : Flags)
  | reload (f : Flags)
  | ownerStore
  /-- `pthread_mutex_trylock`. -/
  | tryLoad
  | tryNormal (f : Flags)
  | tryOwnerLoad (f : Flags) (old : BitVec 16)
  | tryCas (f : Flags)
  /-- `pthread_mutex_unlock`: its load, the exchange of `NormalMutexUnlock`, the load of the owner,
  the decrement, the store of the owner, the exchange, the wake. -/
  | unlockLoad
  | normalUnlock (f : Flags)
  | unlockOwnerLoad (f : Flags) (old : BitVec 16)
  | decrement
  | unlockOwnerStore (f : Flags)
  | unlockExchange (f : Flags)
  | unlockWake (f : Flags)
  deriving DecidableEq

/-- A thread: its place, how deep it holds the mutex, and of its current or last call the operation,
that depth at its start, and whether it has written to the mutex. -/
structure Thread where
  pc : Pc
  depth : ℕ
  op : Op
  start : ℕ
  wrote : Bool
  deriving DecidableEq

namespace Thread

def goto (l : Thread) (pc : Pc) : Thread := { l with pc := pc }

def ret (l : Thread) (r : Ret) : Thread := { l with pc := .outside (some r) }

def call (l : Thread) (op : Op) (pc : Pc) : Thread := ⟨pc, l.depth, op, l.depth, false⟩

def write (l : Thread) (depth : ℕ) (pc : Pc) : Thread :=
  { l with pc := pc, depth := depth, wrote := true }

/-- `check_timespec`, and then on to this place. -/
def check (l : Thread) (pc : Pc) : List Thread :=
  l.goto pc :: if l.op = .timedlock then [l.ret .EINVAL, l.ret .ETIMEDOUT] else []

def unslept (l : Thread) (pc : Pc) : List Thread :=
  l.goto pc :: if l.op = .timedlock then [l.ret .ETIMEDOUT] else []

/-- The loop of `MutexLockWithTimeout` after `old_state` was read. -/
def loopRead (l : Thread) (f : Flags) (old : BitVec 16) : List Thread :=
  if old = f.unlocked then [l.goto (.takeCas f)]
  else if mutexStateBitsIsLockedUncontended old then [l.goto (.flipCas f old)]
  else l.check (.wait f old)

/-- `RecursiveIncrement`, up to its increment. -/
def recursiveIncrement (l : Thread) (old : BitVec 16) : Thread :=
  if mutexCounterBitsWillOverflow old then l.ret .EAGAIN else l.goto .increment

end Thread

section
variable {Tid : Type} [DecidableEq Tid]

def calls (type : MutexType) (l : Thread) : List Thread :=
  [l.call .lock .lockLoad, l.call .timedlock .lockLoad, l.call .trylock .tryLoad] ++
    if type = .normal ∧ l.depth = 0 then [] else [l.call .unlock .unlockLoad]

def step (type : MutexType) (t : Tid) (m : Mutex Tid) (l : Thread) : List (Mutex Tid × Thread) :=
  match l.pc with
  | .outside _ => (calls type l).map (m, ·)
  | .lockLoad =>
    [(m, l.goto (if (Flags.of m.state).mtype = mutexTypeBitsNormal then .lockTry (Flags.of m.state)
      else .mutexLoad))]
  | .lockTry f =>
    if m.state = f.shared ||| mutexStateBitsUnlocked then
      [({ m with state := f.shared ||| mutexStateBitsLockedUncontended },
        l.write (l.depth + 1) (.outside (some .ok)))]
    else [(m, l.goto .mutexLoad)]
  | .mutexLoad =>
    [(m, l.goto (if (Flags.of m.state).mtype = mutexTypeBitsNormal then
      .normalTry (Flags.of m.state) else .ownerLoad (Flags.of m.state) m.state))]
  | .normalTry f =>
    if m.state = f.shared ||| mutexStateBitsUnlocked then
      [({ m with state := f.shared ||| mutexStateBitsLockedUncontended },
        l.write (l.depth + 1) (.outside (some .ok)))]
    else (l.check (.normalExchange f)).map (m, ·)
  | .normalExchange f =>
    [({ m with state := f.shared ||| mutexStateBitsLockedContended },
      if m.state = f.shared ||| mutexStateBitsUnlocked then
        l.write (l.depth + 1) (.outside (some .ok))
      else l.write l.depth (.normalWait f))]
  | .normalWait f =>
    if m.state = f.shared ||| mutexStateBitsLockedContended then
      (m, l.goto (.normalAsleep f)) :: (l.unslept (.normalExchange f)).map (m, ·)
    else (l.unslept (.normalExchange f)).map (m, ·)
  | .normalAsleep f => (l.unslept (.normalExchange f)).map (m, ·)
  | .ownerLoad f old =>
    if m.ownerTid = some t then
      [(m, if f.mtype = mutexTypeBitsErrorcheck then l.ret .EDEADLK else l.recursiveIncrement old)]
    else if old = f.unlocked then [(m, l.goto (.fastCas f))]
    else (l.loopRead f old).map (m, ·)
  | .increment =>
    [({ m with state := m.state + mutexCounterBitsOne },
      l.write (l.depth + 1) (.outside (some .ok)))]
  | .fastCas f =>
    if m.state = f.unlocked then
      [({ m with state := f.lockedUncontended }, l.write (l.depth + 1) .ownerStore)]
    else (l.loopRead f m.state).map (m, ·)
  | .takeCas f =>
    (if m.state = f.unlocked then
      [({ m with state := f.lockedContended }, l.write (l.depth + 1) .ownerStore)]
    else []) ++ (l.loopRead f m.state).map (m, ·)
  | .flipCas f old =>
    (if m.state = old then
      (({ l with wrote := true } : Thread).check (.wait f (mutexStateBitsFlipContention old))).map
        ({ m with state := mutexStateBitsFlipContention old }, ·)
    else []) ++ (l.loopRead f m.state).map (m, ·)
  | .wait f old =>
    if m.state = old then (m, l.goto (.asleep f)) :: (l.unslept (.reload f)).map (m, ·)
    else (l.unslept (.reload f)).map (m, ·)
  | .asleep f => (l.unslept (.reload f)).map (m, ·)
  | .reload f => (l.loopRead f m.state).map (m, ·)
  | .ownerStore => [({ m with ownerTid := some t }, l.write l.depth (.outside (some .ok)))]
  | .tryLoad =>
    [(m, l.goto (if (Flags.of m.state).mtype = mutexTypeBitsNormal then
      .tryNormal (Flags.of m.state) else .tryOwnerLoad (Flags.of m.state) m.state))]
  | .tryNormal f =>
    if m.state = f.shared ||| mutexStateBitsUnlocked then
      [({ m with state := f.shared ||| mutexStateBitsLockedUncontended },
        l.write (l.depth + 1) (.outside (some .ok)))]
    else [(m, l.ret .EBUSY)]
  | .tryOwnerLoad f old =>
    if m.ownerTid = some t then
      [(m, if f.mtype = mutexTypeBitsErrorcheck then l.ret .EBUSY else l.recursiveIncrement old)]
    else [(m, l.goto (.tryCas f))]
  | .tryCas f =>
    if m.state = f.unlocked then
      [({ m with state := f.lockedUncontended }, l.write (l.depth + 1) .ownerStore)]
    else [(m, l.ret .EBUSY)]
  | .unlockLoad =>
    [(m, l.goto (if (Flags.of m.state).mtype = mutexTypeBitsNormal then
      .normalUnlock (Flags.of m.state) else .unlockOwnerLoad (Flags.of m.state) m.state))]
  | .normalUnlock f =>
    [({ m with state := f.shared ||| mutexStateBitsUnlocked },
      l.write (l.depth - 1) (if m.state = f.shared ||| mutexStateBitsLockedContended then
        .unlockWake f else .outside (some .ok)))]
  | .unlockOwnerLoad f old =>
    if m.ownerTid ≠ some t then [(m, l.ret .EPERM)]
    else [(m, l.goto (if mutexCounterBitsIsZero old then .unlockOwnerStore f else .decrement))]
  | .decrement =>
    [({ m with state := m.state - mutexCounterBitsOne },
      l.write (l.depth - 1) (.outside (some .ok)))]
  | .unlockOwnerStore f => [({ m with ownerTid := none }, l.write l.depth (.unlockExchange f))]
  | .unlockExchange f =>
    [({ m with state := f.unlocked },
      l.write (l.depth - 1) (if mutexStateBitsIsLockedContended m.state then .unlockWake f
        else .outside (some .ok)))]
  | .unlockWake _ => []

end

def sleeps (l : Thread) : Option Bool :=
  match l.pc with
  | .normalAsleep f | .asleep f => some (f.shared != 0)
  | _ => none

def awaken (l : Thread) : Thread :=
  match l.pc with
  | .normalAsleep f => l.goto (.normalExchange f)
  | .asleep f => l.goto (.reload f)
  | _ => l

def wakes (l : Thread) : Option (Bool × WakeCount × Thread) :=
  match l.pc with
  | .unlockWake f => some (f.shared != 0, .upTo 1, l.ret .ok)
  | _ => none

def program (Tid : Type) [DecidableEq Tid] (type : MutexType) :
    Program Tid Bool (Mutex Tid) Thread where
  step := step type
  sleeps := sleeps
  awaken := awaken
  wakes := wakes

def initial (Tid : Type) (type : MutexType) (pshared : Bool) : State Tid (Mutex Tid) Thread :=
  ⟨⟨pthreadMutexInit type pshared, none⟩, fun _ => ⟨.outside none, 0, .lock, 0, false⟩⟩

variable {tag c c' k k' : ℕ}

def word (tag c k : ℕ) : BitVec 16 := ofNat 16 (2 ^ 13 * tag + 2 ^ 2 * c + k)

def tagOf (type : MutexType) (pshared : Bool) : ℕ :=
  pshared.toNat + match type with
    | .normal => 0
    | .recursive => 2
    | .errorcheck => 4

def flags (tag : ℕ) : Flags := ⟨word (2 * (tag / 2)) 0 0, word (tag % 2) 0 0⟩

theorem word_inj (ht : tag < 8) (hc : c < 2048) (hk : k ≤ 2) (hc' : c' < 2048) (hk' : k' ≤ 2) :
    word tag c k = word tag c' k' ↔ c = c' ∧ k = k' := by
  rw [word, word, ofNat_inj (by omega) (by omega)]
  omega

theorem lock_word (hk : k ≤ 2) : word tag c k &&& mutexStateMask = word 0 0 k := by
  rw [word, show mutexStateMask = ofNat 16 ((2 ^ 2 - 1) * 2 ^ 0) from rfl, ofNat_and_mask, word]
  congr 1
  omega

theorem or_low (hk : k ≤ 2) : word tag 0 0 ||| ofNat 16 k = word tag 0 k := by
  rw [word, word, show 2 ^ 13 * tag + 2 ^ 2 * 0 + 0 = 2 ^ 13 * tag by omega,
    ofNat_or_low (by omega)]
  congr 1

theorem or_flags (hk : k ≤ 2) :
    (flags tag).mtype ||| (flags tag).shared ||| ofNat 16 k = word tag 0 k := by
  have hb : (flags tag).mtype ||| (flags tag).shared = word tag 0 0 := by
    change word (2 * (tag / 2)) 0 0 ||| word (tag % 2) 0 0 = _
    rw [word, word, word,
      show 2 ^ 13 * (2 * (tag / 2)) + 2 ^ 2 * 0 + 0 = 2 ^ 14 * (tag / 2) by omega,
      ofNat_or_low (by omega)]
    congr 1
    omega
  rw [hb, or_low hk]

theorem unlocked_flags (tag) : (flags tag).unlocked = word tag 0 0 :=
  or_flags (by decide)

theorem lockedUncontended_flags (tag) : (flags tag).lockedUncontended = word tag 0 1 :=
  or_flags (by decide)

theorem lockedContended_flags (tag) : (flags tag).lockedContended = word tag 0 2 :=
  or_flags (by decide)

theorem flip_word : mutexStateBitsFlipContention (word tag c 1) = word tag c 2 := by
  rw [mutexStateBitsFlipContention, word,
    show mutexStateBitsLockedContended ^^^ mutexStateBitsLockedUncontended = ofNat 16 3 by decide,
    show 2 ^ 13 * tag + 2 ^ 2 * c + 1 = 2 ^ 2 * (2 ^ 11 * tag + c) + 1 by omega,
    ofNat_xor_low (by omega) (by omega), word]
  congr 1
  simp only [Nat.reduceXor]
  omega

theorem word_add_one : word tag c k + mutexCounterBitsOne = word tag (c + 1) k := by
  rw [word, show mutexCounterBitsOne = ofNat 16 4 from rfl, ← ofNat_add, word]
  congr 1
  omega

theorem word_sub_one : word tag (c + 1) k - mutexCounterBitsOne = word tag c k := by
  rw [← word_add_one, add_sub_cancel]

theorem isUncontended_word (hk : k ≤ 2) :
    mutexStateBitsIsLockedUncontended (word tag c k) ↔ k = 1 := by
  rw [mutexStateBitsIsLockedUncontended, lock_word hk,
    show mutexStateBitsLockedUncontended = word 0 0 1 from rfl,
    word_inj (by omega) (by omega) hk (by omega) (by omega)]
  omega

theorem isContended_word (hk : k ≤ 2) : mutexStateBitsIsLockedContended (word tag c k) ↔ k = 2 := by
  rw [mutexStateBitsIsLockedContended, lock_word hk,
    show mutexStateBitsLockedContended = word 0 0 2 from rfl,
    word_inj (by omega) (by omega) hk (by omega) (by omega)]
  omega

section
variable (hc : c < 2048)
include hc

variable (hk : k ≤ 2)
include hk

theorem type_word (ht : tag < 8) : word tag c k &&& mutexTypeMask = word (2 * (tag / 2)) 0 0 := by
  rw [word, show mutexTypeMask = ofNat 16 ((2 ^ 2 - 1) * 2 ^ 14) from rfl, ofNat_and_mask, word]
  congr 1
  omega

theorem shared_word : word tag c k &&& mutexSharedMask = word (tag % 2) 0 0 := by
  rw [word, show mutexSharedMask = ofNat 16 ((2 ^ 1 - 1) * 2 ^ 13) from rfl, ofNat_and_mask, word]
  congr 1
  omega

theorem counter_word : word tag c k &&& mutexCounterMask = word 0 c 0 := by
  rw [word, show mutexCounterMask = ofNat 16 ((2 ^ 11 - 1) * 2 ^ 2) from rfl, ofNat_and_mask, word]
  congr 1
  omega

theorem flags_of_word (ht : tag < 8) : Flags.of (word tag c k) = flags tag := by
  rw [Flags.of, type_word hc hk ht, shared_word hc hk, flags]

theorem willOverflow_word : mutexCounterBitsWillOverflow (word tag c k) ↔ c = 2047 := by
  rw [mutexCounterBitsWillOverflow, counter_word hc hk,
    show mutexCounterMask = word 0 2047 0 from rfl,
    word_inj (by omega) hc (by omega) (by omega) (by omega)]
  omega

theorem isZero_word : mutexCounterBitsIsZero (word tag c k) ↔ c = 0 := by
  rw [mutexCounterBitsIsZero, counter_word hc hk, show (0 : BitVec 16) = word 0 0 0 from rfl,
    word_inj (by omega) hc (by omega) (by omega) (by omega)]
  omega

end

theorem tagOf_lt (type pshared) : tagOf type pshared < 8 := by
  cases type <;> cases pshared <;> decide

theorem pthreadMutexInit_eq (type pshared) :
    pthreadMutexInit type pshared = word (tagOf type pshared) 0 0 := by
  cases type <;> cases pshared <;> decide

theorem mtype_flags (type pshared) :
    ((flags (tagOf type pshared)).mtype = mutexTypeBitsNormal ↔ type = .normal) ∧
      ((flags (tagOf type pshared)).mtype = mutexTypeBitsErrorcheck ↔ type = .errorcheck) := by
  cases type <;> cases pshared <;> decide

theorem shared_or_normal (pshared) (hk : k ≤ 2) :
    (flags (tagOf .normal pshared)).shared ||| ofNat 16 k = word (tagOf .normal pshared) 0 k := by
  have ht : tagOf .normal pshared % 2 = tagOf .normal pshared := by cases pshared <;> decide
  change word (tagOf .normal pshared % 2) 0 0 ||| _ = _
  rw [ht, or_low hk]

theorem shared_or_unlocked (pshared) :
    (flags (tagOf .normal pshared)).shared ||| mutexStateBitsUnlocked =
      word (tagOf .normal pshared) 0 0 :=
  shared_or_normal pshared (by decide)

theorem shared_or_lockedUncontended (pshared) :
    (flags (tagOf .normal pshared)).shared ||| mutexStateBitsLockedUncontended =
      word (tagOf .normal pshared) 0 1 :=
  shared_or_normal pshared (by decide)

theorem shared_or_lockedContended (pshared) :
    (flags (tagOf .normal pshared)).shared ||| mutexStateBitsLockedContended =
      word (tagOf .normal pshared) 0 2 :=
  shared_or_normal pshared (by decide)

def Ret.depth (r : Ret) (op : Op) (start : ℕ) : ℕ :=
  if r = .ok then if op = .unlock then start - 1 else start + 1 else start

/-- Only success changes how deep the caller holds the mutex, a recursive lock at the limit gets
`EAGAIN`, an unlock by another than the holder `EPERM`, and neither writes. -/
def Returned (type : MutexType) (l : Thread) (r : Ret) : Prop :=
  l.depth = r.depth l.op l.start ∧
    (type = .recursive → l.op ≠ .unlock → l.start = 2048 → r = .EAGAIN) ∧
    (type ≠ .normal → l.op = .unlock → l.start = 0 → r = .EPERM) ∧
    (r = .EAGAIN ∨ r = .EPERM → l.wrote = false)

/-- Read when the thread held the mutex as deep as it does now. -/
def ReadWord (tag depth : ℕ) (old : BitVec 16) : Prop :=
  ∃ c k, old = word tag c k ∧ c < 2048 ∧ k ≤ 2 ∧ (k = 0 → c = 0) ∧ (0 < depth → depth = c + 1)

/-- Does not hold the recursive or error-checking mutex it is about to lock. -/
def Contends (type : MutexType) (tag : ℕ) (f : Flags) (l : Thread) : Prop :=
  type ≠ .normal ∧ f = flags tag ∧ l.op ≠ .unlock ∧ l.start = 0 ∧ l.depth = 0

def Ok (type : MutexType) (tag : ℕ) (l : Thread) : Prop :=
  match l.pc with
  | .outside none => True
  | .outside (some r) => Returned type l r
  | .lockLoad | .mutexLoad | .tryLoad => l.op ≠ .unlock ∧ l.start = l.depth ∧ l.wrote = false
  | .lockTry f | .normalTry f | .tryNormal f =>
    type = .normal ∧ f = flags tag ∧ l.op ≠ .unlock ∧ l.start = l.depth ∧ l.wrote = false
  | .normalExchange f | .normalWait f | .normalAsleep f =>
    type = .normal ∧ f = flags tag ∧ l.op ≠ .unlock ∧ l.start = l.depth
  | .ownerLoad f old | .tryOwnerLoad f old =>
    type ≠ .normal ∧ f = flags tag ∧ l.op ≠ .unlock ∧ l.start = l.depth ∧ l.wrote = false ∧
      ReadWord tag l.depth old
  | .increment =>
    type = .recursive ∧ l.op ≠ .unlock ∧ l.start = l.depth ∧ 0 < l.depth ∧ l.depth < 2048
  | .fastCas f | .takeCas f | .asleep f | .reload f | .tryCas f => Contends type tag f l
  | .flipCas f old => Contends type tag f l ∧ mutexStateBitsIsLockedUncontended old
  | .wait f old => Contends type tag f l ∧ mutexStateBitsIsLockedContended old
  | .ownerStore => type ≠ .normal ∧ l.op ≠ .unlock ∧ l.start = 0 ∧ l.depth = 1
  | .unlockLoad =>
    l.op = .unlock ∧ l.start = l.depth ∧ l.wrote = false ∧ (type = .normal → 0 < l.depth)
  | .normalUnlock f =>
    type = .normal ∧ f = flags tag ∧ l.op = .unlock ∧ l.start = l.depth ∧ 0 < l.depth
  | .unlockOwnerLoad f old =>
    type ≠ .normal ∧ f = flags tag ∧ l.op = .unlock ∧ l.start = l.depth ∧ l.wrote = false ∧
      ReadWord tag l.depth old
  | .decrement => type ≠ .normal ∧ l.op = .unlock ∧ l.start = l.depth ∧ 1 < l.depth
  | .unlockOwnerStore f | .unlockExchange f =>
    type ≠ .normal ∧ f = flags tag ∧ l.op = .unlock ∧ l.start = 1 ∧ l.depth = 1
  | .unlockWake f => f = flags tag ∧ l.op = .unlock ∧ l.start = l.depth + 1

/-- Whether the holder stands in `owner_tid`. -/
def Pc.recorded : Pc → Bool
  | .ownerStore | .unlockExchange _ => false
  | _ => true

/-- An unlock about to wake somebody, or a locker about to take the mutex or to mark it as
contended. -/
def Pc.rouses : Pc → Bool
  | .unlockWake _ | .normalExchange _ | .reload _ | .takeCas _ | .flipCas .. => true
  | _ => false

variable {Tid : Type} {type : MutexType} {pshared : Bool} {l l' : Thread}

section
variable {t : Tid} {m m' : Mutex Tid} {f : Flags} {old : BitVec 16}

/-- The mutex with this counter and lock state, as a thread sees it. -/
structure View (type : MutexType) (pshared : Bool) (c k : ℕ) (t : Tid) (m : Mutex Tid)
    (l : Thread) : Prop where
  state : m.state = word (tagOf type pshared) c k
  counter : c < 2048
  lock : k ≤ 2
  free : k = 0 → c = 0
  plain : type ≠ .recursive → c = 0
  holds : 0 < l.depth → k ≠ 0 ∧ l.depth = c + 1
  owner : type ≠ .normal → (m.ownerTid = some t ↔ 0 < l.depth ∧ l.pc.recorded)

/-- A step: the thread does not hold the mutex before or after, and the counter and the lock stay;
or nobody else can hold it before, and then it is locked exactly if this thread holds it. -/
structure Effect (type : MutexType) (pshared : Bool) (c k : ℕ) (t : Tid) (m : Mutex Tid)
    (l : Thread) (c' k' : ℕ) (m' : Mutex Tid) (l' : Thread) : Prop where
  view : View type pshared c' k' t m' l'
  ok : Ok type (tagOf type pshared) l'
  holding : (l.depth = 0 ∧ l'.depth = 0 ∧ c' = c ∧ (k' = 0 ↔ k = 0)) ∨
    ((0 < l.depth ∨ k = 0) ∧ (k' = 0 ↔ l'.depth = 0))
  ownerTid : m'.ownerTid = m.ownerTid ∨ 0 < l.depth ∧ (m'.ownerTid = none ∨ m'.ownerTid = some t)
  sleep : sleeps l' ≠ none → k' = 2
  rouse : k = 2 ∨ l.pc.rouses → k' = 2 ∨ l'.pc.rouses

theorem View.quiet (v : View type pshared c k t m l) (ok : Ok type (tagOf type pshared) l')
    (depth : l'.depth = l.depth) (recorded : l'.pc.recorded = l.pc.recorded)
    (sleep : sleeps l' ≠ none → k = 2) (rouse : l.pc.rouses → k = 2 ∨ l'.pc.rouses) :
    Effect type pshared c k t m l c k m l' := by
  constructor
  · exact ⟨v.state, v.counter, v.lock, v.free, v.plain, by rw [depth]; exact v.holds,
      by rw [depth, recorded]; exact v.owner⟩
  · exact ok
  · have hh := v.holds
    by_cases hd : l.depth = 0
    · exact .inl ⟨hd, by omega, rfl, Iff.rfl⟩
    · exact .inr ⟨.inl (by omega), by omega⟩
  · exact .inl rfl
  · exact sleep
  · rintro (h | h)
    · exact .inl h
    · exact rouse h

theorem View.acquire (v : View type pshared c 0 t m l) (hk : k' = 1 ∨ k' = 2)
    (ok : Ok type (tagOf type pshared) l') (depth : l'.depth = l.depth + 1)
    (recorded : type ≠ .normal → l'.pc.recorded = false) (sleep : sleeps l' = none)
    (rouse : l.pc.rouses → k' = 2) :
    Effect type pshared c 0 t m l 0 k' { m with state := word (tagOf type pshared) 0 k' } l' := by
  have hd : l.depth = 0 := by
    by_contra hd
    exact (v.holds (by omega)).1 rfl
  constructor
  · refine ⟨rfl, by omega, by omega, by omega, fun _ => rfl, by omega, ?_⟩
    intro h
    have ho := v.owner h
    rw [recorded h]
    simpa [hd] using ho
  · exact ok
  · exact .inr ⟨.inr rfl, by omega⟩
  · exact .inl rfl
  · exact fun h => absurd sleep h
  · rintro (h | h)
    · cases h
    · exact .inl (rouse h)

section
variable (v : View type pshared c k t m l)
include v

theorem View.mark (hk : k ≠ 0) (ok : Ok type (tagOf type pshared) l') (depth : l'.depth = l.depth)
    (recorded : l'.pc.recorded = l.pc.recorded) :
    Effect type pshared c k t m l c 2 { m with state := word (tagOf type pshared) c 2 } l' := by
  constructor
  · refine ⟨rfl, v.counter, le_refl 2, by omega, v.plain, ?_, ?_⟩
    · intro h
      have hh := v.holds (by omega)
      omega
    · rw [depth, recorded]
      exact v.owner
  · exact ok
  · by_cases hd : l.depth = 0
    · exact .inl ⟨hd, by omega, rfl, by omega⟩
    · exact .inr ⟨.inl (by omega), by omega⟩
  · exact .inl rfl
  · exact fun _ => rfl
  · exact fun _ => .inl rfl

theorem View.recount (type_eq : type = .recursive)
    (held : 0 < l.depth) (hc : c' < 2048) (ok : Ok type (tagOf type pshared) l')
    (depth : l'.depth = c' + 1) (hl : l.pc.recorded) (hl' : l'.pc.recorded)
    (sleep : sleeps l' = none) (rouse : l.pc.rouses = false) :
    Effect type pshared c k t m l c' k { m with state := word (tagOf type pshared) c' k } l' := by
  have hk := (v.holds held).1
  constructor
  · refine ⟨rfl, hc, v.lock, fun h => absurd h hk, fun h => absurd type_eq h,
      fun _ => ⟨hk, depth⟩, ?_⟩
    intro h
    have ho := v.owner h
    rw [hl']
    rw [hl] at ho
    have : 0 < l'.depth := by omega
    simpa [held, this] using ho
  · exact ok
  · exact .inr ⟨.inl held, by omega⟩
  · exact .inl rfl
  · exact fun h => absurd sleep h
  · rintro (h | h)
    · exact .inl h
    · rw [rouse] at h
      cases h

theorem View.release (held : l.depth = 1)
    (ok : Ok type (tagOf type pshared) l') (depth : l'.depth = 0)
    (recorded : type ≠ .normal → l.pc.recorded = false) (sleep : sleeps l' = none)
    (rouse : k = 2 → l'.pc.rouses) (hl : l.pc.rouses = false) :
    Effect type pshared c k t m l 0 0 { m with state := word (tagOf type pshared) 0 0 } l' := by
  constructor
  · refine ⟨rfl, by omega, by omega, fun _ => rfl, fun _ => rfl, by omega, ?_⟩
    intro h
    have ho := v.owner h
    rw [recorded h] at ho
    simpa [depth] using ho
  · exact ok
  · exact .inr ⟨.inl (by omega), by omega⟩
  · exact .inl rfl
  · exact fun h => absurd sleep h
  · rintro (h | h)
    · exact .inr (rouse h)
    · rw [hl] at h
      cases h

theorem View.storeOwner {o} (held : 0 < l.depth)
    (ho : o = none ∨ o = some t) (ok : Ok type (tagOf type pshared) l') (depth : l'.depth = l.depth)
    (recorded : o = some t ↔ l'.pc.recorded) (sleep : sleeps l' = none) (hl : l.pc.rouses = false) :
    Effect type pshared c k t m l c k { m with ownerTid := o } l' := by
  have hh := v.holds held
  constructor
  · refine ⟨v.state, v.counter, v.lock, v.free, v.plain, by omega, fun _ => ?_⟩
    rw [depth, recorded]
    simp [held]
  · exact ok
  · exact .inr ⟨.inl held, by omega⟩
  · exact .inr ⟨held, ho⟩
  · exact fun h => absurd sleep h
  rintro (h | h)
  · exact .inl h
  · rw [hl] at h
    cases h

end

/-- The owner is recorded, and no sleeper relies on the thread. -/
def Pc.Calm (pc : Pc) : Prop := pc.recorded ∧ pc.rouses = false

theorem Pc.Calm.of_eq {pc pc' : Pc} (h : pc = pc') (hcm : pc'.Calm) : pc.Calm := h ▸ hcm

variable {r : Ret}

theorem returned_normal (hr : r ≠ .EAGAIN ∧ r ≠ .EPERM)
    (hd : l.depth = r.depth l.op l.start) : Returned .normal l r := by
  refine ⟨hd, nofun, fun h => absurd rfl h, ?_⟩
  rintro (h | h)
  · exact absurd h hr.1
  · exact absurd h hr.2

theorem returned_unlock (hop : l.op = .unlock) (hsa : l.start = l.depth + 1) :
    Returned type l .ok := by
  refine ⟨?_, fun _ h => absurd hop h, fun _ _ h => ?_, by simp⟩
  · simp [Ret.depth, hop, hsa]
  · omega

theorem returned_lock (hop : l.op ≠ .unlock) (hsa : l.depth = l.start + 1)
    (hl : type = .recursive → l.start < 2048) : Returned type l .ok := by
  refine ⟨?_, fun h _ hs => ?_, fun _ h => absurd h hop, by simp⟩
  · simp [Ret.depth, hop, hsa]
  · exact absurd hs (hl h).ne

theorem Contends.congr (h : Contends type tag f l) (op : l'.op = l.op)
    (start : l'.start = l.start) (depth : l'.depth = l.depth) : Contends type tag f l' := by
  obtain ⟨hty, hf, hop, hsa, hd⟩ := h
  exact ⟨hty, hf, by rwa [op], by rwa [start], by rwa [depth]⟩

theorem Contends.returned (h : Contends type tag f l)
    (hr : r ≠ .EAGAIN ∧ r ≠ .EPERM ∧ r ≠ .ok) : Returned type l r := by
  obtain ⟨hty, hf, hop, hsa, hd⟩ := h
  refine ⟨by rw [Ret.depth, if_neg hr.2.2, hsa, hd], fun _ _ h => by omega,
    fun _ h => absurd h hop, ?_⟩
  rintro (h | h)
  · exact absurd h hr.1
  · exact absurd h hr.2.1

theorem mem_check {pc} (h : l' ∈ l.check pc) :
    l' = l.goto pc ∨ l' = l.ret .EINVAL ∨ l' = l.ret .ETIMEDOUT := by
  rw [Thread.check] at h
  split at h
  · simpa using h
  · exact .inl (List.mem_singleton.mp h)

theorem mem_unslept {pc} (h : l' ∈ l.unslept pc) : l' = l.goto pc ∨ l' = l.ret .ETIMEDOUT := by
  rw [Thread.unslept] at h
  split at h
  · simpa using h
  · exact .inl (List.mem_singleton.mp h)

theorem loopRead_spec (ht : tag < 8) (hc : c < 2048) (hk : k ≤ 2) (hfe : k = 0 → c = 0)
    (h : Contends type tag f l) (hl : l' ∈ l.loopRead f (word tag c k)) :
    Ok type tag l' ∧ l'.depth = l.depth ∧ l'.pc.recorded ∧ sleeps l' = none ∧
      (k = 2 ∨ l'.pc.rouses) := by
  obtain ⟨-, hf, -⟩ := id h
  rw [Thread.loopRead, hf, unlocked_flags] at hl
  split at hl
  · obtain rfl := List.mem_singleton.mp hl
    exact ⟨hf ▸ h.congr rfl rfl rfl, rfl, rfl, rfl, .inr rfl⟩
  rename_i hn
  rw [word_inj ht hc hk (by omega) (by omega)] at hn
  split at hl
  · obtain rfl := List.mem_singleton.mp hl
    exact ⟨⟨hf ▸ h.congr rfl rfl rfl, by assumption⟩, rfl, rfl, rfl, .inr rfl⟩
  rename_i hu
  rw [isUncontended_word hk] at hu
  have hk2 : k = 2 := by omega
  rcases mem_check hl with rfl | rfl | rfl
  · exact ⟨⟨hf ▸ h.congr rfl rfl rfl, (isContended_word hk).mpr hk2⟩, rfl, rfl, rfl, .inl hk2⟩
  all_goals exact ⟨h.returned (by decide), rfl, rfl, rfl, .inl hk2⟩

section
variable (v : View type pshared c k t m l)
include v

theorem View.stay (hcm : l.pc.Calm)
    (ok : Ok type (tagOf type pshared) l') (depth : l'.depth = l.depth)
    (recorded : l'.pc.recorded) (sleep : sleeps l' = none) :
    Effect type pshared c k t m l c k m l' := by
  refine v.quiet ok depth (recorded.trans hcm.1.symm) (fun h => absurd sleep h) fun h => ?_
  rw [hcm.2] at h
  cases h

theorem View.unlock {p : Prop} [Decidable p] (hp : k = 2 → p)
    (hd : l.depth = 1) (hop : l.op = .unlock) (hsa : l.start = l.depth)
    (hr : type ≠ .normal → l.pc.recorded = false) (hro : l.pc.rouses = false) :
    Effect type pshared c k t m l 0 0 { m with state := word (tagOf type pshared) 0 0 }
      (l.write (l.depth - 1)
        (if p then .unlockWake (flags (tagOf type pshared)) else .outside (some .ok))) := by
  refine v.release hd ?_ (by simp [Thread.write, hd]) hr ?_ ?_ hro
  · have hs' : l.start = l.depth - 1 + 1 := by omega
    split
    · exact ⟨rfl, hop, hs'⟩
    · exact returned_unlock hop hs'
  · split <;> rfl
  · intro hk
    rw [if_pos (hp hk)]
    rfl

theorem View.loopRead (h : Contends type (tagOf type pshared) f l) (hr : l.pc.recorded)
    (hl : l' ∈ l.loopRead f m.state) : Effect type pshared c k t m l c k m l' := by
  rw [v.state] at hl
  obtain ⟨ho, hd, hr', hs, hro⟩ :=
    loopRead_spec (tagOf_lt type pshared) v.counter v.lock v.free h hl
  exact v.quiet ho hd (hr'.trans hr.symm) (fun h => absurd hs h) fun _ => hro

theorem View.readWord : ReadWord (tagOf type pshared) l.depth m.state :=
  ⟨c, k, v.state, v.counter, v.lock, v.free, fun h => (v.holds h).2⟩

theorem View.read_flags : Flags.of m.state = flags (tagOf type pshared) := by
  rw [v.state, flags_of_word v.counter v.lock (tagOf_lt type pshared)]

theorem View.takeLock (h : Contends type (tagOf type pshared) f l) (hm : m.state = f.unlocked)
    (hk : k' = 1 ∨ k' = 2) (hr : l.pc.rouses → k' = 2) :
    ∃ c' k'', Effect type pshared c k t m l c' k''
      { m with state := word (tagOf type pshared) 0 k' } (l.write (l.depth + 1) .ownerStore) := by
  obtain ⟨hty, rfl, hop, hsa, hd⟩ := h
  rw [v.state, unlocked_flags,
    word_inj (tagOf_lt _ _) v.counter v.lock (by decide) (by decide)] at hm
  obtain ⟨rfl, rfl⟩ := hm
  refine ⟨0, k', v.acquire hk ⟨hty, hop, hsa, ?_⟩ rfl (fun _ => rfl) rfl hr⟩
  change l.depth + 1 = 1
  omega

section
variable (hty : type ≠ .normal) (hf : f = flags (tagOf type pshared)) (hop : l.op ≠ .unlock)
  (hsa : l.start = l.depth)
include hty hf hop hsa

theorem View.relock (hw : l.wrote = false) (hod : ReadWord (tagOf type pshared) l.depth old)
    (hcm : l.pc.Calm) (hr : r ≠ .EAGAIN ∧ r ≠ .EPERM ∧ r ≠ .ok) (ho : m.ownerTid = some t) :
    Effect type pshared c k t m l c k m
      (if f.mtype = mutexTypeBitsErrorcheck then l.ret r else l.recursiveIncrement old) := by
  obtain ⟨c0, k0, rfl, hc0, hk0, -, hdp⟩ := hod
  have hh : 0 < l.depth := ((v.owner hty).mp ho).1
  have hd := hdp hh
  split <;> rename_i herr
  · rw [hf, (mtype_flags type pshared).2] at herr
    refine v.stay hcm ⟨?_, fun h => ?_, fun _ h => absurd h hop, ?_⟩ rfl rfl rfl
    · rw [Ret.depth, if_neg hr.2.2]
      exact hsa.symm
    · rw [herr] at h
      cases h
    rintro (h | h)
    · exact absurd h hr.1
    · exact absurd h hr.2.1
  · rw [hf, (mtype_flags type pshared).2] at herr
    have hrc : type = .recursive := by
      cases type with
      | normal => exact absurd rfl hty
      | recursive => rfl
      | errorcheck => exact absurd rfl herr
    rw [Thread.recursiveIncrement]
    split
    · exact v.stay hcm
        ⟨hsa.symm, fun _ _ _ => rfl, fun _ h => absurd h hop, fun _ => hw⟩ rfl rfl rfl
    rename_i hov
    rw [willOverflow_word hc0 hk0] at hov
    refine v.stay hcm ⟨hrc, hop, hsa, hh, ?_⟩ rfl rfl rfl
    change l.depth < 2048
    omega

theorem View.contends (hr : l.pc.recorded) (ho : m.ownerTid ≠ some t) :
    Contends type (tagOf type pshared) f l := by
  have hdp : l.depth = 0 := by
    by_contra hd
    exact ho ((v.owner hty).mpr ⟨by omega, hr⟩)
  exact ⟨hty, hf, hop, hsa.trans hdp, hdp⟩

end

theorem View.unslept (h : Contends type (tagOf type pshared) f l) (hcm : l.pc.Calm)
    (hl : l' ∈ l.unslept (.reload f)) : Effect type pshared c k t m l c k m l' := by
  rcases mem_unslept hl with rfl | rfl
  · exact v.stay hcm (h.congr rfl rfl rfl) rfl rfl rfl
  · exact v.stay hcm (h.returned (by decide)) rfl rfl rfl

variable [DecidableEq Tid]

theorem effect_outside {last} (hp : l.pc = .outside last)
    (h : (m', l') ∈ step type t m l) : Effect type pshared c k t m l c k m' l' := by
  have hcm := Pc.Calm.of_eq hp ⟨rfl, rfl⟩
  rw [step, hp] at h
  obtain ⟨rfl, hl⟩ := mem_map_pair h
  rw [calls] at hl
  have hcs : l' = l.call .lock .lockLoad ∨ l' = l.call .timedlock .lockLoad ∨
      l' = l.call .trylock .tryLoad ∨
      (l' = l.call .unlock .unlockLoad ∧ ¬(type = .normal ∧ l.depth = 0)) := by
    split at hl <;> simp_all
  rcases hcs with rfl | rfl | rfl | ⟨rfl, hn⟩
  · exact v.stay hcm ⟨nofun, rfl, rfl⟩ rfl rfl rfl
  · exact v.stay hcm ⟨nofun, rfl, rfl⟩ rfl rfl rfl
  · exact v.stay hcm ⟨nofun, rfl, rfl⟩ rfl rfl rfl
  refine v.stay hcm ⟨rfl, rfl, rfl, fun h => ?_⟩ rfl rfl rfl
  change 0 < l.depth
  by_contra hd
  exact hn ⟨h, by omega⟩

end

section
variable (v : View .normal pshared c k t m l) (hf : f = flags (tagOf .normal pshared))
  (hop : l.op ≠ .unlock) (hsa : l.start = l.depth)
include v hf hop hsa

theorem View.tryLock (hr : l.pc.rouses = false)
    (hm : m.state = f.shared ||| mutexStateBitsUnlocked) :
    ∃ c' k', Effect .normal pshared c k t m l c' k'
      { m with state := f.shared ||| mutexStateBitsLockedUncontended }
      (l.write (l.depth + 1) (.outside (some .ok))) := by
  subst hf
  rw [v.state, shared_or_unlocked,
    word_inj (tagOf_lt _ _) v.counter v.lock (by decide) (by decide)] at hm
  obtain ⟨rfl, rfl⟩ := hm
  rw [shared_or_lockedUncontended]
  refine ⟨0, 1, v.acquire (.inl rfl) ?_ rfl (by simp) rfl (by simp [hr])⟩
  exact returned_lock hop (congrArg (· + 1) hsa.symm) nofun

theorem View.unsleptNormal (hcm : l.pc.Calm) (h : l' ∈ l.unslept (.normalExchange f)) :
    Effect .normal pshared c k t m l c k m l' := by
  rcases mem_unslept h with rfl | rfl
  · exact v.stay hcm ⟨rfl, hf, hop, hsa⟩ rfl rfl rfl
  · exact v.stay hcm (returned_normal (by decide) hsa.symm) rfl rfl rfl

end

variable [DecidableEq Tid]

section
variable (v : View type pshared c k t m l) (ok : Ok type (tagOf type pshared) l)
  (h : (m', l') ∈ step type t m l)
include v ok h

theorem effect_load
    (hp : l.pc = .lockLoad ∨ l.pc = .mutexLoad ∨ l.pc = .tryLoad ∨ l.pc = .unlockLoad) :
    Effect type pshared c k t m l c k m' l' := by
  have hcm : l.pc.Calm := by
    rcases hp with hp | hp | hp | hp <;> rw [hp] <;> exact ⟨rfl, rfl⟩
  have hn := (mtype_flags type pshared).1
  rcases hp with hp | hp | hp | hp <;> simp only [Ok, hp] at ok <;>
    simp only [step, hp, v.read_flags, hn, mem_singleton] at h <;>
    cases h
  case inr.inl | inr.inr.inl =>
    obtain ⟨hop, hsa, hw⟩ := ok
    split
    · exact v.stay hcm ⟨by assumption, rfl, hop, hsa, hw⟩ rfl rfl rfl
    · exact v.stay hcm ⟨by assumption, rfl, hop, hsa, hw, v.readWord⟩ rfl rfl rfl
  · obtain ⟨hop, hsa, hw⟩ := ok
    split
    · exact v.stay hcm ⟨by assumption, rfl, hop, hsa, hw⟩ rfl rfl rfl
    · exact v.stay hcm ⟨hop, hsa, hw⟩ rfl rfl rfl
  · obtain ⟨hop, hsa, hw, hh⟩ := ok
    split
    · exact v.stay hcm ⟨by assumption, rfl, hop, hsa, hh (by assumption)⟩ rfl rfl rfl
    · exact v.stay hcm ⟨by assumption, rfl, hop, hsa, hw, v.readWord⟩ rfl rfl rfl

theorem effect_normalExchange (hp : l.pc = .normalExchange f) :
    ∃ c' k', Effect type pshared c k t m l c' k' m' l' := by
  simp only [Ok, hp] at ok
  obtain ⟨rfl, rfl, hop, hsa⟩ := ok
  simp only [step, hp] at h
  obtain ⟨rfl, rfl⟩ := mem_pair h
  obtain rfl : c = 0 := v.plain nofun
  rw [shared_or_lockedContended, shared_or_unlocked]
  split <;> rename_i hm
  · rw [v.state, word_inj (tagOf_lt _ _) v.counter v.lock (by decide) (by decide)] at hm
    obtain ⟨-, rfl⟩ := hm
    exact ⟨0, 2, v.acquire (.inr rfl) (returned_lock hop (congrArg (· + 1) hsa.symm) nofun) rfl
      (by simp) rfl fun _ => rfl⟩
  · have hk : k ≠ 0 := by
      rintro rfl
      exact hm v.state
    exact ⟨0, 2, v.mark hk ⟨rfl, rfl, hop, hsa⟩ rfl (by rw [hp]; rfl)⟩

theorem effect_ownerLoad (hp : l.pc = .ownerLoad f old) :
    ∃ c' k', Effect type pshared c k t m l c' k' m' l' := by
  simp only [Ok, hp] at ok
  obtain ⟨hty, hf, hop, hsa, hw, hod⟩ := ok
  have hcm := Pc.Calm.of_eq hp ⟨rfl, rfl⟩
  refine ⟨c, k, ?_⟩
  simp only [step, hp] at h
  split at h
  · obtain ⟨rfl, rfl⟩ := mem_pair h
    exact v.relock hty hf hop hsa hw hod hcm (by decide) (by assumption)
  rename_i ho
  have hcn := v.contends hty hf hop hsa hcm.1 ho
  split at h
  · obtain ⟨rfl, rfl⟩ := mem_pair h
    exact v.stay hcm (hcn.congr rfl rfl rfl) rfl rfl rfl
  obtain ⟨rfl, hl⟩ := mem_map_pair h
  obtain ⟨c0, k0, rfl, hc0, hk0, hf0, -⟩ := hod
  obtain ⟨hok, hd, hr', hs, -⟩ :=
    loopRead_spec (tagOf_lt type pshared) hc0 hk0 hf0 hcn hl
  exact v.quiet hok hd (hr'.trans hcm.1.symm) (fun h => absurd hs h) (by simp [hcm.2])

theorem effect_flipCas (hp : l.pc = .flipCas f old) :
    ∃ c' k', Effect type pshared c k t m l c' k' m' l' := by
  simp only [Ok, hp] at ok
  obtain ⟨hcn, ho⟩ := ok
  simp only [step, hp, mem_append] at h
  rcases h with h | h
  · split at h
    · rename_i hm
      subst hm
      rw [v.state, isUncontended_word v.lock] at ho
      subst ho
      obtain ⟨l1, hl, h⟩ := List.mem_map.mp h
      rw [v.state, flip_word] at h
      cases h
      have hr : l.pc.recorded := by rw [hp]; rfl
      rw [v.state, flip_word] at hl
      have hcn' : Contends type (tagOf type pshared) f { l with wrote := true } :=
        hcn.congr rfl rfl rfl
      rcases mem_check hl with rfl | rfl | rfl
      · exact ⟨c, 2, v.mark (by decide) ⟨hcn'.congr rfl rfl rfl,
          (isContended_word (by decide)).mpr rfl⟩ rfl hr.symm⟩
      all_goals exact ⟨c, 2, v.mark (by decide) (hcn'.returned (by decide)) rfl hr.symm⟩
    · cases h
  · obtain ⟨rfl, hl⟩ := mem_map_pair h
    exact ⟨c, k, v.loopRead hcn (by rw [hp]; rfl) hl⟩

theorem effect_asleep (hp : l.pc = .normalAsleep f ∨ l.pc = .asleep f ∨ l.pc = .reload f) :
    Effect type pshared c k t m l c k m' l' := by
  rcases hp with hp | hp | hp <;> simp only [Ok, hp] at ok <;> simp only [step, hp] at h <;>
    obtain ⟨rfl, hl⟩ := mem_map_pair h
  · obtain ⟨rfl, hf, hop, hsa⟩ := ok
    exact v.unsleptNormal hf hop hsa (by rw [hp]; exact ⟨rfl, rfl⟩) hl
  · exact v.unslept ok (by rw [hp]; exact ⟨rfl, rfl⟩) hl
  · exact v.loopRead ok (by rw [hp]; rfl) hl

theorem effect_unlockOwnerLoad (hp : l.pc = .unlockOwnerLoad f old) :
    Effect type pshared c k t m l c k m' l' := by
  simp only [Ok, hp] at ok
  obtain ⟨hty, hf, hop, hsa, hw, c0, k0, rfl, hc0, hk0, -, hdp⟩ := ok
  have hcm := Pc.Calm.of_eq hp ⟨rfl, rfl⟩
  simp only [step, hp] at h
  split at h <;> obtain ⟨rfl, rfl⟩ := mem_pair h
  · exact v.stay hcm ⟨hsa.symm, fun _ h => absurd hop h, fun _ _ _ => rfl, fun _ => hw⟩ rfl rfl rfl
  · rename_i ho
    have hh := ((v.owner hty).mp (not_not.mp ho)).1
    have hd := hdp hh
    split <;> rename_i hz
    · rw [isZero_word hc0 hk0] at hz
      refine v.stay hcm ⟨hty, hf, hop, ?_, ?_⟩ rfl rfl rfl
      · change l.start = 1
        omega
      · change l.depth = 1
        omega
    · rw [isZero_word hc0 hk0] at hz
      refine v.stay hcm ⟨hty, hop, hsa, ?_⟩ rfl rfl rfl
      change 1 < l.depth
      omega

theorem effect_decrement (hp : l.pc = .decrement) :
    ∃ c' k', Effect type pshared c k t m l c' k' m' l' := by
  simp only [Ok, hp] at ok
  obtain ⟨hty, hop, hsa, hh⟩ := ok
  simp only [step, hp] at h
  obtain ⟨rfl, rfl⟩ := mem_pair h
  have hd := (v.holds (by omega)).2
  have hr : type = .recursive := by
    by_contra hn
    have hc := v.plain hn
    omega
  obtain ⟨c1, rfl⟩ : ∃ c1, c = c1 + 1 := ⟨c - 1, by omega⟩
  have hc := v.counter
  rw [v.state, word_sub_one]
  have hs' : l.start = l.depth - 1 + 1 := by omega
  have hdp : l.depth - 1 = c1 + 1 := by omega
  exact ⟨c1, k, v.recount hr (by omega) (by omega) (returned_unlock hop hs') hdp
    (by rw [hp]; rfl) rfl rfl (by rw [hp]; rfl)⟩

end

theorem step_effect (v : View type pshared c k t m l) (ok : Ok type (tagOf type pshared) l)
    (h : (m', l') ∈ step type t m l) : ∃ c' k', Effect type pshared c k t m l c' k' m' l' := by
  cases hp : l.pc
  case outside last => exact ⟨c, k, effect_outside v hp h⟩
  case lockLoad => exact ⟨c, k, effect_load v ok h (.inl hp)⟩
  case mutexLoad => exact ⟨c, k, effect_load v ok h (.inr (.inl hp))⟩
  case tryLoad => exact ⟨c, k, effect_load v ok h (.inr (.inr (.inl hp)))⟩
  case unlockLoad => exact ⟨c, k, effect_load v ok h (.inr (.inr (.inr hp)))⟩
  case normalAsleep f => exact ⟨c, k, effect_asleep v ok h (.inl hp)⟩
  case asleep f => exact ⟨c, k, effect_asleep v ok h (.inr (.inl hp))⟩
  case reload f => exact ⟨c, k, effect_asleep v ok h (.inr (.inr hp))⟩
  case normalExchange f => exact effect_normalExchange v ok h hp
  case ownerLoad f old => exact effect_ownerLoad v ok h hp
  case flipCas f old => exact effect_flipCas v ok h hp
  case decrement => exact effect_decrement v ok h hp
  case unlockOwnerLoad f old => exact ⟨c, k, effect_unlockOwnerLoad v ok h hp⟩
  all_goals simp only [Ok, hp] at ok
  all_goals simp only [step, hp] at h
  case lockTry f =>
    obtain ⟨rfl, hf, hop, hsa, hw⟩ := ok
    have hcm := Pc.Calm.of_eq hp ⟨rfl, rfl⟩
    split at h <;> obtain ⟨rfl, rfl⟩ := mem_pair h
    · exact v.tryLock hf hop hsa hcm.2 (by assumption)
    · exact ⟨c, k, v.stay hcm ⟨hop, hsa, hw⟩ rfl rfl rfl⟩
  case normalTry f =>
    obtain ⟨rfl, hf, hop, hsa, -⟩ := ok
    have hcm := Pc.Calm.of_eq hp ⟨rfl, rfl⟩
    split at h
    · obtain ⟨rfl, rfl⟩ := mem_pair h
      exact v.tryLock hf hop hsa hcm.2 (by assumption)
    obtain ⟨rfl, hl⟩ := mem_map_pair h
    rcases mem_check hl with rfl | rfl | rfl
    · exact ⟨c, k, v.stay hcm ⟨rfl, hf, hop, hsa⟩ rfl rfl rfl⟩
    all_goals exact ⟨c, k, v.stay hcm (returned_normal (by decide) hsa.symm) rfl rfl rfl⟩
  case normalWait f =>
    obtain ⟨rfl, hf, hop, hsa⟩ := ok
    have hcm := Pc.Calm.of_eq hp ⟨rfl, rfl⟩
    refine ⟨c, k, ?_⟩
    split at h
    · rename_i hm
      rcases List.mem_cons.mp h with h | h
      · cases h
        refine v.quiet ⟨rfl, hf, hop, hsa⟩ rfl hcm.1.symm (fun _ => ?_) (by simp [hcm.2])
        rw [v.state, hf, shared_or_lockedContended,
          word_inj (tagOf_lt _ _) v.counter v.lock (by decide) (by decide)] at hm
        exact hm.2
      · obtain ⟨rfl, hl⟩ := mem_map_pair h
        exact v.unsleptNormal hf hop hsa hcm hl
    · obtain ⟨rfl, hl⟩ := mem_map_pair h
      exact v.unsleptNormal hf hop hsa hcm hl
  case increment =>
    obtain ⟨hty, hop, hsa, hh, hlt⟩ := ok
    obtain ⟨rfl, rfl⟩ := mem_pair h
    have hd := (v.holds hh).2
    rw [v.state, word_add_one]
    have hr : Returned type (l.write (l.depth + 1) (.outside (some .ok))) .ok :=
      returned_lock hop (congrArg (· + 1) hsa.symm) fun _ => hsa.symm ▸ hlt
    exact ⟨c + 1, k, v.recount hty hh (by omega) hr (congrArg (· + 1) hd) (by rw [hp]; rfl)
      rfl rfl (by rw [hp]; rfl)⟩
  case fastCas f =>
    obtain ⟨-, hf, -⟩ := id ok
    split at h
    · obtain ⟨rfl, rfl⟩ := mem_pair h
      rw [hf, lockedUncontended_flags]
      exact v.takeLock ok (by assumption) (.inl rfl) (by simp [hp, Pc.rouses])
    · obtain ⟨rfl, hl⟩ := mem_map_pair h
      exact ⟨c, k, v.loopRead ok (by rw [hp]; rfl) hl⟩
  case takeCas f =>
    obtain ⟨-, hf, -⟩ := id ok
    rw [mem_append] at h
    rcases h with h | h
    · split at h
      · obtain ⟨rfl, rfl⟩ := mem_pair h
        rw [hf, lockedContended_flags]
        exact v.takeLock ok (by assumption) (.inr rfl) fun _ => rfl
      · cases h
    · obtain ⟨rfl, hl⟩ := mem_map_pair h
      exact ⟨c, k, v.loopRead ok (by rw [hp]; rfl) hl⟩
  case wait f old =>
    refine ⟨c, k, ?_⟩
    obtain ⟨hcn, ho⟩ := ok
    have hcm := Pc.Calm.of_eq hp ⟨rfl, rfl⟩
    split at h
    · rename_i hm
      subst hm
      rcases List.mem_cons.mp h with h | h
      · cases h
        rw [v.state, isContended_word v.lock] at ho
        exact v.quiet (hcn.congr rfl rfl rfl) rfl hcm.1.symm (fun _ => ho) (by simp [hcm.2])
      · obtain ⟨rfl, hl⟩ := mem_map_pair h
        exact v.unslept hcn hcm hl
    · obtain ⟨rfl, hl⟩ := mem_map_pair h
      exact v.unslept hcn hcm hl
  case ownerStore =>
    refine ⟨c, k, ?_⟩
    obtain ⟨hty, hop, hsa, hdp⟩ := ok
    obtain ⟨rfl, rfl⟩ := mem_pair h
    have hr : Returned type (l.write l.depth (.outside (some .ok))) .ok :=
      returned_lock hop (by rw [Thread.write, hdp, hsa]) fun _ => by
        rw [Thread.write, hsa]
        decide
    exact v.storeOwner (by omega) (.inr rfl) hr rfl (by simp [Thread.write, Pc.recorded]) rfl
      (by rw [hp]; rfl)
  case tryNormal f =>
    obtain ⟨rfl, hf, hop, hsa, -⟩ := ok
    have hcm := Pc.Calm.of_eq hp ⟨rfl, rfl⟩
    split at h <;> obtain ⟨rfl, rfl⟩ := mem_pair h
    · exact v.tryLock hf hop hsa hcm.2 (by assumption)
    · exact ⟨c, k, v.stay hcm (returned_normal (by decide) hsa.symm) rfl rfl rfl⟩
  case tryOwnerLoad f old =>
    obtain ⟨hty, hf, hop, hsa, hw, ho⟩ := ok
    have hcm := Pc.Calm.of_eq hp ⟨rfl, rfl⟩
    refine ⟨c, k, ?_⟩
    split at h <;> obtain ⟨rfl, rfl⟩ := mem_pair h
    · exact v.relock hty hf hop hsa hw ho hcm (by decide) (by assumption)
    · have hcn := v.contends hty hf hop hsa hcm.1 (by assumption)
      exact v.stay hcm (hcn.congr rfl rfl rfl) rfl rfl rfl
  case tryCas f =>
    obtain ⟨-, hf, -⟩ := id ok
    split at h <;> obtain ⟨rfl, rfl⟩ := mem_pair h
    · rw [hf, lockedUncontended_flags]
      exact v.takeLock ok (by assumption) (.inl rfl) (by simp [hp, Pc.rouses])
    · exact ⟨c, k, v.stay (by rw [hp]; exact ⟨rfl, rfl⟩) (ok.returned (by decide)) rfl rfl rfl⟩
  case normalUnlock f =>
    refine ⟨0, 0, ?_⟩
    obtain ⟨rfl, rfl, hop, hsa, hh⟩ := ok
    simp only [mem_singleton, shared_or_unlocked, shared_or_lockedContended, v.state] at h
    cases h
    obtain rfl : c = 0 := v.plain nofun
    exact v.unlock (fun hk => hk ▸ rfl) (v.holds hh).2 hop hsa (fun h => absurd rfl h)
      (by rw [hp]; rfl)
  case unlockOwnerStore f =>
    refine ⟨c, k, ?_⟩
    obtain ⟨hty, hf, hop, hsa, hdp⟩ := ok
    obtain ⟨rfl, rfl⟩ := mem_pair h
    exact v.storeOwner (by omega) (.inl rfl) ⟨hty, hf, hop, hsa, hdp⟩ rfl
      (by simp [Thread.write, Pc.recorded]) rfl (by rw [hp]; rfl)
  case unlockExchange f =>
    refine ⟨0, 0, ?_⟩
    obtain ⟨hty, rfl, hop, hsa, hdp⟩ := ok
    simp only [mem_singleton, unlocked_flags, v.state, isContended_word v.lock] at h
    cases h
    exact v.unlock id hdp hop (hsa.trans hdp.symm) (fun _ => by rw [hp]; rfl) (by rw [hp]; rfl)
  case unlockWake f => cases h

theorem step_wrote (h : (m', l') ∈ step type t m l) : m' = m ∨ l'.wrote := by
  rw [step.eq_def] at h
  cases hp : l.pc <;> simp only [hp, mem_singleton, mem_append] at h
  all_goals
    repeat' split at h
    all_goals grind [Thread.write, Thread.check, Thread.goto, Thread.ret]

end

section
variable {t : Tid} {s : State Tid (Mutex Tid) Thread}

structure Inv (type : MutexType) (pshared : Bool) (c k : ℕ) (s : State Tid (Mutex Tid) Thread) :
    Prop where
  state : s.mem.state = word (tagOf type pshared) c k
  lock : k ≤ 2
  view : ∀ u, View type pshared c k u s.mem (s.pc u)
  ok : ∀ u, Ok type (tagOf type pshared) (s.pc u)
  unique : ∀ u v, 0 < (s.pc u).depth → 0 < (s.pc v).depth → u = v
  held : k ≠ 0 → ∃ u, 0 < (s.pc u).depth
  /-- Nobody is asleep unless the mutex is marked as contended or somebody will see to it. -/
  wakeup : ∀ u, sleeps (s.pc u) ≠ none → k = 2 ∨ ∃ v, (s.pc v).pc.rouses

theorem initial_inv (type pshared) : Inv type pshared 0 0 (initial Tid type pshared) := by
  have hs := pthreadMutexInit_eq type pshared
  constructor
  · exact hs
  · decide
  · exact fun u =>
      ⟨hs, by decide, by decide, fun _ => rfl, fun _ => rfl, nofun, by simp [initial]⟩
  · exact fun u => trivial
  · exact fun u v hu => absurd hu (lt_irrefl 0)
  · exact fun h => absurd rfl h
  · exact fun u hu => absurd rfl hu

variable {w : Bool} {m : Mutex Tid} {u : Tid} {n : WakeCount}

theorem Inv.others (hi : Inv type pshared c k s)
    (e : Effect type pshared c k t s.mem (s.pc t) c' k' m l) (hut : u ≠ t)
    (hu : 0 < (s.pc u).depth) : l.depth = 0 ∧ c' = c ∧ (k' = 0 ↔ k = 0) := by
  rcases e.holding with ⟨-, hl, hc, hk⟩ | ⟨hh | hfe, -⟩
  · exact ⟨hl, hc, hk⟩
  · exact absurd (hi.unique u t hu hh) hut
  · exact absurd hfe ((hi.view u).holds hu).1

/-- A lock at the limit of a recursive counter, or an unlock of a recursive or error-checking mutex
by another thread. -/
def Refused (type : MutexType) (l : Thread) : Prop :=
  type = .recursive ∧ l.op ≠ .unlock ∧ l.start = 2048 ∨
    type ≠ .normal ∧ l.op = .unlock ∧ l.start = 0

def Pc.left : Pc → ℕ
  | .outside _ => 0
  | .ownerLoad .. | .tryOwnerLoad .. | .unlockOwnerLoad .. => 1
  | .mutexLoad | .tryLoad | .unlockLoad => 2
  | .lockLoad => 3
  | _ => 4

theorem Refused.left_le (h : Refused type l) (ok : Ok type tag l) : l.pc.left ≤ 3 := by
  rw [Ok.eq_def] at ok
  cases hp : l.pc <;> simp only [hp, Contends] at ok <;>
    first
    | (simp only [Pc.left]; omega)
    | (exfalso; grind [Refused])

theorem sleeps_spec (h : sleeps l ≠ none) (ok : Ok type tag l) :
    sleeps l = some ((flags tag).shared != 0) ∧ Ok type tag (awaken l) ∧
      (awaken l).depth = l.depth ∧ (awaken l).pc.recorded = l.pc.recorded ∧
      sleeps (awaken l) = none ∧ (awaken l).pc.rouses ∧ l.pc.rouses = false := by
  cases hp : l.pc with
  | normalAsleep f =>
    simp only [Ok, hp] at ok
    obtain ⟨-, rfl, -⟩ := id ok
    simp only [sleeps, awaken, hp]
    exact ⟨trivial, ok, rfl, rfl, rfl, rfl, rfl⟩
  | asleep f =>
    simp only [Ok, hp] at ok
    obtain ⟨-, rfl, -⟩ := id ok
    simp only [sleeps, awaken, hp]
    exact ⟨trivial, ok.congr rfl rfl rfl, rfl, rfl, rfl, rfl, rfl⟩
  | _ =>
    simp only [sleeps, hp] at h
    exact absurd rfl h

/-- The mutex is unlocked, a thread sleeps, and nobody is in an operation. -/
def Stranded (s : State Tid (Mutex Tid) Thread) : Prop :=
  s.mem.state &&& mutexStateMask = mutexStateBitsUnlocked ∧ (∃ u, sleeps (s.pc u) ≠ none) ∧
    ∀ u, sleeps (s.pc u) ≠ none ∨ ∃ last, (s.pc u).pc = .outside last

theorem Inv.unlocked_iff (hi : Inv type pshared c k s) :
    s.mem.state &&& mutexStateMask = mutexStateBitsUnlocked ↔ k = 0 := by
  have hk := hi.lock
  rw [hi.state, lock_word hk, show mutexStateBitsUnlocked = word 0 0 0 from rfl,
    word_inj (by decide) (by decide) hk (by decide) (by decide)]
  simp

theorem Inv.not_stranded (hi : Inv type pshared c k s) : ¬Stranded s := by
  rintro ⟨hfe, ⟨u, hu⟩, ha⟩
  rw [hi.unlocked_iff] at hfe
  rcases hi.wakeup u hu with h | ⟨v, hv⟩
  · omega
  rcases ha v with h | ⟨last, h⟩
  · rw [(sleeps_spec h (hi.ok v)).2.2.2.2.2.2] at hv
    cases hv
  · rw [h] at hv
    cases hv

def Mutex.counter (m : Mutex Tid) : ℕ := (m.state &&& mutexCounterMask).toNat / 2 ^ 2

theorem Inv.counter_eq (hi : Inv type pshared c k s) (hu : 0 < (s.pc u).depth) :
    s.mem.counter = (s.pc u).depth - 1 := by
  have hc := (hi.view u).counter
  rw [Mutex.counter, hi.state, counter_word hc hi.lock, ((hi.view u).holds hu).2, word, toNat_ofNat]
  omega

variable [DecidableEq Tid]

theorem inv_run (hi : Inv type pshared c k s) (h : (m, l) ∈ step type t s.mem (s.pc t)) :
    ∃ c' k', Inv type pshared c' k' ⟨m, update s.pc t l⟩ := by
  obtain ⟨c', k', e⟩ := step_effect (hi.view t) (hi.ok t) h
  refine ⟨c', k', e.view.state, e.view.lock, ?_, forall_update e.ok hi.ok, ?_, ?_, ?_⟩
  · intro u
    by_cases hut : u = t
    · subst hut
      dsimp only
      rw [update_self]
      exact e.view
    dsimp only
    rw [update_of_ne hut]
    refine ⟨e.view.state, e.view.counter, e.view.lock, e.view.free, e.view.plain, ?_, ?_⟩
    · intro hu
      obtain ⟨-, rfl, hk⟩ := hi.others e hut hu
      obtain ⟨hn, hd⟩ := (hi.view u).holds hu
      exact ⟨mt hk.mp hn, hd⟩
    intro hty
    rcases e.ownerTid with h | ⟨hh, h⟩
    · rw [h]
      exact (hi.view u).owner hty
    constructor
    · intro ho
      rcases h with h | h <;> rw [h] at ho
      · cases ho
      · exact absurd (Option.some.inj ho).symm hut
    · intro hu
      exact absurd (hi.unique u t hu.1 hh) hut
  · have hoh : ∀ u ≠ t, 0 < (s.pc u).depth → ¬0 < l.depth := by
      intro u hut hu hl
      have := (hi.others e hut hu).1
      omega
    intro u v hu hv
    dsimp only at hu hv
    by_cases hut : u = t <;> by_cases hvt : v = t
    · rw [hut, hvt]
    · subst hut
      rw [update_self] at hu
      rw [update_of_ne hvt] at hv
      exact absurd hu (hoh v hvt hv)
    · subst hvt
      rw [update_self] at hv
      rw [update_of_ne hut] at hu
      exact absurd hv (hoh u hut hu)
    · rw [update_of_ne hut] at hu
      rw [update_of_ne hvt] at hv
      exact hi.unique u v hu hv
  · intro hk
    rcases e.holding with ⟨ht, -, -, hif⟩ | ⟨-, hif⟩
    · exact exists_update (Q := fun l : Thread => 0 < l.depth) (hi.held (mt hif.mpr hk)) (by omega)
    refine ⟨t, ?_⟩
    dsimp only
    rw [update_self]
    exact Nat.pos_of_ne_zero (mt hif.mpr hk)
  · intro u hu
    dsimp only at hu ⊢
    have hr : k' = 2 ∨ l.pc.rouses → k' = 2 ∨ ∃ v, (update s.pc t l v).pc.rouses := by
      rintro (h | h)
      · exact .inl h
      · exact .inr ⟨t, by rwa [update_self]⟩
    by_cases hut : u = t
    · subst hut
      rw [update_self] at hu
      exact .inl (e.sleep hu)
    rw [update_of_ne hut] at hu
    rcases hi.wakeup u hu with h | ⟨v, hv⟩
    · exact hr (e.rouse (.inl h))
    by_cases hvt : v = t
    · subst hvt
      exact hr (e.rouse (.inr hv))
    · exact .inr ⟨v, by rwa [update_of_ne hvt]⟩

theorem step_left {m'} (h : (m', l') ∈ step type t m l) (hp : 0 < l.pc.left) (hl : l.pc.left ≤ 3) :
    (l'.pc.left < l.pc.left ∨ l'.pc.left = 4) ∧ l'.op = l.op ∧ l'.start = l.start := by
  rw [step.eq_def] at h
  cases hpc : l.pc <;> simp only [hpc, Pc.left] at h hp hl <;>
    grind [Thread.goto, Thread.ret, Thread.check, Thread.loopRead, Thread.recursiveIncrement,
      Pc.left]

theorem exists_step (type) (t : Tid) (m)
    (hp : 0 < l.pc.left) (hl : l.pc.left ≤ 3) : ∃ n, n ∈ step type t m l := by
  apply exists_mem_of_ne_nil
  rw [step.eq_def]
  cases hpc : l.pc <;> simp only [hpc, Pc.left] at hp hl ⊢ <;> grind [Thread.loopRead, Thread.check]

variable [Fintype Tid]

theorem wakes_eq_some (h : wakes l = some (w, n, l')) :
    ∃ f, l.pc = .unlockWake f ∧ w = (f.shared != 0) ∧ n = .upTo 1 ∧ l' = l.ret .ok := by
  rw [wakes] at h
  split at h
  · rename_i f hp
    cases h
    exact ⟨f, hp, rfl, rfl, rfl⟩
  · cases h

theorem inv_wake {woken}
    (hi : Inv type pshared c k s) (call : (program Tid type).wakes (s.pc t) = some (w, n, l))
    (hw : FutexThreads.Wakes n ((program Tid type).sleepers s.pc w) woken) :
    Inv type pshared c k ⟨s.mem, update ((program Tid type).awakened s.pc woken) t l⟩ := by
  obtain ⟨f, hp, rfl, rfl, rfl⟩ := wakes_eq_some call
  have ho := hi.ok t
  simp only [Ok, hp] at ho
  obtain ⟨rfl, hop, hsa⟩ := ho
  have hse : sleeps (s.pc t) = none := by simp only [sleeps, hp]
  have hsm : ∀ u, (update ((program Tid type).awakened s.pc woken) t ((s.pc t).ret .ok)
      u).depth = (s.pc u).depth ∧ (update ((program Tid type).awakened s.pc woken) t
      ((s.pc t).ret .ok) u).pc.recorded = (s.pc u).pc.recorded := by
    intro u
    by_cases hut : u = t
    · subst hut
      rw [update_self, hp]
      exact ⟨rfl, rfl⟩
    rw [update_of_ne hut]
    rcases Program.awakened_cases hw u with hu | ⟨hs, hu⟩ <;> rw [hu]
    · exact ⟨rfl, rfl⟩
    · obtain ⟨-, -, hd, hr, -⟩ :=
        sleeps_spec (fun h => by cases hs.symm.trans h) (hi.ok u)
      exact ⟨hd, hr⟩
  refine ⟨hi.state, hi.lock, ?_, ?_, ?_, ?_, ?_⟩
  · intro u
    have v := hi.view u
    refine ⟨v.state, v.counter, v.lock, v.free, v.plain, ?_, ?_⟩ <;> dsimp only
    · rw [(hsm u).1]
      exact v.holds
    · rw [(hsm u).1, (hsm u).2]
      exact v.owner
  · refine forall_update (returned_unlock hop hsa) ?_
    intro u
    rcases Program.awakened_cases hw u with hu | ⟨hs, hu⟩ <;> rw [hu]
    · exact hi.ok u
    · exact (sleeps_spec (fun h => by cases hs.symm.trans h) (hi.ok u)).2.1
  · intro u v
    rw [(hsm u).1, (hsm v).1]
    exact hi.unique u v
  · intro hk
    obtain ⟨u, hu⟩ := hi.held hk
    exact ⟨u, by rwa [(hsm u).1]⟩
  intro u hu
  obtain ⟨hut, hu⟩ := of_update (Q := fun l => sleeps l ≠ none) hu fun h => h rfl
  have hb : sleeps (s.pc u) ≠ none := by
    rcases Program.awakened_cases hw u with h | ⟨hs, -⟩
    · rwa [h] at hu
    · exact fun h => by cases hs.symm.trans h
  have hm : u ∈ (program Tid type).sleepers s.pc ((flags (tagOf type pshared)).shared != 0) :=
    Program.mem_sleepers.mpr (sleeps_spec hb (hi.ok u)).1
  obtain ⟨v, hv⟩ := hw.nonempty Nat.one_pos ⟨u, hm⟩
  have hvs : sleeps (s.pc v) ≠ none := by
    intro h
    cases (Program.mem_sleepers.mp (hw.subset hv)).symm.trans h
  have hvt : v ≠ t := by
    rintro rfl
    exact hvs hse
  refine .inr ⟨v, ?_⟩
  dsimp only
  rw [update_of_ne hvt, Program.awakened, if_pos hv]
  exact (sleeps_spec hvs (hi.ok v)).2.2.2.2.2.1

theorem reaches_inv (h : (program Tid type).Reaches (initial Tid type pshared) s) :
    ∃ c k, Inv type pshared c k s := by
  refine h.invariant (I := fun s => ∃ c k, Inv type pshared c k s)
    ⟨0, 0, initial_inv type pshared⟩ ?_
  rintro t s s' ⟨c, k, hi⟩ hs
  cases hs with
  | run next => exact inv_run hi next
  | wake call wakes => exact ⟨c, k, inv_wake hi call wakes⟩

theorem Inv.refused (hi : Inv type pshared c k s) (h : Refused type (s.pc t))
    (hp : 0 < (s.pc t).pc.left) : (∃ s', (program Tid type).Step t s s') ∧
      ∀ s', (program Tid type).Step t s s' → (s'.pc t).pc.left < (s.pc t).pc.left := by
  have hl := h.left_le (hi.ok t)
  constructor
  · obtain ⟨⟨m, l⟩, hn⟩ := exists_step type t s.mem hp hl
    exact ⟨_, .run hn⟩
  intro s' hs
  cases hs with
  | @run m l next =>
    dsimp only
    rw [update_self]
    obtain ⟨c', k', e⟩ := step_effect (hi.view t) (hi.ok t) next
    obtain ⟨hlt | hfr, hop, hsa⟩ := step_left next hp hl
    · exact hlt
    have h' : Refused type l := by rwa [Refused, hop, hsa]
    have := h'.left_le e.ok
    omega
  | @wake w n l woken call wakes =>
    obtain ⟨f, hpc, -⟩ := wakes_eq_some call
    simp [hpc, Pc.left] at hl

/-- Along every run at most one thread holds the mutex, the words say so, a call that is refused
returns its error in a few steps of its own without a write, and nobody is left asleep. -/
theorem exclusion_and_wakeups (h : (program Tid type).Reaches (initial Tid type pshared) s) :
    (∀ u v, 0 < (s.pc u).depth → 0 < (s.pc v).depth → u = v) ∧
      (s.mem.state &&& mutexStateMask = mutexStateBitsUnlocked ↔ ∀ u, (s.pc u).depth = 0) ∧
      (type ≠ .normal → ∀ u, s.mem.ownerTid = some u → 0 < (s.pc u).depth) ∧
      (type = .recursive → ∀ u, 0 < (s.pc u).depth → s.mem.counter = (s.pc u).depth - 1) ∧
      (∀ u r, (s.pc u).pc = .outside (some r) → Returned type (s.pc u) r) ∧
      (∀ u, Refused type (s.pc u) → 0 < (s.pc u).pc.left → (∃ s', (program Tid type).Step u s s') ∧
          ∀ s', (program Tid type).Step u s s' → (s'.pc u).pc.left < (s.pc u).pc.left) ∧
      (∀ u s', (program Tid type).Step u s s' → s'.mem = s.mem ∨ (s'.pc u).wrote) ∧
      ¬Stranded s := by
  obtain ⟨c, k, hi⟩ := reaches_inv h
  refine ⟨hi.unique, ?_, ?_, fun _ u hu => hi.counter_eq hu, ?_, fun u => hi.refused, ?_,
    hi.not_stranded⟩
  · rw [hi.unlocked_iff]
    constructor
    · intro hk u
      by_contra hu
      exact ((hi.view u).holds (Nat.pos_of_ne_zero hu)).1 hk
    intro hn
    by_contra hk
    obtain ⟨u, hu⟩ := hi.held hk
    exact absurd (hn u) hu.ne'
  · exact fun hty u hu => (((hi.view u).owner hty).mp hu).1
  · intro u r hr
    have ho := hi.ok u
    simpa only [Ok, hr] using ho
  · intro u s' hs
    cases hs with
    | @run m l next =>
      dsimp only
      rw [update_self]
      exact step_wrote next
    | wake => exact .inl rfl

end

local instance neZeroTwo : NeZero 2 := ⟨two_ne_zero⟩

def lockTwiceAndRefuse : List (Program.Move (Fin 2)) :=
  List.replicate 11 (.run 0 0) ++ [.run 1 3, .run 1 0, .run 1 0]

theorem exclusion_and_wakeups_two_threads :
    ∃ s, (program (Fin 2) .recursive).Reaches (initial (Fin 2) .recursive false) s ∧
      ((s.pc 0).depth = 2 ∧ (s.pc 1).pc = .outside (some .EPERM)) ∧
      s.mem.counter = 1 ∧ (s.pc 1).wrote = false ∧ ¬Stranded s := by
  have hrn : ∃ s, (program (Fin 2) .recursive).Reaches (initial (Fin 2) .recursive false) s ∧
      (s.pc 0).depth = 2 ∧ (s.pc 1).pc = .outside (some .EPERM) :=
    Program.exists_reaches lockTwiceAndRefuse (by decide +kernel)
  obtain ⟨s, hr, hd, hp⟩ := hrn
  obtain ⟨-, -, -, hcu, hrt, -, -, hs⟩ := exclusion_and_wakeups hr
  have hct := hcu rfl 0 (by omega)
  rw [hd] at hct
  exact ⟨s, hr, ⟨hd, hp⟩, hct, (hrt 1 .EPERM hp).2.2.2 (.inr rfl), hs⟩

end PthreadMutex
