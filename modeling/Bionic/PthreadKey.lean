import Bionic.FutexThreads

/-! Thread-specific data and the destructors run at thread exit. A slot of the key map holds a
sequence number, odd while it is in use, and a destructor; a thread keeps for every slot the number
of its last store and the value. Every access to the key map is one step. The calls of a thread, in
destructors too, are any list. No step reads the history kept beside the memory. -/
namespace PthreadKey
open FutexThreads Bool Prod
open List Nat Function BitVec

/-- One key of libc, one of jemalloc and `PTHREAD_KEYS_MAX`. -/
def pthreadKeyCount : ℕ := 1 + 1 + 128

def pthreadDestructorIterations : ℕ := 4

instance : NeZero pthreadKeyCount := ⟨by decide⟩

abbrev Slot : Type := Fin pthreadKeyCount

variable {Tid : Type} {w : ℕ}

def seqKeyInUseBit : ℕ := 0

def seqIncrementStep (w : ℕ) : BitVec w := 1#w <<< seqKeyInUseBit

def seqOfKeyInUse (seq : BitVec w) : Bool := seq &&& 1#w <<< seqKeyInUseBit ≠ 0

theorem seqOfKeyInUse_ofNat {n} (hn : n < 2 ^ w) :
    seqOfKeyInUse (BitVec.ofNat w n) = decide (n % 2 = 1) := by
  cases w with
  | zero =>
    obtain rfl : n = 0 := by omega
    rfl
  | succ w =>
    have ho : 1 < 2 ^ (w + 1) := Nat.one_lt_two_pow (succ_ne_zero w)
    have ha : (BitVec.ofNat (w + 1) n &&& 1#(w + 1) <<< seqKeyInUseBit).toNat = n % 2 := by
      rw [seqKeyInUseBit, BitVec.shiftLeft_zero, toNat_and, toNat_ofNat,
        toNat_ofNat, mod_eq_of_lt hn, mod_eq_of_lt ho, and_one_is_mod]
    rw [seqOfKeyInUse, decide_eq_decide, ne_eq, ← toNat_inj, ha]
    change ¬n % 2 = 0 % 2 ^ (w + 1) ↔ n % 2 = 1
    rw [zero_mod]
    omega

theorem ofNat_add_seqIncrementStep (n) :
    BitVec.ofNat w n + seqIncrementStep w = BitVec.ofNat w (n + 1) := by
  rw [seqIncrementStep, seqKeyInUseBit, BitVec.shiftLeft_zero, ofNat_add]

def keyValidFlag : BitVec 32 := 1#32 <<< 31

/-- `pthread_key_t` is an `int`, so the comparison is a signed one. -/
def keyInValidRange (key : BitVec 32) : Bool :=
  key.slt (keyValidFlag ||| BitVec.ofNat 32 pthreadKeyCount)

theorem slot_lt {key} (h : keyInValidRange key) :
    (key &&& ~~~keyValidFlag).toNat < pthreadKeyCount := by
  have hm : ~~~keyValidFlag = 0x7fffffff#32 := by decide
  have hb : keyValidFlag ||| BitVec.ofNat 32 pthreadKeyCount = 0x80000082#32 := by decide
  rw [keyInValidRange, hb, slt_iff_toInt_lt, toInt_eq_toNat_cond] at h
  have hky : key.toNat < 2 ^ 32 := key.isLt
  have hl : key.toNat &&& 0x7fffffff = key.toNat % 2 ^ 31 :=
    and_two_pow_sub_one_eq_mod key.toNat 31
  have hc : (0x80000082#32).toInt = -2147483518 := by decide
  rw [hc] at h
  rw [hm, toNat_and, show (0x7fffffff#32).toNat = 0x7fffffff from rfl, hl]
  change key.toNat % 2 ^ 31 < 130
  split at h <;> omega

def slotOf (key : BitVec 32) : Option Slot :=
  if h : keyInValidRange key then some ⟨(key &&& ~~~keyValidFlag).toNat, slot_lt h⟩
  else none

/-- The key that `pthread_key_create` returns for a slot. -/
def keyOf (i : Slot) : BitVec 32 := BitVec.ofNat 32 i ||| keyValidFlag

theorem slotOf_keyOf : ∀ i, slotOf (keyOf i) = some i := by
  decide +kernel

/-- `pthread_key_data_t`: what a thread keeps for a slot. -/
structure KeyData (w : ℕ) where
  seq : BitVec w
  data : BitVec w
  deriving DecidableEq

/-- `pthread_key_internal_t`: what the process keeps for a slot. -/
structure KeyInternal (w : ℕ) where
  seq : BitVec w
  keyDestructor : BitVec w
  deriving DecidableEq

/-- A key was created or deleted, a thread stored a value, handed one to a destructor, or began a
round of its exit. -/
inductive Event (Tid : Type) (w : ℕ) where
  | created (i : Slot) (destructor : BitVec w)
  | deleted (i : Slot)
  | set (t : Tid) (i : Slot) (value : BitVec w)
  | destroyed (t : Tid) (i : Slot) (destructor value : BitVec w)
  | round (t : Tid)
  deriving DecidableEq

structure Mem (Tid : Type) (w : ℕ) where
  keyMap : Slot → KeyInternal w
  history : List (Event Tid w)

inductive Call (w : ℕ) where
  | create (destructor : BitVec w)
  | delete (key : BitVec 32)
  | getspecific (key : BitVec 32)
  | setspecific (key : BitVec 32) (ptr : BitVec w)
  | exit
  | leave

inductive Ret (w : ℕ) where
  | ok
  | created (key : BitVec 32)
  | value (ptr : BitVec w)
  | EAGAIN
  | EINVAL
  deriving DecidableEq

structure Frame where
  rounds : ℕ
  i : ℕ
  calledDestructorCount : ℕ
  deriving DecidableEq

inductive Pc (w : ℕ) where
  | free
  | createLoad (i : ℕ) (destructor : BitVec w)
  | createCas (i : Slot) (seq destructor : BitVec w)
  | createStore (i : Slot) (destructor : BitVec w)
  | deleteCas (i : Slot) (seq : BitVec w)
  | exitRound (rounds : ℕ)
  | exitLoad (frame : Frame)
  | exitDestructor (frame : Frame) (i : Slot) (seq : BitVec w)
  | exitRecheck (frame : Frame) (i : Slot) (seq destructor : BitVec w)
  | exited
  deriving DecidableEq

/-- A thread: the calls it has still to make, its data, its place, the loop it goes on with when its
destructor returns, and what its last call returned. -/
structure Thread (w : ℕ) where
  todo : List (Call w)
  keyData : Slot → KeyData w
  pc : Pc w
  inDestructor : Option Frame
  last : Option (Ret w)

def Thread.goto (l : Thread w) (pc : Pc w) : Thread w := { l with pc := pc }

def Thread.ret (l : Thread w) (r : Ret w) : Thread w := { l with pc := .free, last := some r }

def Thread.store (l : Thread w) (i : Slot) (d : KeyData w) : Thread w :=
  { l with keyData := update l.keyData i d }

def Mem.seq (m : Mem Tid w) (i : Slot) : BitVec w := (m.keyMap i).seq

def Mem.keyDestructor (m : Mem Tid w) (i : Slot) : BitVec w := (m.keyMap i).keyDestructor

def Mem.log (m : Mem Tid w) (e : Event Tid w) : Mem Tid w := { m with history := e :: m.history }

def Mem.incrementSeq (m : Mem Tid w) (i : Slot) : Mem Tid w :=
  { m with
    keyMap := update m.keyMap i
      { m.keyMap i with seq := m.seq i + seqIncrementStep w } }

def Mem.storeDestructor (m : Mem Tid w) (i : Slot) (d : BitVec w) : Mem Tid w :=
  { m with keyMap := update m.keyMap i { m.keyMap i with keyDestructor := d } }

/-- The value, and the thread with stale data cleared. -/
def getspecific (m : Mem Tid w) (l : Thread w) (key : BitVec 32) : BitVec w × Thread w :=
  match slotOf key with
  | none => (0, l)
  | some i =>
    let seq := m.seq i
    if seqOfKeyInUse seq ∧ (l.keyData i).seq = seq then ((l.keyData i).data, l)
    else (0, l.store i { l.keyData i with data := 0 })

def setspecific (t : Tid) (m : Mem Tid w) (l : Thread w) (key : BitVec 32) (ptr : BitVec w) :
    Mem Tid w × Thread w :=
  match slotOf key with
  | none => (m, l.ret .EINVAL)
  | some i =>
    let seq := m.seq i
    if seqOfKeyInUse seq then (m.log (.set t i ptr), (l.store i ⟨seq, ptr⟩).ret .ok)
    else (m, l.ret .EINVAL)

/-- `pthread_key_delete` up to its compare-and-exchange. -/
def deleteLoad (m : Mem Tid w) (l : Thread w) (key : BitVec 32) : Thread w :=
  match slotOf key with
  | none => l.ret .EINVAL
  | some i =>
    let seq := m.seq i
    if seqOfKeyInUse seq then l.goto (.deleteCas i seq) else l.ret .EINVAL

/-- With the sequence number it has just seen. -/
def createWhile (l : Thread w) (i : Slot) (seq destructor : BitVec w) : Thread w :=
  if seqOfKeyInUse seq then l.goto (.createLoad (i + 1) destructor)
  else l.goto (.createCas i seq destructor)

/-- `continue` in the loop over the slots. -/
def Frame.next (f : Frame) : Frame := { f with i := f.i + 1 }

def call (t : Tid) (m : Mem Tid w) (l : Thread w) : List (Mem Tid w × Thread w) :=
  match l.todo with
  | [] => []
  | c :: rest =>
    let l := { l with todo := rest }
    match c with
    | .create destructor => [(m, l.goto (.createLoad 0 destructor))]
    | .delete key => [(m, deleteLoad m l key)]
    | .getspecific key => [(m, (getspecific m l key).2.ret (.value (getspecific m l key).1))]
    | .setspecific key ptr => [setspecific t m l key ptr]
    | .exit =>
      match l.inDestructor with
      | none => [(m, l.goto (.exitRound pthreadDestructorIterations))]
      | some _ => []
    | .leave =>
      match l.inDestructor with
      | none => []
      | some f =>
        let f := { f with calledDestructorCount := f.calledDestructorCount + 1 }
        [(m, { l with pc := .exitLoad f.next, inDestructor := none })]

def exitLoad (m : Mem Tid w) (l : Thread w) (f : Frame) : Thread w :=
  if h : f.i < pthreadKeyCount then
    let i : Slot := ⟨f.i, h⟩
    let seq := m.seq i
    if seqOfKeyInUse seq ∧ seq = (l.keyData i).seq then
      if (l.keyData i).data = 0 then l.goto (.exitLoad f.next)
      else l.goto (.exitDestructor f i seq)
    else l.goto (.exitLoad f.next)
  else if f.calledDestructorCount = 0 then l.goto .exited
  else l.goto (.exitRound (f.rounds - 1))

def step (t : Tid) (m : Mem Tid w) (l : Thread w) : List (Mem Tid w × Thread w) :=
  match l.pc with
  | .free => call t m l
  | .createLoad i destructor =>
    if h : i < pthreadKeyCount then [(m, createWhile l ⟨i, h⟩ (m.seq ⟨i, h⟩) destructor)]
    else [(m, l.ret .EAGAIN)]
  | .createCas i seq destructor =>
    weakCas (m.seq i = seq)
      ((m.incrementSeq i).log (.created i destructor), l.goto (.createStore i destructor))
      (m, createWhile l i (m.seq i) destructor)
  | .createStore i destructor => [(m.storeDestructor i destructor, l.ret (.created (keyOf i)))]
  | .deleteCas i seq =>
    if m.seq i = seq then [((m.incrementSeq i).log (.deleted i), l.ret .ok)]
    else [(m, l.ret .EINVAL)]
  | .exitRound rounds =>
    match rounds with
    | 0 => [(m, l.goto .exited)]
    | rounds + 1 => [(m.log (.round t), l.goto (.exitLoad ⟨rounds + 1, 0, 0⟩))]
  | .exitLoad f => [(m, exitLoad m l f)]
  | .exitDestructor f i seq =>
    let destructor := m.keyDestructor i
    if destructor = 0 then [(m, l.goto (.exitLoad f.next))]
    else [(m, l.goto (.exitRecheck f i seq destructor))]
  | .exitRecheck f i seq destructor =>
    if m.seq i ≠ seq then [(m, l.goto (.exitLoad f.next))]
    else
      let data := (l.keyData i).data
      [(m.log (.destroyed t i destructor data),
        { l.store i { l.keyData i with data := 0 } with pc := .free, inDestructor := some f })]
  | .exited => []

def program (Tid : Type) (w : ℕ) : Program Tid Empty (Mem Tid w) (Thread w) where
  step := step
  sleeps _ := none
  awaken l := l
  wakes _ := none

def initial (calls : Tid → List (Call w)) : State Tid (Mem Tid w) (Thread w) :=
  ⟨⟨fun _ => ⟨0, 0⟩, []⟩, fun t => ⟨calls t, fun _ => ⟨0, 0⟩, .free, none, none⟩⟩

variable {i : Slot}

section
variable {Tid : Type} [DecidableEq Tid] {w : ℕ}

def Event.turns (i : Slot) : Event Tid w → Bool
  | .created j _ => j = i
  | .deleted j => j = i
  | _ => false

def Event.creates (i : Slot) : Event Tid w → Bool
  | .created j _ => j = i
  | _ => false

def Event.begins (t : Tid) : Event Tid w → Bool
  | .round u => u = t
  | _ => false

def turns (i : Slot) (h : List (Event Tid w)) : ℕ := h.countP (Event.turns i)

def creations (i : Slot) (h : List (Event Tid w)) : ℕ := h.countP (Event.creates i)

def rounds (t : Tid) (h : List (Event Tid w)) : ℕ := h.countP (Event.begins t)

def lastSet (t : Tid) (i : Slot) : List (Event Tid w) → BitVec w
  | [] => 0
  | .created j _ :: h => if j = i then 0 else lastSet t i h
  | .deleted j :: h => if j = i then 0 else lastSet t i h
  | .set u j value :: h => if u = t ∧ j = i then value else lastSet t i h
  | .destroyed _ _ _ _ :: h => lastSet t i h
  | .round _ :: h => lastSet t i h

def handedOver (t : Tid) (i : Slot) : List (Event Tid w) → Bool
  | [] => false
  | .set u j _ :: h => if u = t ∧ j = i then false else handedOver t i h
  | .destroyed u j _ _ :: h => if u = t ∧ j = i then true else handedOver t i h
  | .created _ _ :: h => handedOver t i h
  | .deleted _ :: h => handedOver t i h
  | .round _ :: h => handedOver t i h

def specific (t : Tid) (i : Slot) (h : List (Event Tid w)) : BitVec w :=
  if handedOver t i h then 0 else lastSet t i h

def registered (i : Slot) : List (Event Tid w) → BitVec w
  | [] => 0
  | .created j destructor :: h => if j = i then destructor else registered i h
  | .deleted _ :: h => registered i h
  | .set _ _ _ :: h => registered i h
  | .destroyed _ _ _ _ :: h => registered i h
  | .round _ :: h => registered i h

/-- What a thread set last in a slot, with the destructor of the incarnation of the key under which
it did. -/
def setUnder (t : Tid) (i : Slot) : List (Event Tid w) → Option (BitVec w × BitVec w)
  | [] => none
  | .set u j value :: h => if u = t ∧ j = i then some (value, registered i h) else setUnder t i h
  | .created _ _ :: h => setUnder t i h
  | .deleted _ :: h => setUnder t i h
  | .destroyed _ _ _ _ :: h => setUnder t i h
  | .round _ :: h => setUnder t i h

def setTurns (t : Tid) (i : Slot) : List (Event Tid w) → ℕ
  | [] => 0
  | .set u j _ :: h => if u = t ∧ j = i then turns i h else setTurns t i h
  | .created _ _ :: h => setTurns t i h
  | .deleted _ :: h => setTurns t i h
  | .destroyed _ _ _ _ :: h => setTurns t i h
  | .round _ :: h => setTurns t i h

variable {t : Tid} {h : List (Event Tid w)}

omit [DecidableEq Tid] in
theorem turns_cons (e) : turns i (e :: h) = turns i h + if e.turns i then 1 else 0 :=
  countP_cons

theorem setTurns_le : setTurns t i h ≤ turns i h := by
  induction h with
  | nil => exact zero_le _
  | cons e h ih =>
    rw [turns_cons]
    cases e <;> simp only [setTurns] <;> (try split_ifs) <;> omega

theorem setUnder_eq (hst : setUnder t i h ≠ none) (heq : setTurns t i h = turns i h) :
    (setUnder t i h).map snd = some (registered i h) := by
  induction h with
  | nil => exact absurd rfl hst
  | cons e h ih =>
    have hl : setTurns t i h ≤ turns i h := setTurns_le
    rw [turns_cons] at heq
    cases e with
    | created j | deleted j =>
      by_cases hj : j = i
      · simp only [setTurns, Event.turns, hj, decide_true, if_true] at heq
        omega
      simp only [setTurns, Event.turns, hj, decide_false, false_eq_true, if_false,
        add_zero] at heq
      simpa only [setUnder, registered, hj, if_false] using ih hst heq
    | set u j v =>
      by_cases hu : u = t ∧ j = i
      · simp [setUnder, registered, hu]
      · simp only [setTurns, setUnder, hu, if_false] at heq hst ⊢
        exact ih hst heq
    | destroyed u j d v => exact ih hst heq
    | round u => exact ih hst heq

theorem lastSet_of_turned (hn : setTurns t i h ≠ turns i h) : lastSet t i h = 0 := by
  induction h with
  | nil => exact absurd rfl hn
  | cons e h ih =>
    rw [turns_cons] at hn
    cases e with
    | created j d | deleted j =>
      by_cases hj : j = i
      · simp [lastSet, hj]
      · simp only [lastSet, hj, if_false]
        exact ih (by simpa [setTurns, Event.turns, hj] using hn)
    | set u j v =>
      by_cases hu : u = t ∧ j = i
      · simp [setTurns, Event.turns, hu] at hn
      · simp only [lastSet, hu, if_false]
        exact ih (by simpa [setTurns, Event.turns, hu] using hn)
    | destroyed u j d v => exact ih hn
    | round u => exact ih hn

theorem lastSet_of_setUnder_eq_none (hst : setUnder t i h = none) : lastSet t i h = 0 := by
  induction h with
  | nil => rfl
  | cons e h ih =>
    cases e with
    | created j d => simp [lastSet, ih hst]
    | deleted j => simp [lastSet, ih hst]
    | set u j v =>
      by_cases hu : u = t ∧ j = i
      · simp [setUnder, hu] at hst
      · simp only [setUnder, lastSet, hu, if_false] at hst ⊢
        exact ih hst
    | destroyed u j d v => exact ih hst
    | round u => exact ih hst

theorem specific_eq_zero (hl : lastSet t i h = 0) : specific t i h = 0 := by
  rw [specific, hl, ite_self]

def Event.concerns (t : Tid) (i : Slot) : Event Tid w → Bool
  | .created j _ => j = i
  | .deleted j => j = i
  | .set u j _ => u = t ∧ j = i
  | .destroyed u j _ _ => u = t ∧ j = i
  | .round _ => false

structure Agrees (t : Tid) (i : Slot) (h : List (Event Tid w)) (k : KeyData w) : Prop where
  seq : k.seq = BitVec.ofNat w (setTurns t i h)
  odd : setUnder t i h ≠ none → setTurns t i h % 2 = 1
  value : setTurns t i h = turns i h → k.data = specific t i h
  last : k.data ≠ 0 → (setUnder t i h).map fst = some k.data

variable {k : KeyData w} {e : Event Tid w}

theorem agrees_nil : Agrees t i ([] : List (Event Tid w)) ⟨0, 0⟩ where
  seq := rfl
  odd hst := absurd rfl hst
  value _ := rfl
  last hd := absurd rfl hd

theorem agrees_set (ho : turns i h % 2 = 1) (v) :
    Agrees t i (.set t i v :: h) ⟨BitVec.ofNat w (turns i h), v⟩ := by
  constructor
  · simp [setTurns]
  · intro _
    simpa [setTurns] using ho
  · intro _
    simp [specific, handedOver, lastSet]
  · intro _
    simp [setUnder]

variable (hk : Agrees t i h k)
include hk

theorem Agrees.foreign (he : e.concerns t i = false) : Agrees t i (e :: h) k := by
  have ht : turns i (e :: h) = turns i h := by
    rw [turns_cons]
    cases e <;> simp_all [Event.concerns, Event.turns]
  have hsetTurns : setTurns t i (e :: h) = setTurns t i h := by
    cases e <;> simp_all [Event.concerns, setTurns]
  have hsetUnder : setUnder t i (e :: h) = setUnder t i h := by
    cases e <;> simp_all [Event.concerns, setUnder]
  have hh : handedOver t i (e :: h) = handedOver t i h := by
    cases e <;> grind [Event.concerns, handedOver]
  have hl : lastSet t i (e :: h) = lastSet t i h := by
    cases e <;> simp_all [Event.concerns, lastSet]
  have hse : specific t i (e :: h) = specific t i h := by
    rw [specific, specific, hh, hl]
  constructor
  · rw [hsetTurns, hk.seq]
  · rw [hsetTurns, hsetUnder]
    exact hk.odd
  · rw [hsetTurns, ht, hse]
    exact hk.value
  · rw [hsetUnder]
    exact hk.last

theorem Agrees.turned (he : e.turns i) : Agrees t i (e :: h) k := by
  have hl : setTurns t i h ≤ turns i h := setTurns_le
  have hsetTurns : setTurns t i (e :: h) = setTurns t i h := by
    cases e <;> simp_all [Event.turns, setTurns]
  have hsetUnder : setUnder t i (e :: h) = setUnder t i h := by
    cases e <;> simp_all [Event.turns, setUnder]
  constructor
  · rw [hsetTurns, hk.seq]
  · rw [hsetTurns, hsetUnder]
    exact hk.odd
  · intro heq
    rw [hsetTurns, turns_cons, if_pos he] at heq
    omega
  · rw [hsetUnder]
    exact hk.last

theorem Agrees.destroyed (d v) :
    Agrees t i (.destroyed t i d v :: h) { k with data := 0 } where
  seq := hk.seq
  odd := hk.odd
  value _ := by simp [specific, handedOver]
  last hd := absurd rfl hd

theorem Agrees.cleared (hse : specific t i h = 0) : Agrees t i h { k with data := 0 } where
  seq := hk.seq
  odd := hk.odd
  value _ := hse.symm
  last hd := absurd rfl hd

end

section
variable {Tid : Type} [DecidableEq Tid] {w : ℕ} {t : Tid} {m m' : Mem Tid w} {l l' : Thread w}

/-- What a thread knows at a place, from the checks that led there. -/
def Placed (l : Thread w) : Prop :=
  match l.pc with
  | .createCas _ seq _ => seqOfKeyInUse seq = false
  | .deleteCas _ seq => seqOfKeyInUse seq
  | .exitDestructor _ i seq | .exitRecheck _ i seq _ =>
    seqOfKeyInUse seq ∧ seq = (l.keyData i).seq ∧ (l.keyData i).data ≠ 0
  | _ => True

def Thread.roundsLeft (l : Thread w) : ℕ :=
  match l.pc with
  | .exitRound rounds => rounds
  | .exitLoad f | .exitDestructor f _ _ | .exitRecheck f _ _ _ => f.rounds - 1
  | .exited => 0
  | _ =>
    match l.inDestructor with
    | none => pthreadDestructorIterations
    | some f => f.rounds - 1

/-- Not between a creation and the store of its destructor, nor between the load of a destructor and
its call. -/
def Pc.calm : Pc w → Bool
  | .createStore _ _ | .exitRecheck _ _ _ _ => false
  | _ => true

/-- What a step does to the memory and to the thread's data. -/
inductive Effect (t : Tid) (m : Mem Tid w) (l : Thread w) : Mem Tid w → Thread w → Prop where
  | stays {l' : Thread w} (data : l'.keyData = l.keyData) (calm : l'.pc.calm) :
      Effect t m l m l'
  | cleared {l' : Thread w} (i : Slot)
      (stale : ¬(seqOfKeyInUse (m.seq i) ∧ (l.keyData i).seq = m.seq i))
      (data : l'.keyData = update l.keyData i { l.keyData i with data := 0 })
      (calm : l'.pc.calm) : Effect t m l m l'
  | set {l' : Thread w} {key : BitVec 32} {rest : List (Call w)} (i : Slot) (v : BitVec w)
      (free : l.pc = .free) (call : l.todo = .setspecific key v :: rest)
      (slot : slotOf key = some i) (inUse : seqOfKeyInUse (m.seq i))
      (data : l'.keyData = update l.keyData i ⟨m.seq i, v⟩) (calm : l'.pc.calm) :
      Effect t m l (m.log (.set t i v)) l'
  | created {l' : Thread w} (i : Slot) (d : BitVec w) (unused : seqOfKeyInUse (m.seq i) = false)
      (data : l'.keyData = l.keyData) (place : l'.pc = .createStore i d) :
      Effect t m l ((m.incrementSeq i).log (.created i d)) l'
  | stored {l' : Thread w} (i : Slot) (d : BitVec w) (place : l.pc = .createStore i d)
      (data : l'.keyData = l.keyData) (calm : l'.pc.calm) :
      Effect t m l (m.storeDestructor i d) l'
  | deleted {l' : Thread w} (i : Slot) (place : l.pc = .deleteCas i (m.seq i))
      (inUse : seqOfKeyInUse (m.seq i)) (data : l'.keyData = l.keyData)
      (calm : l'.pc.calm) : Effect t m l ((m.incrementSeq i).log (.deleted i)) l'
  | loaded {l' : Thread w} (f : Frame) (i : Slot) (seq : BitVec w)
      (place : l.pc = .exitDestructor f i seq) (data : l'.keyData = l.keyData)
      (place' : l'.pc = .exitRecheck f i seq (m.keyDestructor i)) : Effect t m l m l'
  | destroyed {l' : Thread w} (f : Frame) (i : Slot) (d : BitVec w)
      (place : l.pc = .exitRecheck f i (m.seq i) d)
      (data : l'.keyData = update l.keyData i { l.keyData i with data := 0 })
      (calm : l'.pc.calm) :
      Effect t m l (m.log (.destroyed t i d (l.keyData i).data)) l'
  | round {l' : Thread w} (data : l'.keyData = l.keyData) (calm : l'.pc.calm) :
      Effect t m l (m.log (.round t)) l'

/-- A step with its effect, after which the thread knows where it is, and which spends a round if it
begins one. -/
structure Goes (t : Tid) (m : Mem Tid w) (l : Thread w) (m' : Mem Tid w) (l' : Thread w) :
    Prop where
  effect : Effect t m l m' l'
  placed : Placed l'
  spent : rounds t m'.history + l'.roundsLeft ≤ rounds t m.history + l.roundsLeft

theorem goes_stays (data : l'.keyData = l.keyData) (calm : l'.pc.calm) (placed : Placed l')
    (left : l'.roundsLeft ≤ l.roundsLeft) : Goes t m l m l' :=
  ⟨.stays data calm, placed, Nat.add_le_add_left left _⟩

theorem rounds_cons_of_not {e} {h : List (Event Tid w)} (he : e.begins t = false) :
    rounds t (e :: h) = rounds t h :=
  countP_cons_of_neg (by simp [he])

def Pc.calls : Pc w → Bool
  | .free | .createLoad _ _ | .createCas _ _ _ | .createStore _ _ | .deleteCas _ _ => true
  | _ => false

theorem Effect.goes (effect : Effect t m l m' l') (placed : Placed l')
    (hr : rounds t m'.history = rounds t m.history) (hc : l.pc.calls)
    (hc' : l'.pc.calls) (hin : l'.inDestructor = l.inDestructor) : Goes t m l m' l' := by
  refine ⟨effect, placed, ?_⟩
  rw [hr]
  refine Nat.add_le_add_left ?_ _
  rw [Thread.roundsLeft, Thread.roundsLeft, hin]
  cases hp : l.pc <;> cases hp' : l'.pc <;> simp_all [Pc.calls]

theorem goes_calls (hc : l.pc.calls) (data : l'.keyData = l.keyData)
    (calm : l'.pc.calm) (placed : Placed l') (hc' : l'.pc.calls)
    (hin : l'.inDestructor = l.inDestructor) : Goes t m l m l' :=
  Effect.goes (.stays data calm) placed rfl hc hc' hin

theorem call_goes (hp : l.pc = .free) (h : (m', l') ∈ call t m l) : Goes t m l m' l' := by
  have hc : l.pc.calls := by rw [hp]; rfl
  rw [call] at h
  split at h
  · cases h
  rename_i c rest ht
  cases c with
  | create d =>
    obtain ⟨rfl, rfl⟩ := mem_pair h
    exact goes_calls hc rfl rfl trivial rfl rfl
  | delete key =>
    obtain ⟨rfl, rfl⟩ := mem_pair h
    rw [deleteLoad]
    split
    · exact goes_calls hc rfl rfl trivial rfl rfl
    dsimp only
    split
    · rename_i hin
      exact goes_calls hc rfl rfl hin rfl rfl
    · exact goes_calls hc rfl rfl trivial rfl rfl
  | getspecific key =>
    obtain ⟨rfl, rfl⟩ := mem_pair h
    rw [getspecific]
    split
    · exact goes_calls hc rfl rfl trivial rfl rfl
    rename_i i _
    dsimp only
    split
    · exact goes_calls hc rfl rfl trivial rfl rfl
    · rename_i hsa
      exact Effect.goes (.cleared i hsa rfl rfl) trivial rfl hc rfl rfl
  | setspecific key ptr =>
    have h := List.mem_singleton.mp h
    have hc : l.pc.calls := by rw [hp]; rfl
    rw [setspecific] at h
    split at h
    · cases h
      exact goes_calls hc rfl rfl trivial rfl rfl
    rename_i i hi
    dsimp only at h
    split at h
    · rename_i hin
      cases h
      exact Effect.goes (.set i ptr hp ht hi hin rfl rfl) trivial (rounds_cons_of_not rfl)
        hc rfl rfl
    · cases h
      exact goes_calls hc rfl rfl trivial rfl rfl
  | exit =>
    dsimp only at h
    split at h
    · rename_i hin
      obtain ⟨rfl, rfl⟩ := mem_pair h
      refine goes_stays rfl rfl trivial (le_of_eq ?_)
      simp only [Thread.roundsLeft, hp, Thread.goto, show l.inDestructor = none from hin]
    · cases h
  | leave =>
    dsimp only at h
    split at h
    · cases h
    rename_i f hin
    obtain ⟨rfl, rfl⟩ := mem_pair h
    refine goes_stays rfl rfl trivial (le_of_eq ?_)
    simp only [Thread.roundsLeft, hp, show l.inDestructor = some f from hin, Frame.next]

theorem createWhile_goes (hc : l.pc.calls) (i : Slot) (seq d) :
    Goes t m l m (createWhile l i seq d) := by
  rw [createWhile]
  split
  · exact goes_calls hc rfl rfl trivial rfl rfl
  · rename_i hin
    exact goes_calls hc rfl rfl (eq_false_iff.mpr hin) rfl rfl

theorem step_goes (hpl : Placed l) (h : (m', l') ∈ step t m l) : Goes t m l m' l' := by
  cases hp : l.pc
  case exitRecheck f i seq d =>
    have hl : l.roundsLeft = f.rounds - 1 := by simp only [Thread.roundsLeft, hp]
    simp only [step, hp] at h
    split at h
    · obtain ⟨rfl, rfl⟩ := mem_pair h
      exact goes_stays rfl rfl trivial hl.ge
    rename_i hsq
    obtain rfl := not_ne_iff.mp hsq
    obtain ⟨rfl, rfl⟩ := mem_pair h
    refine ⟨.destroyed f i d hp rfl rfl, trivial, ?_⟩
    have hr : rounds t (m.log (.destroyed t i d (l.keyData i).data)).history =
        rounds t m.history := rounds_cons_of_not rfl
    rw [hr, hl]
    exact le_rfl
  all_goals simp only [step, hp] at h
  case free =>
    exact call_goes hp h
  case' createLoad | createCas | createStore | deleteCas =>
    have hc : l.pc.calls := by rw [hp]; rfl
  case createLoad i d =>
    split at h <;> obtain ⟨rfl, rfl⟩ := mem_pair h
    · exact createWhile_goes hc _ _ d
    · exact goes_calls hc rfl rfl trivial rfl rfl
  case createCas i seq d =>
    have hsq : seqOfKeyInUse seq = false := by simpa only [Placed, hp] using hpl
    rcases mem_weakCas.mp h with ⟨heq, h⟩ | h
    · rw [← heq] at hsq
      cases h
      exact Effect.goes (.created i d hsq rfl rfl) trivial (rounds_cons_of_not rfl) hc rfl rfl
    · cases h
      exact createWhile_goes hc i _ d
  case createStore i d =>
    obtain ⟨rfl, rfl⟩ := mem_pair h
    exact Effect.goes (.stored i d hp rfl rfl) trivial rfl hc rfl rfl
  case deleteCas i seq =>
    have hsq : seqOfKeyInUse seq := by simpa only [Placed, hp] using hpl
    split at h
    · rename_i heq
      obtain rfl := heq
      obtain ⟨rfl, rfl⟩ := mem_pair h
      exact Effect.goes (.deleted i hp hsq rfl rfl) trivial (rounds_cons_of_not rfl) hc rfl rfl
    · obtain ⟨rfl, rfl⟩ := mem_pair h
      exact goes_calls hc rfl rfl trivial rfl rfl
  case exitRound r =>
    split at h
    · obtain ⟨rfl, rfl⟩ := mem_pair h
      exact goes_stays rfl rfl trivial (zero_le _)
    rename_i r
    obtain ⟨rfl, rfl⟩ := mem_pair h
    refine ⟨.round rfl rfl, trivial, ?_⟩
    have hr : rounds t (m.log (.round t)).history = rounds t m.history + 1 :=
      countP_cons_of_pos (by simp [Event.begins])
    have hl : l.roundsLeft = r + 1 := by simp only [Thread.roundsLeft, hp]
    rw [hr, hl]
    change rounds t m.history + 1 + (r + 1 - 1) ≤ _
    omega
  case exitLoad f =>
    obtain ⟨rfl, rfl⟩ := mem_pair h
    have hl : l.roundsLeft = f.rounds - 1 := by simp only [Thread.roundsLeft, hp]
    rw [exitLoad]
    split
    · dsimp only
      split
      · rename_i hsq
        split
        · exact goes_stays rfl rfl trivial hl.ge
        · rename_i hd
          exact goes_stays rfl rfl ⟨hsq.1, hsq.2, hd⟩ hl.ge
      · exact goes_stays rfl rfl trivial hl.ge
    · split
      · exact goes_stays rfl rfl trivial (zero_le _)
      · exact goes_stays rfl rfl trivial hl.ge
  case exitDestructor f i seq =>
    have hl : l.roundsLeft = f.rounds - 1 := by simp only [Thread.roundsLeft, hp]
    have hkw : seqOfKeyInUse seq ∧ seq = (l.keyData i).seq ∧ (l.keyData i).data ≠ 0 := by
      simpa only [Placed, hp] using hpl
    split at h <;> obtain ⟨rfl, rfl⟩ := mem_pair h
    · exact goes_stays rfl rfl trivial hl.ge
    · exact ⟨.loaded f i seq hp rfl rfl, hkw, Nat.add_le_add_left hl.ge _⟩
  case exited =>
    cases h

end

/-! What holds in every run: sequence numbers count the turns of their slots, the threads' data
agree with the history, and whoever calls a destructor calls it with a value it has set. -/
section
variable {t : Tid} {m m' : Mem Tid w} {l l' : Thread w}

/-- Fewer uses of a slot than sequence numbers can tell apart. -/
def FewReuses (m : Mem Tid w) : Prop := ∀ i, creations i m.history < 2 ^ (w - 1)

instance (m : Mem Tid w) : Decidable (FewReuses m) :=
  inferInstanceAs (Decidable (∀ i, creations i m.history < 2 ^ (w - 1)))

/-- The sequence number counts the turns; the odd ones are creations. -/
structure Counted (m : Mem Tid w) (i : Slot) : Prop where
  seq : m.seq i = BitVec.ofNat w (turns i m.history)
  parity : 2 * creations i m.history = turns i m.history + turns i m.history % 2

variable {e : Event Tid w} {k : KeyData w} {j : Slot} {u : Tid}

theorem Counted.turns_lt (h : Counted m i) (few : FewReuses m) : turns i m.history < 2 ^ w := by
  have hp := h.parity
  have hf := few i
  cases w with
  | zero =>
    omega
  | succ w =>
    rw [Nat.add_sub_cancel] at hf
    rw [pow_succ]
    omega

theorem Counted.inUse_iff (h : Counted m i) (few : FewReuses m) :
    seqOfKeyInUse (m.seq i) ↔ turns i m.history % 2 = 1 := by
  rw [h.seq, seqOfKeyInUse_ofNat (h.turns_lt few), decide_eq_true_iff]

theorem creations_le_cons (i e) (h : List (Event Tid w)) :
    creations i h ≤ creations i (e :: h) := by
  rw [creations, creations, countP_cons]
  exact le_add_right _ _

theorem Effect.fewReuses (h : Effect t m l m' l') (few : FewReuses m') : FewReuses m := by
  cases h with
  | stays | cleared | loaded | stored => exact few
  | set | created | deleted | destroyed | round =>
    exact fun i => (creations_le_cons i _ _).trans_lt (few i)

theorem Counted.log (h : Counted m i) (he : e.turns i = false) : Counted (m.log e) i := by
  have hc : e.creates i = false := by
    cases e <;> simp_all [Event.turns, Event.creates]
  have ht : turns i (m.log e).history = turns i m.history :=
    countP_cons_of_neg (by simp [he])
  have hce : creations i (m.log e).history = creations i m.history :=
    countP_cons_of_neg (by simp [hc])
  constructor
  · rw [ht]
    exact h.seq
  · rw [ht, hce]
    exact h.parity

theorem incrementSeq_seq (i j) : (m.incrementSeq i).seq j =
    if j = i then m.seq j + seqIncrementStep w else m.seq j := by
  by_cases hj : j = i
  · subst hj
    simp [Mem.incrementSeq, Mem.seq]
  · simp [Mem.incrementSeq, Mem.seq, hj]

theorem Counted.turn (h : Counted m j) (hi : e.turns i) (hj : ∀ k ≠ i, e.turns k = false)
    (hc : creations i (e :: m.history) * 2 = turns i m.history + 1 + (turns i m.history + 1) % 2) :
    Counted ((m.incrementSeq i).log e) j := by
  by_cases hji : j = i
  · subst hji
    have ht : turns j (e :: m.history) = turns j m.history + 1 := by
      rw [turns_cons, if_pos hi]
    constructor
    · change (m.incrementSeq j).seq j = BitVec.ofNat w (turns j (e :: m.history))
      rw [ht, incrementSeq_seq, if_pos rfl, h.seq, ofNat_add_seqIncrementStep]
    change 2 * creations j (e :: m.history) = turns j (e :: m.history) +
      turns j (e :: m.history) % 2
    rw [ht, mul_comm]
    exact hc
  · have hsm : Counted (m.incrementSeq i) j := by
      constructor
      · rw [incrementSeq_seq, if_neg hji]
        exact h.seq
      · exact h.parity
    exact hsm.log (hj j hji)

theorem Effect.counted (h : Effect t m l m' l') (few : FewReuses m) (hm : ∀ i, Counted m i)
    (j) : Counted m' j := by
  cases h with
  | stays | cleared | loaded => exact hm j
  | stored i d =>
    have hsq : (m.storeDestructor i d).seq j = m.seq j := by
      by_cases hj : j = i
      · subst hj
        simp [Mem.storeDestructor, Mem.seq]
      · simp [Mem.storeDestructor, Mem.seq, hj]
    exact ⟨hsq.trans (hm j).seq, (hm j).parity⟩
  | set | destroyed | round => exact (hm j).log rfl
  | created i d unused =>
    have hen : ¬turns i m.history % 2 = 1 := by
      rw [← (hm i).inUse_iff few, unused]
      exact nofun
    have hc : creations i (.created i d :: m.history) = creations i m.history + 1 :=
      countP_cons_of_pos (by simp [Event.creates])
    have hp := (hm i).parity
    refine (hm j).turn (by simp [Event.turns]) ?_ (by omega)
    intro k hk
    simp [Event.turns, hk.symm]
  | deleted i place inUse =>
    have ho : turns i m.history % 2 = 1 := ((hm i).inUse_iff few).mp inUse
    have hc : creations i (.deleted i :: m.history) = creations i m.history :=
      countP_cons_of_neg (by simp [Event.creates])
    have hp := (hm i).parity
    refine (hm j).turn (by simp [Event.turns]) ?_ (by omega)
    intro k hk
    simp [Event.turns, hk.symm]

theorem Effect.calls {P : Tid → Slot → BitVec w → BitVec w → List (Event Tid w) → Prop}
    (h : Effect t m l m' l')
    (old : ∀ u i d v before, .destroyed u i d v :: before <:+ m.history → P u i d v before)
    (new : ∀ f i d, l.pc = .exitRecheck f i (m.seq i) d → P t i d (l.keyData i).data m.history) :
    ∀ u i d v before, .destroyed u i d v :: before <:+ m'.history → P u i d v before := by
  cases h with
  | stays | cleared | loaded | stored => exact old
  | set | created | deleted | round =>
    intro u i d v before hsf
    rcases List.suffix_cons_iff.mp hsf with heq | hsf
    · cases heq
    · exact old u i d v before hsf
  | destroyed f i d place =>
    intro u j d' v before hsf
    rcases List.suffix_cons_iff.mp hsf with heq | hsf
    · cases heq
      exact new f i d place
    · exact old u j d' v before hsf

variable [DecidableEq Tid]

theorem Agrees.specific_of_stale (hk : Agrees t i m.history k)
    (hm : Counted m i) (few : FewReuses m)
    (stale : ¬(seqOfKeyInUse (m.seq i) ∧ k.seq = m.seq i)) : specific t i m.history = 0 := by
  apply specific_eq_zero
  by_cases ht : setTurns t i m.history = turns i m.history
  · apply lastSet_of_setUnder_eq_none
    by_contra hst
    have ho := hk.odd hst
    rw [ht] at ho
    exact stale ⟨(hm.inUse_iff few).mpr ho, by rw [hk.seq, ht, hm.seq]⟩
  · exact lastSet_of_turned ht

theorem Agrees.setTurns_eq (hk : Agrees t i m.history k)
    (hm : Counted m i) (few : FewReuses m) (hsq : k.seq = m.seq i) :
    setTurns t i m.history = turns i m.history := by
  have hl := hm.turns_lt few
  have hn := congrArg BitVec.toNat (hk.seq.symm.trans (hsq.trans hm.seq))
  rwa [toNat_ofNat, toNat_ofNat, mod_eq_of_lt hl, mod_eq_of_lt (setTurns_le.trans_lt hl)] at hn

theorem Agrees.other {h} (hk : Agrees u j h k)
    (he : e.turns j ∨ e.concerns u j = false) : Agrees u j (e :: h) k := by
  rcases he with he | he
  · exact hk.turned he
  · exact hk.foreign he

theorem turns_or_not_concerns_created (u : Tid) (i j d) :
    (Event.created i d : Event Tid w).turns j ∨
      (Event.created i d : Event Tid w).concerns u j = false := by
  by_cases hij : i = j <;> simp [Event.turns, Event.concerns, hij]

theorem turns_or_not_concerns_deleted (u : Tid) (i j) : (Event.deleted i : Event Tid w).turns j ∨
      (Event.deleted i : Event Tid w).concerns u j = false := by
  by_cases hij : i = j <;> simp [Event.turns, Event.concerns, hij]

theorem Effect.agrees_other (h : Effect t m l m' l')
    (hu : u ≠ t) (hk : Agrees u j m.history k) : Agrees u j m'.history k := by
  cases h with
  | stays | cleared | loaded | stored => exact hk
  | set | destroyed | round => exact hk.foreign (by simp [Event.concerns, hu.symm])
  | created i d => exact hk.other (turns_or_not_concerns_created u i j d)
  | deleted i => exact hk.other (turns_or_not_concerns_deleted u i j)

theorem Effect.agrees_self (h : Effect t m l m' l') (few : FewReuses m)
    (hm : ∀ i, Counted m i) (hl : ∀ j, Agrees t j m.history (l.keyData j)) (j) :
    Agrees t j m'.history (l'.keyData j) := by
  cases h with
  | stays data | loaded _ _ _ _ data | stored _ _ _ data =>
    rw [data]
    exact hl j
  | round data =>
    rw [data]
    exact (hl j).foreign rfl
  | created i d _ data =>
    rw [data]
    exact (hl j).other (turns_or_not_concerns_created t i j d)
  | deleted i _ _ data =>
    rw [data]
    exact (hl j).other (turns_or_not_concerns_deleted t i j)
  | cleared i stale data =>
    rw [data]
    by_cases hj : j = i
    · subst hj
      rw [update_self]
      exact (hl j).cleared ((hl j).specific_of_stale (hm j) few stale)
    · rw [update_of_ne hj]
      exact hl j
  | set i v _ _ _ inUse data =>
    rw [data]
    by_cases hj : j = i
    · subst hj
      rw [update_self, (hm j).seq]
      exact agrees_set (((hm j).inUse_iff few).mp inUse) v
    · rw [update_of_ne hj]
      exact (hl j).foreign (by simp [Event.concerns, Ne.symm hj])
  | destroyed f i d _ data =>
    rw [data]
    by_cases hj : j = i
    · subst hj
      rw [update_self]
      exact (hl j).destroyed d _
    · rw [update_of_ne hj]
      exact (hl j).foreign (by simp [Event.concerns, Ne.symm hj])

structure Kept (s : State Tid (Mem Tid w) (Thread w)) : Prop where
  counted : ∀ i, Counted s.mem i
  placed : ∀ u, Placed (s.pc u)
  spent : ∀ u, rounds u s.mem.history + (s.pc u).roundsLeft ≤ pthreadDestructorIterations
  agrees : ∀ u i, Agrees u i s.mem.history ((s.pc u).keyData i)
  calls : ∀ u i d v before, .destroyed u i d v :: before <:+ s.mem.history →
    v ≠ 0 ∧ (setUnder u i before).map fst = some v

theorem kept_initial (calls : Tid → List (Call w)) : Kept (initial calls) where
  counted _ := ⟨rfl, rfl⟩
  placed _ := trivial
  spent _ := le_of_eq rfl
  agrees _ _ := agrees_nil
  calls _ _ _ _ _ hsf := absurd (eq_nil_of_suffix_nil hsf) (cons_ne_nil _ _)

theorem Effect.rounds_other (h : Effect t m l m' l') (hu : u ≠ t) :
    rounds u m'.history = rounds u m.history := by
  cases h with
  | stays | cleared | loaded | stored => rfl
  | set | destroyed | created | deleted => exact rounds_cons_of_not rfl
  | round => exact rounds_cons_of_not (by simp [Event.begins, hu.symm])

theorem Kept.step {s : State Tid (Mem Tid w) (Thread w)} (hs : Kept s)
    (few : FewReuses s.mem) (h : Goes t s.mem (s.pc t) m' l') : Kept ⟨m', update s.pc t l'⟩ where
  counted := h.effect.counted few hs.counted
  placed := forall_update h.placed hs.placed
  spent u := by
    by_cases hu : u = t
    · subst hu
      dsimp only
      rw [update_self]
      exact h.spent.trans (hs.spent u)
    · dsimp only
      rw [update_of_ne hu, h.effect.rounds_other hu]
      exact hs.spent u
  agrees u i := by
    by_cases hu : u = t
    · subst hu
      dsimp only
      rw [update_self]
      exact h.effect.agrees_self few hs.counted (hs.agrees u) i
    · dsimp only
      rw [update_of_ne hu]
      exact h.effect.agrees_other hu (hs.agrees u i)
  calls := by
    refine h.effect.calls hs.calls ?_
    intro f i d hp
    have hkw := hs.placed t
    rw [Placed, hp] at hkw
    exact ⟨hkw.2.2, (hs.agrees t i).last hkw.2.2⟩

end

/-! Which destructor is called. A creation publishes the sequence number before it stores the
destructor, so what is done to a key in between meets the destructor of an earlier one. -/
section
variable {t : Tid} {m m' : Mem Tid w} {l l' : Thread w}

def Pc.creating (i : Slot) : Pc w → Bool
  | .createStore j _ => j = i
  | _ => false

def Thread.actsOn (m : Mem Tid w) (l : Thread w) : Option Slot :=
  match l.pc with
  | .free =>
    match l.todo with
    | .setspecific key _ :: _ => slotOf key
    | _ => none
  | .deleteCas i seq => if m.seq i = seq then some i else none
  | _ => none

/-- Keys are set and deleted only after the call that created them has returned. -/
def Established (t : Tid) (s : State Tid (Mem Tid w) (Thread w)) : Prop :=
  ∀ i ∈ (s.pc t).actsOn s.mem, ∀ u, (s.pc u).pc.creating i = false

instance [Fintype Tid] (t : Tid) (s : State Tid (Mem Tid w) (Thread w)) :
    Decidable (Established t s) :=
  inferInstanceAs (Decidable (∀ i ∈ (s.pc t).actsOn s.mem, ∀ u, (s.pc u).pc.creating i = false))

theorem Pc.creating_of_calm {pc : Pc w} (h : pc.calm) (i) : pc.creating i = false := by
  cases pc <;> simp_all [Pc.calm, Pc.creating]

theorem Pc.creating_createStore (i) (d : BitVec w) : (Pc.createStore i d).creating i := by
  simp [Pc.creating]

variable {e : Event Tid w} {h : List (Event Tid w)} {u : Tid}

theorem registered_cons (he : e.creates i = false) : registered i (e :: h) = registered i h := by
  cases e <;> simp_all [Event.creates, registered]

theorem Event.creates_of_turns (he : e.turns i = false) : e.creates i = false := by
  cases e <;> simp_all [Event.turns, Event.creates]

theorem Effect.history (h : Effect t m l m' l') :
    m'.history = m.history ∨ ∃ e, m'.history = e :: m.history := by
  cases h with
  | stays | cleared | loaded | stored => exact .inl rfl
  | set | created | deleted | destroyed | round => exact .inr ⟨_, rfl⟩

theorem Effect.sets {v} (h : Effect t m l m' l')
    (hst : m'.history = .set u i v :: m.history) : u = t ∧ i ∈ l.actsOn m := by
  cases h with
  | stays | cleared | loaded | stored =>
    exact absurd hst.symm (cons_ne_self _ _)
  | set j v free call slot =>
    cases hst
    refine ⟨rfl, ?_⟩
    rw [Thread.actsOn, free]
    rw [call]
    exact slot
  | created | deleted | destroyed | round => cases hst

theorem Effect.creates (h : Effect t m l m' l') (hp : l'.pc.creating i) :
    ∃ d, m' = (m.incrementSeq i).log (.created i d) ∧ l'.pc = .createStore i d ∧
      seqOfKeyInUse (m.seq i) = false := by
  cases h with
  | created j d unused data place =>
    rw [place, Pc.creating, decide_eq_true_iff] at hp
    subst hp
    exact ⟨d, rfl, place, unused⟩
  | loaded f j seq place data place' =>
    rw [place'] at hp
    cases hp
  | stays _ calm | cleared _ _ _ calm | set _ _ _ _ _ _ _ calm | stored _ _ _ _ calm
  | deleted _ _ _ _ calm | destroyed _ _ _ _ _ calm | round _ calm =>
    rw [Pc.creating_of_calm calm] at hp
    cases hp

theorem Effect.rechecks {f seq d} (h : Effect t m l m' l') (hp : l'.pc = .exitRecheck f i seq d) :
    m' = m ∧ l.pc = .exitDestructor f i seq ∧ d = m.keyDestructor i := by
  cases h with
  | loaded f' j seq' place data place' =>
    rw [place'] at hp
    cases hp
    exact ⟨rfl, place, rfl⟩
  | created j d unused data place =>
    rw [place] at hp
    cases hp
  | stays _ calm | cleared _ _ _ calm | set _ _ _ _ _ _ _ calm | stored _ _ _ _ calm
  | deleted _ _ _ _ calm | destroyed _ _ _ _ _ calm | round _ calm =>
    rw [hp] at calm
    cases calm

theorem incrementSeq_keyDestructor (i j) :
    (m.incrementSeq i).keyDestructor j = m.keyDestructor j := by
  by_cases hj : j = i
  · subst hj
    simp [Mem.incrementSeq, Mem.keyDestructor]
  · simp [Mem.incrementSeq, Mem.keyDestructor, hj]

theorem Effect.destructor (h : Effect t m l m' l') (hn : ∀ i, l.pc.creating i = false)
    (i) : m'.keyDestructor i = m.keyDestructor i ∧
      (l'.pc.creating i = false → registered i m'.history = registered i m.history) := by
  cases h with
  | stays | cleared | loaded => exact ⟨rfl, fun _ => rfl⟩
  | set | destroyed | round => exact ⟨rfl, fun _ => registered_cons rfl⟩
  | deleted j => exact ⟨incrementSeq_keyDestructor j i, fun _ => registered_cons rfl⟩
  | created j d unused data place =>
    refine ⟨incrementSeq_keyDestructor j i, fun hp => registered_cons ?_⟩
    rw [place] at hp
    exact hp
  | stored j d place =>
    have hj := hn j
    rw [place, Pc.creating_createStore] at hj
    cases hj

theorem Effect.inUse (h : Effect t m l m' l') (hin : seqOfKeyInUse (m.seq i))
    (ha : i ∉ l.actsOn m) (hn : ∀ i, l.pc.creating i = false) :
    registered i m'.history = registered i m.history ∧ m'.seq i = m.seq i := by
  cases h with
  | stays | cleared | loaded => exact ⟨rfl, rfl⟩
  | set | destroyed | round => exact ⟨registered_cons rfl, rfl⟩
  | created j d unused =>
    have hij : i ≠ j := by
      rintro rfl
      rw [hin] at unused
      cases unused
    refine ⟨registered_cons (by simp [Event.creates, hij.symm]), ?_⟩
    exact (incrementSeq_seq j i).trans (if_neg hij)
  | deleted j place =>
    have hij : i ≠ j := by
      rintro rfl
      apply ha
      rw [Thread.actsOn, place]
      dsimp only
      rw [if_pos rfl]
      rfl
    exact ⟨registered_cons rfl, (incrementSeq_seq j i).trans (if_neg hij)⟩
  | stored j d place =>
    have hj := hn j
    rw [place, Pc.creating_createStore] at hj
    cases hj

variable [DecidableEq Tid]

/-- A key in use has the registered destructor, unless its creation has still to store it; then
nobody has set a value under it. -/
structure Registered (s : State Tid (Mem Tid w) (Thread w)) : Prop where
  pending : ∀ u i d, (s.pc u).pc = .createStore i d →
    d = registered i s.mem.history ∧ seqOfKeyInUse (s.mem.seq i)
  stored : ∀ i, (∀ u, (s.pc u).pc.creating i = false) →
    s.mem.keyDestructor i = registered i s.mem.history
  settled : ∀ u i, setUnder u i s.mem.history ≠ none →
    setTurns u i s.mem.history = turns i s.mem.history → ∀ v, (s.pc v).pc.creating i = false
  rechecked : ∀ u f i seq d, (s.pc u).pc = .exitRecheck f i seq d →
    setTurns u i s.mem.history = turns i s.mem.history → d = registered i s.mem.history
  calls : ∀ u i d v before, .destroyed u i d v :: before <:+ s.mem.history →
    setUnder u i before = some (v, d)

theorem registered_initial (calls : Tid → List (Call w)) : Registered (initial calls) where
  pending _ _ _ hp := nomatch hp
  stored _ _ := rfl
  settled _ _ hst := absurd rfl hst
  rechecked _ _ _ _ _ hp := nomatch hp
  calls _ _ _ _ _ hsf := absurd (eq_nil_of_suffix_nil hsf) (cons_ne_nil _ _)

theorem before_of_setTurns_eq
    (hst : ∀ v, e ≠ .set u i v) (heq : setTurns u i (e :: h) = turns i (e :: h)) :
    e.turns i = false ∧ setTurns u i h = turns i h ∧ setUnder u i (e :: h) = setUnder u i h := by
  have hl : setTurns u i h ≤ turns i h := setTurns_le
  have hsm : setTurns u i (e :: h) = setTurns u i h ∧ setUnder u i (e :: h) = setUnder u i h := by
    cases e with
    | set v j value =>
      have hv : ¬(v = u ∧ j = i) := by
        rintro ⟨rfl, rfl⟩
        exact hst value rfl
      simp [setTurns, setUnder, hv]
    | created | deleted | destroyed | round => exact ⟨rfl, rfl⟩
  rw [hsm.1, turns_cons] at heq
  cases he : e.turns i with
  | true =>
    rw [if_pos he] at heq
    omega
  | false =>
    simp only [he, false_eq_true, if_false, add_zero] at heq
    exact ⟨rfl, heq, hsm.2⟩

theorem Effect.before (h : Effect t m l m' l') (hst : ∀ v, m'.history ≠ .set u i v :: m.history)
    (heq : setTurns u i m'.history = turns i m'.history) :
    turns i m'.history = turns i m.history ∧ setTurns u i m.history = turns i m.history ∧
      setUnder u i m'.history = setUnder u i m.history ∧
      registered i m'.history = registered i m.history := by
  rcases h.history with hh | ⟨e, hh⟩ <;> rw [hh] at heq ⊢
  · exact ⟨rfl, heq, rfl, rfl⟩
  · obtain ⟨ht, ho, hu⟩ := before_of_setTurns_eq (fun v he => hst v (by rw [hh, he])) heq
    refine ⟨?_, ho, hu, registered_cons (Event.creates_of_turns ht)⟩
    rw [turns_cons, ht]
    rfl

section
variable {s : State Tid (Mem Tid w) (Thread w)} (hs : Registered s)
include hs

theorem Registered.store {d} (hp : (s.pc t).pc = .createStore i d)
    (calm : l'.pc.calm) : Registered ⟨s.mem.storeDestructor i d, update s.pc t l'⟩ where
  pending u j d' hu := by
    have hc : ((update s.pc t l' u).pc).creating j := by
      rw [show (update s.pc t l' u).pc = _ from hu]
      exact Pc.creating_createStore j d'
    obtain ⟨hut, -⟩ := of_update (Q := fun l : Thread w => l.pc.creating j) hc
      (by simp [Pc.creating_of_calm calm])
    dsimp only at hu
    rw [update_of_ne hut] at hu
    obtain ⟨hd, hin⟩ := hs.pending u j d' hu
    refine ⟨hd, ?_⟩
    by_cases hj : j = i
    · subst hj
      simpa [Mem.storeDestructor, Mem.seq] using hin
    · simpa [Mem.storeDestructor, Mem.seq, hj] using hin
  stored j hn := by
    by_cases hj : j = i
    · subst hj
      have hd := (hs.pending t j d hp).1
      simpa [Mem.storeDestructor, Mem.keyDestructor] using hd
    have ho : ∀ u, (s.pc u).pc.creating j = false := by
      intro u
      by_cases hut : u = t
      · subst hut
        simp [hp, Pc.creating, Ne.symm hj]
      have hu := hn u
      dsimp only at hu
      rwa [update_of_ne hut] at hu
    have hso := hs.stored j ho
    simpa [Mem.storeDestructor, Mem.keyDestructor, hj] using hso
  settled u j hst heq :=
    forall_update (Q := fun l : Thread w => l.pc.creating j = false)
      (Pc.creating_of_calm calm j) (hs.settled u j hst heq)
  rechecked u f j seq d' hu heq := by
    by_cases hut : u = t
    · subst hut
      dsimp only at hu
      rw [update_self] at hu
      rw [hu] at calm
      cases calm
    · dsimp only at hu
      rw [update_of_ne hut] at hu
      exact hs.rechecked u f j seq d' hu heq
  calls := hs.calls

theorem Registered.move (kept : Kept s) (few : FewReuses m') (h : Goes t s.mem (s.pc t) m' l')
    (established : Established t s) (hn : ∀ i, (s.pc t).pc.creating i = false) :
    Registered ⟨m', update s.pc t l'⟩ where
  pending u i d hu := by
    dsimp only at hu
    by_cases hut : u = t
    · subst hut
      rw [update_self] at hu
      have hc : l'.pc.creating i := by
        rw [hu]
        exact Pc.creating_createStore i d
      obtain ⟨d', hm', hp, unused⟩ := h.effect.creates hc
      rw [hu] at hp
      cases hp
      have few0 := h.effect.fewReuses few
      have hcd := h.effect.counted few0 kept.counted i
      refine ⟨by simp [hm', Mem.log, registered], (hcd.inUse_iff few).mpr ?_⟩
      have hen : ¬turns i s.mem.history % 2 = 1 := by
        rw [← (kept.counted i).inUse_iff few0, unused]
        exact nofun
      have ht : turns i m'.history = turns i s.mem.history + 1 := by
        rw [hm']
        exact (turns_cons _).trans (by simp [Event.turns, Mem.incrementSeq])
      omega
    · rw [update_of_ne hut] at hu
      obtain ⟨hd, hin⟩ := hs.pending u i d hu
      have ha : i ∉ (s.pc t).actsOn s.mem := by
        intro hi
        have hno := established i hi u
        rw [hu, Pc.creating_createStore] at hno
        cases hno
      obtain ⟨hr, hsq⟩ := h.effect.inUse hin ha hn
      rw [hr, hsq]
      exact ⟨hd, hin⟩
  stored i hno := by
    have hod : ∀ u, (s.pc u).pc.creating i = false := by
      intro u
      by_cases hut : u = t
      · rw [hut]
        exact hn i
      have hu := hno u
      dsimp only at hu
      rwa [update_of_ne hut] at hu
    have hsf := hno t
    dsimp only at hsf
    rw [update_self] at hsf
    obtain ⟨hds, hr⟩ := h.effect.destructor hn i
    exact hds.trans ((hs.stored i hod).trans (hr hsf).symm)
  settled u i hst heq := by
    have ho : ∀ v, (s.pc v).pc.creating i = false := by
      by_cases hss : ∃ v, m'.history = .set u i v :: s.mem.history
      · obtain ⟨v, hv⟩ := hss
        exact established i (h.effect.sets hv).2
      · obtain ⟨-, hod, hud, -⟩ := h.effect.before (not_exists.mp hss) heq
        exact hs.settled u i (fun hno => hst (hud.trans hno)) hod
    refine forall_update (Q := fun l : Thread w => l.pc.creating i = false) ?_ ho
    by_contra hc
    obtain ⟨d, hm', -, -⟩ := h.effect.creates (not_eq_false _ ▸ hc)
    have hss : ∀ v, m'.history ≠ .set u i v :: s.mem.history := by
      intro v hv
      rw [hm'] at hv
      cases hv
    have ht := (h.effect.before hss heq).1
    rw [hm'] at ht
    have htr : turns i (.created i d :: s.mem.history) = turns i s.mem.history + 1 := by
      rw [turns_cons, if_pos (by simp [Event.turns])]
    exact absurd (htr.symm.trans ht) (succ_ne_self _)
  rechecked u f i seq d hu heq := by
    dsimp only at hu heq ⊢
    by_cases hut : u = t
    · subst hut
      rw [update_self] at hu
      obtain ⟨rfl, hp, rfl⟩ := h.effect.rechecks hu
      have hkw := kept.placed u
      rw [Placed, hp] at hkw
      have hst : setUnder u i s.mem.history ≠ none := by
        intro hno
        have hl := (kept.agrees u i).last hkw.2.2
        rw [hno] at hl
        cases hl
      exact hs.stored i (hs.settled u i hst heq)
    · rw [update_of_ne hut] at hu
      have hss : ∀ v, m'.history ≠ .set u i v :: s.mem.history :=
        fun v hv => hut (h.effect.sets hv).1
      obtain ⟨-, hod, -, hr⟩ := h.effect.before hss heq
      rw [hr]
      exact hs.rechecked u f i seq d hu hod
  calls := by
    refine h.effect.calls hs.calls ?_
    intro f i d hp
    have few0 := h.effect.fewReuses few
    have hkw := kept.placed t
    rw [Placed, hp] at hkw
    have hl := (kept.agrees t i).last hkw.2.2
    have heq := (kept.agrees t i).setTurns_eq (kept.counted i) few0 hkw.2.1.symm
    obtain ⟨⟨v, d'⟩, hud, hv⟩ := Option.map_eq_some_iff.mp hl
    have hsd := setUnder_eq (by rw [hud]; exact Option.some_ne_none _) heq
    rw [hud] at hsd ⊢
    have hd' : d' = registered i s.mem.history := Option.some.inj hsd
    have hd : d = registered i s.mem.history := hs.rechecked t f i _ d hp heq
    rw [hd, ← hd', ← hv]

end

end

variable {Tid : Type} [Fintype Tid] [DecidableEq Tid] {w : ℕ} {calls : Tid → List (Call w)}
  {s s' : State Tid (Mem Tid w) (Thread w)} {t : Tid}

theorem step_run (hp : ∀ u, Placed (s.pc u)) (h : (program Tid w).Step t s s') :
    ∃ m' l', s' = ⟨m', update s.pc t l'⟩ ∧ (m', l') ∈ step t s.mem (s.pc t) ∧
      Goes t s.mem (s.pc t) m' l' := by
  cases h with
  | @run m' l' next => exact ⟨m', l', rfl, next, step_goes (hp t) next⟩
  | wake call => cases call

theorem reaches_kept (h : (program Tid w).Reaches (initial calls) s) :
    (∀ u, Placed (s.pc u)) ∧ (FewReuses s.mem → Kept s) := by
  refine h.invariant (I := fun s => (∀ u, Placed (s.pc u)) ∧ (FewReuses s.mem → Kept s))
    ⟨fun _ => trivial, fun _ => kept_initial calls⟩ ?_
  intro t s s' ih hsp
  obtain ⟨m', l', rfl, -, goes⟩ := step_run ih.1 hsp
  refine ⟨forall_update goes.placed ih.1, ?_⟩
  intro few
  have few0 : FewReuses s.mem := goes.effect.fewReuses few
  exact (ih.2 few0).step few0 goes

theorem reaches_registered (h : (program Tid w).ReachesUnder Established (initial calls) s)
    (few : FewReuses s.mem) : Registered s := by
  induction h with
  | refl => exact registered_initial calls
  | @tail s s' t hr established hsp ih =>
    have hkp := reaches_kept hr.reaches
    obtain ⟨m', l', rfl, next, goes⟩ := step_run hkp.1 hsp
    have few0 : FewReuses s.mem := goes.effect.fewReuses few
    by_cases hc : ∃ i d, (s.pc t).pc = .createStore i d
    · obtain ⟨i, d, hp⟩ := hc
      simp only [step, hp] at next
      cases List.mem_singleton.mp next
      exact (ih few0).store hp rfl
    · refine (ih few0).move (hkp.2 few0) few goes established ?_
      intro i
      cases hp : (s.pc t).pc with
      | createStore j d => exact absurd ⟨j, d, hp⟩ hc
      | _ => rfl

/-- A key has the value last set under its current incarnation and not handed to a destructor, or
null. A destructor gets a non-null value that the exiting thread has set, in a limited number of
rounds; if keys are used only once they are created, it is that of the incarnation under which the
value was set. -/
theorem specific_and_destroyed (h : (program Tid w).Reaches (initial calls) s)
    (few : FewReuses s.mem) : (∀ u key, (getspecific s.mem (s.pc u) key).1 =
      (slotOf key).elim 0 fun i => specific u i s.mem.history) ∧
    (∀ u, rounds u s.mem.history ≤ pthreadDestructorIterations) ∧
    (∀ u i d v before, .destroyed u i d v :: before <:+ s.mem.history →
      v ≠ 0 ∧ (setUnder u i before).map fst = some v) ∧
    ((program Tid w).ReachesUnder Established (initial calls) s →
      ∀ u i d v before, .destroyed u i d v :: before <:+ s.mem.history →
        setUnder u i before = some (v, d)) := by
  have hkp := (reaches_kept h).2 few
  refine ⟨?_, fun u => (le_add_right _ _).trans (hkp.spent u), hkp.calls,
    fun hu => (reaches_registered hu few).calls⟩
  intro u key
  rw [getspecific]
  cases hsl : slotOf key with
  | none => rfl
  | some i =>
    have ha := hkp.agrees u i
    have hc := hkp.counted i
    dsimp
    split
    · rename_i hsq
      exact ha.value (ha.setTurns_eq hc few hsq.2)
    · rename_i stale
      exact (ha.specific_of_stale hc few stale).symm

def createSetExit : Fin 1 → List (Call 64) :=
  fun _ => [.create 7, .setspecific (keyOf 0) 5, .exit]

/-- The thread makes its three calls, up to the call of the destructor. -/
theorem specific_and_destroyed_one_thread :
    ∃ s, (program (Fin 1) 64).ReachesUnder Established (initial createSetExit) s ∧
      s.mem.history.head? = some (.destroyed 0 0 7 5) ∧
      setUnder 0 0 s.mem.history.tail = some (5, 7) ∧
      (getspecific s.mem (s.pc 0) (keyOf 0)).1 = specific 0 0 s.mem.history := by
  have hr : ∃ s, (program (Fin 1) 64).ReachesUnder Established (initial createSetExit) s ∧
      FewReuses s.mem ∧ s.mem.history.head? = some (.destroyed 0 0 7 5) :=
    Program.exists_reachesUnder (replicate 10 (.run 0 0)) (by decide +kernel)
  obtain ⟨s, hs, hf, hhd⟩ := hr
  obtain ⟨hg, -, -, hc⟩ := specific_and_destroyed hs.reaches hf
  have hh := cons_head?_tail hhd
  refine ⟨s, hs, hhd, hc hs 0 0 7 5 _ ⟨[], hh⟩, ?_⟩
  rw [hg, slotOf_keyOf]
  rfl

def reuse : Fin 2 → List (Call 64)
  | 0 => [.create 7, .delete (keyOf 0), .setspecific (keyOf 0) 5, .exit]
  | 1 => [.create 8]

/-- In the destructor the value last set is null. And a value that is set while the creation of the
key has still to store its destructor goes to the destructor of the key before. -/
theorem value_handed_over :
    (∃ s, (program (Fin 1) 64).Reaches (initial createSetExit) s ∧ FewReuses s.mem ∧
      lastSet 0 0 s.mem.history = 5 ∧ (getspecific s.mem (s.pc 0) (keyOf 0)).1 = 0) ∧
    ∃ s, (program (Fin 2) 64).Reaches (initial reuse) s ∧ FewReuses s.mem ∧
      s.mem.history.head? = some (.destroyed 0 0 7 5) ∧
      setUnder 0 0 s.mem.history.tail = some (5, 8) :=
  ⟨Program.exists_reaches (replicate 10 (.run 0 0)) (by decide +kernel), Program.exists_reaches
      (replicate 6 (.run 0 0) ++ replicate 3 (.run 1 0) ++ replicate 6 (.run 0 0))
      (by decide +kernel)⟩

end PthreadKey
