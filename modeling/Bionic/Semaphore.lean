import Bionic.FutexThreads

/-! POSIX semaphores. One 32-bit word holds a signed count in its upper 31 bits and the shared flag
in the lowest one; the count -1 says that somebody may be asleep. Every operation is a loop around a
weak compare-and-exchange, and every access is a step. The word on which a thread sleeps is named by
the flag it passes to the futex call. -/
namespace Semaphore

open Function (update update_self)
open BitVec (ofNat toNat_ofNat)
open FutexThreads (Program State WakeCount weakCas mem_weakCas mem_pair forall_update)
open List Nat Prod

def semValueMax : ℤ := 0x3fffffff

def semcountSharedMask : BitVec 32 := 0x00000001

def semcountValueMask : BitVec 32 := 0xfffffffe

def semcountFromValue (val : BitVec 32) : BitVec 32 := (val <<< 1) &&& semcountValueMask

def semcountToValue (sval : BitVec 32) : ℤ := (sval.sshiftRight 1).toInt

def semcountOne : BitVec 32 := semcountFromValue 1

def semcountMinusOne : BitVec 32 := semcountFromValue (~~~0)

def semcountDecrement (sval : BitVec 32) : BitVec 32 := (sval - (1 <<< 1)) &&& semcountValueMask

def semcountIncrement (sval : BitVec 32) : BitVec 32 := (sval + (1 <<< 1)) &&& semcountValueMask

/-- The word, or `EINVAL` for a value that does not fit. -/
def semInit (pshared : Bool) (value : ℕ) : Option (BitVec 32) :=
  if semValueMax < value then none
  else
    let count := semcountFromValue (BitVec.ofNat 32 value)
    some (if pshared then count ||| semcountSharedMask else count)

def semGetvalue (count : BitVec 32) : ℤ :=
  let val := semcountToValue count
  if val < 0 then 0 else val

inductive Errno where
  | EAGAIN | EINTR | EINVAL | EOVERFLOW | ETIMEDOUT
  deriving DecidableEq

/-- What a call returned: 0, or -1 with this `errno`. -/
inductive Ret where
  | success
  | failure (errno : Errno)
  deriving DecidableEq

structure Sem where
  count : BitVec 32
  posts : ℕ
  waits : ℕ

/-- The two callers of `__sem_dec`. -/
inductive Waiter where
  | wait | timedwait
  deriving DecidableEq

/-- The two callers of `__sem_trydec`. -/
inductive Trier where
  | trywait | timedwait
  deriving DecidableEq

inductive Pc where
  /-- In no semaphore operation; the last one returned this. -/
  | outside (last : Option Ret)
  /-- Before the load of `SEM_GET_SHARED` in `sem_wait` or `__sem_timedwait`. -/
  | waitShared (w : Waiter)
  /-- Before the first load of `__sem_dec`, with the caller's flag. -/
  | decLoad (w : Waiter) (flag : BitVec 32)
  /-- Before a compare-and-exchange of `__sem_dec`. -/
  | decCas (w : Waiter) (flag shared old : BitVec 32)
  | futexWait (w : Waiter) (flag : BitVec 32)
  | asleep (w : Waiter) (flag : BitVec 32)
  | trydecLoad (c : Trier)
  | trydecCas (c : Trier) (shared old : BitVec 32)
  | checkTimespec
  /-- Before the load of `SEM_GET_SHARED` in `sem_post`. -/
  | postShared
  | incLoad (flag : BitVec 32)
  | incCas (flag shared old : BitVec 32)
  /-- Before the futex wake of `sem_post`. -/
  | postWake (flag : BitVec 32)
  deriving DecidableEq

/-- The loop of `__sem_dec` after `old_value` was read. -/
def decRead (w : Waiter) (flag shared old : BitVec 32) : Pc :=
  if semcountToValue old < 0 then .futexWait w flag else .decCas w flag shared old

/-- What a caller of `__sem_trydec` does when it got nothing. -/
def trydecFailed : Trier → Pc
  | .trywait => .outside (some (.failure .EAGAIN))
  | .timedwait => .checkTimespec

/-- The loop of `__sem_trydec` after `old_value` was read. -/
def trydecRead (c : Trier) (shared old : BitVec 32) : Pc :=
  if semcountToValue old ≤ 0 then trydecFailed c else .trydecCas c shared old

/-- The loop of `__sem_inc` after `old_value` was read. -/
def incRead (flag shared old : BitVec 32) : Pc :=
  if semcountToValue old = semValueMax then .outside (some (.failure .EOVERFLOW))
  else .incCas flag shared old

/-- What a successful compare-and-exchange does to the semaphore. -/
def decExchanged (m : Sem) (shared old : BitVec 32) : Sem :=
  { m with
    count := semcountDecrement old ||| shared
    waits := if 0 < semcountToValue old then m.waits + 1 else m.waits }

def incNew (shared old : BitVec 32) : BitVec 32 :=
  if semcountToValue old < 0 then semcountOne ||| shared else semcountIncrement old ||| shared

def interrupted (sdk : ℕ) (w : Waiter) (flag : BitVec 32) : Pc :=
  match w with
  | .wait => if 24 ≤ sdk then .outside (some (.failure .EINTR)) else .decLoad .wait flag
  | .timedwait => .outside (some (.failure .EINTR))

/-- A time-out of a futex wait; `sem_wait` has none. -/
def timedOut (w : Waiter) : List Pc :=
  match w with
  | .wait => []
  | .timedwait => [.outside (some (.failure .ETIMEDOUT))]

/-- `sdk` is the target version of the application. -/
def step (sdk : ℕ) (m : Sem) : Pc → List (Sem × Pc)
  | .outside _ =>
    [(m, .waitShared .wait), (m, .trydecLoad .timedwait), (m, .trydecLoad .trywait),
      (m, .postShared)]
  | .waitShared w => [(m, .decLoad w (m.count &&& semcountSharedMask))]
  | .decLoad w flag => [(m, decRead w flag (m.count &&& semcountSharedMask) m.count)]
  | .decCas w flag shared old =>
    weakCas (m.count = old) (decExchanged m shared old,
        if 0 < semcountToValue old then .outside (some .success) else .futexWait w flag)
      (m, decRead w flag shared m.count)
  | .futexWait w flag =>
    (if m.count = flag ||| semcountMinusOne then (m, .asleep w flag) else (m, .decLoad w flag)) ::
      (timedOut w).map (m, ·)
  | .asleep w flag =>
    (m, .decLoad w flag) :: (m, interrupted sdk w flag) :: (timedOut w).map (m, ·)
  | .trydecLoad c => [(m, trydecRead c (m.count &&& semcountSharedMask) m.count)]
  | .trydecCas c shared old =>
    weakCas (m.count = old)
      ({ m with count := semcountDecrement old ||| shared, waits := m.waits + 1 },
        .outside (some .success))
      (m, trydecRead c shared m.count)
  | .checkTimespec =>
    [(m, .waitShared .timedwait), (m, .outside (some (.failure .EINVAL))),
      (m, .outside (some (.failure .ETIMEDOUT)))]
  | .postShared => [(m, .incLoad (m.count &&& semcountSharedMask))]
  | .incLoad flag => [(m, incRead flag (m.count &&& semcountSharedMask) m.count)]
  | .incCas flag shared old =>
    weakCas (m.count = old) ({ m with count := incNew shared old, posts := m.posts + 1 },
        if semcountToValue old < 0 then .postWake flag else .outside (some .success))
      (m, incRead flag shared m.count)
  | .postWake _ => []

def sleeps : Pc → Option Bool
  | .asleep _ flag => some (flag != 0)
  | _ => none

def awaken : Pc → Pc
  | .asleep w flag => .decLoad w flag
  | pc => pc

/-- The count `INT_MAX` is more than there are threads. -/
def wakes : Pc → Option (Bool × WakeCount × Pc)
  | .postWake flag => some (flag != 0, .all, .outside (some .success))
  | _ => none

def program (Tid : Type) (sdk : ℕ) : Program Tid Bool Sem Pc where
  step _ := step sdk
  sleeps := sleeps
  awaken := awaken
  wakes := wakes

def initial (Tid : Type) (count : BitVec 32) : State Tid Sem Pc :=
  ⟨⟨count, 0, 0⟩, fun _ => .outside none⟩

section
variable {x : BitVec 32}

theorem semcountToValue_eq (x) : semcountToValue x = x.toInt / 2 := by
  rw [semcountToValue, BitVec.toInt_sshiftRight, Int.shiftRight_eq_div_pow]
  rfl

theorem and_sharedMask (x) : x &&& semcountSharedMask = ofNat 32 (x.toNat % 2) := by
  apply BitVec.eq_of_toNat_eq
  rw [BitVec.toNat_and, toNat_ofNat, mod_eq_of_lt (by omega)]
  exact and_one_is_mod _

theorem and_masks (x) : (x &&& semcountValueMask) ||| (x &&& semcountSharedMask) = x := by
  rw [← BitVec.and_or_distrib_left,
    show semcountValueMask ||| semcountSharedMask = BitVec.allOnes 32 by decide, BitVec.and_allOnes]

theorem shared_cases (x) : x &&& semcountSharedMask = 0 ∨ x &&& semcountSharedMask = 1 := by
  rw [and_sharedMask]
  rcases mod_two_eq_zero_or_one x.toNat with h | h
  · exact .inl (by rw [h]; rfl)
  · exact .inr (by rw [h]; rfl)

theorem shared_sub_two (x) : (x - 2) &&& semcountSharedMask = x &&& semcountSharedMask := by
  rw [and_sharedMask, and_sharedMask]
  congr 1
  bv_omega

theorem shared_add_two (x) : (x + 2) &&& semcountSharedMask = x &&& semcountSharedMask := by
  rw [and_sharedMask, and_sharedMask]
  congr 1
  bv_omega

theorem decrement_or_shared (x) : semcountDecrement x ||| (x &&& semcountSharedMask) = x - 2 := by
  rw [← shared_sub_two x]
  exact and_masks (x - 2)

theorem increment_or_shared (x) : semcountIncrement x ||| (x &&& semcountSharedMask) = x + 2 := by
  rw [← shared_add_two x]
  exact and_masks (x + 2)

theorem toValue_sub_two (h : 0 ≤ semcountToValue x) :
    semcountToValue (x - 2) = semcountToValue x - 1 := by
  rw [semcountToValue_eq] at h ⊢
  have hx := BitVec.toInt_lt (x := x)
  have hs : (x - 2).toInt = x.toInt - 2 := by
    rw [BitVec.toInt_sub, Int.bmod_eq_of_le] <;> simp <;> omega
  rw [hs, semcountToValue_eq]
  omega

theorem toValue_add_two (h : 0 ≤ semcountToValue x) (hm : semcountToValue x < semValueMax) :
    semcountToValue (x + 2) = semcountToValue x + 1 := by
  rw [semcountToValue_eq] at h hm ⊢
  rw [semValueMax] at hm
  have ha : (x + 2).toInt = x.toInt + 2 := by
    rw [BitVec.toInt_add, Int.bmod_eq_of_le] <;> simp <;> omega
  rw [ha, semcountToValue_eq]
  omega

theorem one_or_shared (x) : semcountToValue (semcountOne ||| (x &&& semcountSharedMask)) = 1 ∧
      (semcountOne ||| (x &&& semcountSharedMask)) &&& semcountSharedMask =
        x &&& semcountSharedMask := by
  rcases shared_cases x with h | h <;> rw [h] <;> decide

theorem toValue_minusOne_or_shared (x) :
    semcountToValue ((x &&& semcountSharedMask) ||| semcountMinusOne) = -1 := by
  rcases shared_cases x with h | h <;> rw [h] <;> decide

theorem toValue_of_toNat {v} (h : x.toNat / 2 = v) (hv : v < 2 ^ 30) : semcountToValue x = v := by
  rw [semcountToValue_eq, BitVec.toInt_eq_toNat_of_lt (by omega)]
  omega

theorem semcountFromValue_ofNat (v) : semcountFromValue (ofNat 32 v) = ofNat 32 (2 * v) := by
  have hs : ofNat 32 v <<< 1 = ofNat 32 (2 * v) := by
    apply BitVec.eq_of_toNat_eq
    rw [BitVec.toNat_shiftLeft, toNat_ofNat, toNat_ofNat, shiftLeft_eq]
    omega
  have hen : ofNat 32 (2 * v) &&& semcountSharedMask = 0 := by
    rw [and_sharedMask, toNat_ofNat, show 2 * v % 2 ^ 32 % 2 = 0 by omega]
    rfl
  have hm := and_masks (ofNat 32 (2 * v))
  rw [hen, show (0 : BitVec 32) = 0#32 from rfl, BitVec.or_zero] at hm
  rw [semcountFromValue, hs, hm]

theorem semInit_spec {pshared value count} (h : semInit pshared value = some count) :
    semcountToValue count = value ∧ (value : ℤ) ≤ semValueMax := by
  rw [semInit] at h
  split at h
  · cases h
  rename_i hl
  rw [semValueMax] at hl ⊢
  refine ⟨toValue_of_toNat ?_ (by omega), by omega⟩
  have hn : (ofNat 32 (2 * value)).toNat = 2 * value := by
    rw [toNat_ofNat]
    omega
  rw [semcountFromValue_ofNat] at h
  cases pshared with
  | false =>
    obtain rfl : ofNat 32 (2 * value) = count := by simpa using h
    omega
  | true =>
    obtain rfl : ofNat 32 (2 * value) ||| semcountSharedMask = count := by simpa using h
    rw [BitVec.toNat_or, hn, show semcountSharedMask.toNat = 1 from rfl, or_div_two,
      Nat.mul_div_cancel_left _ Nat.two_pos]
    exact or_zero _

end

/-- The flags and old words a thread carries from one access to the next. -/
def Carries (b : BitVec 32) : Pc → Prop
  | .decLoad _ flag | .futexWait _ flag | .asleep _ flag | .incLoad flag | .postWake flag =>
    flag = b
  | .decCas _ flag shared old => flag = b ∧ shared = b ∧ 0 ≤ semcountToValue old
  | .trydecCas _ shared old => shared = b ∧ 0 < semcountToValue old
  | .incCas flag shared old => flag = b ∧ shared = b ∧ semcountToValue old ≠ semValueMax
  | _ => True

inductive Effect (b : BitVec 32) (m : Sem) : Sem → Pc → Prop where
  /-- Nothing; the thread falls asleep only where the count is -1, and it ends with `EOVERFLOW` only
  where the count is the largest. -/
  | quiet {l : Pc} (carries : Carries b l)
      (sleep : sleeps l ≠ none → semcountToValue m.count = -1)
      (overflow : l = .outside (some (.failure .EOVERFLOW)) →
        semcountToValue m.count = semValueMax) : Effect b m m l
  /-- A wait has succeeded. -/
  | taken {c : BitVec 32} (positive : 0 < semcountToValue m.count)
      (value : semcountToValue c = semcountToValue m.count - 1)
      (shared : c &&& semcountSharedMask = b) :
      Effect b m { m with count := c, waits := m.waits + 1 } (.outside (some .success))
  /-- A waiter has marked the semaphore as contended. -/
  | contended {c : BitVec 32} {w : Waiter} (zero : semcountToValue m.count = 0)
      (value : semcountToValue c = -1) (shared : c &&& semcountSharedMask = b) :
      Effect b m { m with count := c } (.futexWait w b)
  /-- A post has succeeded where nobody could be asleep. -/
  | posted {c : BitVec 32} (nonneg : 0 ≤ semcountToValue m.count)
      (below : semcountToValue m.count ≠ semValueMax)
      (value : semcountToValue c = semcountToValue m.count + 1)
      (shared : c &&& semcountSharedMask = b) :
      Effect b m { m with count := c, posts := m.posts + 1 } (.outside (some .success))
  /-- A post has succeeded and has to wake the sleepers. -/
  | released {c : BitVec 32} (negative : semcountToValue m.count < 0)
      (value : semcountToValue c = 1) (shared : c &&& semcountSharedMask = b) :
      Effect b m { m with count := c, posts := m.posts + 1 } (.postWake b)

section
variable {b shared old : BitVec 32} {m m' : Sem} {l l' : Pc} {sdk : ℕ}

theorem effect_decRead (w) (hs : shared = b) : Effect b m m (decRead w b shared old) := by
  rw [decRead]
  split
  · exact .quiet rfl (by simp [sleeps]) (by simp)
  · exact .quiet ⟨rfl, hs, by omega⟩ (by simp [sleeps]) (by simp)

theorem effect_trydecRead (c) (hs : shared = b) : Effect b m m (trydecRead c shared old) := by
  rw [trydecRead]
  split
  · cases c <;> exact .quiet trivial (by simp [sleeps, trydecFailed]) (by simp [trydecFailed])
  · exact .quiet ⟨hs, by omega⟩ (by simp [sleeps]) (by simp)

theorem effect_incRead (hs : shared = b) : Effect b m m (incRead b shared m.count) := by
  rw [incRead]
  split
  · exact .quiet trivial (by simp [sleeps]) fun _ => by assumption
  · exact .quiet ⟨rfl, hs, by assumption⟩ (by simp [sleeps]) (by simp)

theorem effect_timedOut (w) (h : l ∈ timedOut w) : Effect b m m l := by
  cases w with
  | wait => simp [timedOut] at h
  | timedwait =>
    obtain rfl : l = .outside (some (.failure .ETIMEDOUT)) := by simpa [timedOut] using h
    exact .quiet trivial (by simp [sleeps]) (by simp)

theorem step_effect (hb : m.count &&& semcountSharedMask = b)
    (hm : semcountToValue m.count ≤ semValueMax) (hc : Carries b l)
    (h : (m', l') ∈ step sdk m l) : Effect b m m' l' := by
  cases l with
  | outside last =>
    simp only [step, mem_cons, mk.injEq, not_mem_nil, or_false] at h
    obtain ⟨rfl, rfl⟩ | ⟨rfl, rfl⟩ | ⟨rfl, rfl⟩ | ⟨rfl, rfl⟩ := h <;>
      exact .quiet trivial (by simp [sleeps]) (by simp)
  | waitShared w | postShared =>
    obtain ⟨rfl, rfl⟩ := mem_pair h
    exact .quiet hb (by simp [sleeps]) (by simp)
  | decLoad w flag =>
    obtain rfl : flag = b := hc
    obtain ⟨rfl, rfl⟩ := mem_pair h
    exact effect_decRead w hb
  | decCas w flag shared old =>
    obtain ⟨rfl, rfl, ho⟩ := hc
    rw [step, mem_weakCas, mk.injEq, mk.injEq] at h
    rcases h with ⟨rfl, rfl, rfl⟩ | ⟨rfl, rfl⟩
    · have hct : semcountDecrement m.count ||| shared = m.count - 2 := by
        rw [← hb, decrement_or_shared]
      have hs : (m.count - 2) &&& semcountSharedMask = shared := by rw [shared_sub_two, hb]
      have hv := toValue_sub_two ho
      rw [decExchanged, hct]
      by_cases hp : 0 < semcountToValue m.count
      · rw [if_pos hp, if_pos hp]
        exact .taken hp hv hs
      · rw [if_neg hp, if_neg hp]
        exact .contended (by omega) (by omega) hs
    · exact effect_decRead w rfl
  | futexWait w flag =>
    obtain rfl : flag = b := hc
    rw [step, mem_cons, mem_map] at h
    rcases h with h | ⟨l, hl, h⟩
    · split at h
      · rename_i heq
        cases h
        refine .quiet rfl (fun _ => ?_) (by simp)
        rw [heq, ← hb]
        exact toValue_minusOne_or_shared _
      · cases h
        exact .quiet rfl (by simp [sleeps]) (by simp)
    · cases h
      exact effect_timedOut w hl
  | asleep w flag =>
    obtain rfl : flag = b := hc
    rw [step, mem_cons, mem_cons, mem_map] at h
    rcases h with h | h | ⟨l, hl, h⟩ <;> cases h
    · exact .quiet rfl (by simp [sleeps]) (by simp)
    · cases w with
      | wait =>
        simp only [interrupted]
        split
        · exact .quiet trivial (by simp [sleeps]) (by simp)
        · exact .quiet rfl (by simp [sleeps]) (by simp)
      | timedwait =>
        exact .quiet trivial (by simp [sleeps, interrupted]) (by simp [interrupted])
    · exact effect_timedOut w hl
  | trydecLoad c =>
    obtain ⟨rfl, rfl⟩ := mem_pair h
    exact effect_trydecRead c hb
  | trydecCas c shared old =>
    obtain ⟨rfl, ho⟩ := hc
    rw [step, mem_weakCas, mk.injEq, mk.injEq] at h
    rcases h with ⟨rfl, rfl, rfl⟩ | ⟨rfl, rfl⟩
    · rw [← hb, decrement_or_shared]
      exact .taken ho (toValue_sub_two ho.le) (shared_sub_two _)
    · exact effect_trydecRead c rfl
  | checkTimespec =>
    simp only [step, mem_cons, mk.injEq, not_mem_nil, or_false] at h
    obtain ⟨rfl, rfl⟩ | ⟨rfl, rfl⟩ | ⟨rfl, rfl⟩ := h <;>
      exact .quiet trivial (by simp [sleeps]) (by simp)
  | incLoad flag =>
    obtain rfl : flag = b := hc
    obtain ⟨rfl, rfl⟩ := mem_pair h
    exact effect_incRead hb
  | incCas flag shared old =>
    obtain ⟨rfl, rfl, ho⟩ := hc
    rw [step, mem_weakCas, mk.injEq, mk.injEq] at h
    rcases h with ⟨rfl, rfl, rfl⟩ | ⟨rfl, rfl⟩
    · rw [incNew]
      by_cases hn : semcountToValue m.count < 0
      · obtain ⟨hv, hs⟩ := one_or_shared m.count
        rw [hb] at hv hs
        rw [if_pos hn, if_pos hn]
        exact .released hn hv hs
      · have hct : semcountIncrement m.count ||| shared = m.count + 2 := by
          rw [← hb, increment_or_shared]
        rw [if_neg hn, if_neg hn, hct]
        exact .posted (by omega) ho (toValue_add_two (by omega) (by omega)) (by rw
          [shared_add_two, hb])
    · exact effect_incRead rfl
  | postWake flag => cases h

/-- In `__sem_inc`, before an access that reads the count. -/
def incrementing : Pc → Bool
  | .incLoad _ | .incCas .. => true
  | _ => false

/-- In `sem_wait`, `sem_timedwait` or `sem_trywait`. -/
def waiting : Pc → Bool
  | .waitShared _ | .decLoad .. | .decCas .. | .futexWait .. | .asleep .. | .trydecLoad _ |
    .trydecCas .. | .checkTimespec => true
  | _ => false

/-- In `sem_post`, up to its compare-and-exchange. -/
def posting : Pc → Bool
  | .postShared | .incLoad _ | .incCas .. => true
  | _ => false

/-- The operation has returned zero, or will once it has woken the sleepers. -/
def succeeded : Pc → Bool
  | .outside (some .success) | .postWake _ => true
  | _ => false

/-- Exactly the steps with which a wait or a post succeeds are counted. -/
theorem step_counts (h : (m', l') ∈ step sdk m l) :
    m'.waits = m.waits + (waiting l && succeeded l').toNat ∧
      m'.posts = m.posts + (posting l && succeeded l').toNat := by
  have hd : ∀ w flag shared old, succeeded (decRead w flag shared old) = false := by
    intro w flag shared old
    rw [decRead]
    split <;> rfl
  have ht : ∀ c shared old, succeeded (trydecRead c shared old) = false := by
    intro c shared old
    rw [trydecRead]
    split
    · cases c <;> rfl
    · rfl
  have hp : ∀ flag shared old, succeeded (incRead flag shared old) = false := by
    intro flag shared old
    rw [incRead]
    split <;> rfl
  cases l with
  | decCas w flag shared old =>
    rw [step, mem_weakCas, mk.injEq, mk.injEq] at h
    obtain ⟨-, rfl, rfl⟩ | ⟨rfl, rfl⟩ := h
    · unfold decExchanged
      split <;> simp [waiting, posting, succeeded]
    · simp [posting, hd]
  | trydecCas c shared old =>
    rw [step, mem_weakCas, mk.injEq, mk.injEq] at h
    obtain ⟨-, rfl, rfl⟩ | ⟨rfl, rfl⟩ := h
    · simp [waiting, posting, succeeded]
    · simp [posting, ht]
  | incCas flag shared old =>
    rw [step, mem_weakCas, mk.injEq, mk.injEq] at h
    obtain ⟨-, rfl, rfl⟩ | ⟨rfl, rfl⟩ := h
    · split <;> simp [waiting, posting, succeeded]
    · simp [waiting, hp]
  | futexWait w flag =>
    cases w <;> simp only [step, timedOut] at h <;> split at h <;>
      grind [waiting, posting, succeeded]
  | asleep w flag =>
    cases w <;> simp only [step, timedOut, interrupted] at h <;>
      grind [waiting, posting, succeeded]
  | _ => grind [step, waiting, posting, succeeded]

theorem incRead_eq_overflow (flag) :
    incRead flag shared old = .outside (some (.failure .EOVERFLOW)) ↔
      semcountToValue old = semValueMax := by
  rw [incRead]
  split <;> simp [*]

theorem Effect.of_overflow (h : Effect b m m' (.outside (some (.failure .EOVERFLOW)))) :
    semcountToValue m.count = semValueMax ∧ m' = m := by
  cases h with
  | quiet carries sleep overflow => exact ⟨overflow rfl, rfl⟩

theorem incrementing_overflow (hl : incrementing l) (hc : Carries b l)
    (hm : semcountToValue m.count = semValueMax) (h : (m', l') ∈ step sdk m l) :
    l' = .outside (some (.failure .EOVERFLOW)) ∧ m' = m := by
  cases l with
  | incLoad flag =>
    obtain ⟨rfl, rfl⟩ := mem_pair h
    exact ⟨(incRead_eq_overflow flag).mpr hm, rfl⟩
  | incCas flag shared old =>
    rw [step, mem_weakCas, mk.injEq, mk.injEq] at h
    rcases h with ⟨rfl, -, -⟩ | ⟨rfl, rfl⟩
    · exact absurd hm hc.2.2
    · exact ⟨(incRead_eq_overflow flag).mpr hm, rfl⟩
  | _ => cases hl

end

section
variable {Tid : Type}

/-- In every run from a semaphore with this flag and value. -/
structure Inv (b : BitVec 32) (value : ℕ) (s : State Tid Sem Pc) : Prop where
  shared : s.mem.count &&& semcountSharedMask = b
  low : -1 ≤ semcountToValue s.mem.count
  high : semcountToValue s.mem.count ≤ semValueMax
  tokens : (value + s.mem.posts : ℤ) = s.mem.waits + semGetvalue s.mem.count
  carries : ∀ u, Carries b (s.pc u)
  /-- Nobody is asleep beside a count other than -1, unless a post is about to wake all. -/
  wakeup : semcountToValue s.mem.count = -1 ∨ (∀ u, sleeps (s.pc u) = none) ∨
    ∃ u flag, s.pc u = .postWake flag

variable {b : BitVec 32} {value sdk : ℕ} {s s' : State Tid Sem Pc} {t : Tid}

variable {c count : BitVec 32} {pshared w : Bool} {l : Pc} {n : WakeCount}

theorem semGetvalue_of_nonneg (h : 0 ≤ semcountToValue c) : semGetvalue c = semcountToValue c :=
  if_neg (not_lt.mpr h)

theorem semGetvalue_of_neg (h : semcountToValue c < 0) : semGetvalue c = 0 :=
  if_pos h

theorem initial_inv (h : semInit pshared value = some count) :
    Inv (count &&& semcountSharedMask) value (initial Tid count) := by
  obtain ⟨hv, hm⟩ := semInit_spec h
  constructor
  · rfl
  · change -1 ≤ semcountToValue count
    omega
  · change semcountToValue count ≤ semValueMax
    omega
  · change (value + (0 : ℕ) : ℤ) = (0 : ℕ) + semGetvalue count
    rw [semGetvalue_of_nonneg (by omega), hv]
    omega
  · intro u
    trivial
  · exact .inr (.inl fun _ => rfl)

/-- A thread sleeps beside a positive count, and nobody is in an operation. -/
def Stranded (s : State Tid Sem Pc) : Prop :=
  0 < semcountToValue s.mem.count ∧ (∃ u, sleeps (s.pc u) ≠ none) ∧
    ∀ u, sleeps (s.pc u) ≠ none ∨ ∃ last, s.pc u = .outside last

theorem Inv.not_stranded (hi : Inv b value s) : ¬Stranded s := by
  rintro ⟨hp, ⟨v, hv⟩, ha⟩
  rcases hi.wakeup with h | h | ⟨u, flag, h⟩
  · omega
  · exact hv (h v)
  rcases ha u with hu | ⟨last, hu⟩ <;> rw [h] at hu
  · exact hu rfl
  · cases hu

variable [DecidableEq Tid]

theorem Inv.wakeup_update (hi : Inv b value s)
    (hv : semcountToValue s.mem.count ≠ -1) (ht : ∀ flag, s.pc t ≠ .postWake flag)
    (hl : sleeps l = none) : semcountToValue c = -1 ∨ (∀ u, sleeps (update s.pc t l u) = none) ∨
      ∃ u flag, update s.pc t l u = .postWake flag := by
  rcases hi.wakeup with h | h | ⟨u, flag, h⟩
  · exact absurd h hv
  · exact .inr (.inl (forall_update (Q := fun l => sleeps l = none) hl h))
  have hu : u ≠ t := by
    rintro rfl
    exact ht flag h
  exact .inr (.inr ⟨u, flag, by rw [Function.update_of_ne hu, h]⟩)

theorem inv_run {m} (hi : Inv b value s) (h : (m, l) ∈ step sdk s.mem (s.pc t)) :
    Inv b value ⟨m, update s.pc t l⟩ := by
  have ht : ∀ flag, s.pc t ≠ .postWake flag := by
    intro flag hp
    rw [hp] at h
    cases h
  have hc : Carries b l → ∀ u, Carries b (update s.pc t l u) := by
    intro hl
    exact forall_update hl hi.carries
  have hlw := hi.low
  have hh := hi.high
  have htk := hi.tokens
  cases step_effect hi.shared hi.high (hi.carries t) h with
  | quiet carries sleep _ =>
    refine ⟨hi.shared, hi.low, hi.high, hi.tokens, hc carries, ?_⟩
    by_cases hv : semcountToValue s.mem.count = -1
    · exact .inl hv
    refine hi.wakeup_update hv ht ?_
    by_contra hl
    exact hv (sleep hl)
  | @taken c positive hvl shared =>
    refine ⟨shared, ?_, ?_, ?_, hc trivial, hi.wakeup_update (by omega) ht rfl⟩
    · change -1 ≤ semcountToValue c
      omega
    · change semcountToValue c ≤ semValueMax
      omega
    change (value + s.mem.posts : ℤ) = (s.mem.waits + 1 : ℕ) + semGetvalue c
    rw [semGetvalue_of_nonneg (by omega)] at htk ⊢
    push_cast
    omega
  | @contended c w zero hvl shared =>
    refine ⟨shared, hvl.ge, ?_, ?_, hc rfl, .inl hvl⟩
    · change semcountToValue c ≤ semValueMax
      omega
    change (value + s.mem.posts : ℤ) = s.mem.waits + semGetvalue c
    rw [semGetvalue_of_neg (by omega)]
    rw [semGetvalue_of_nonneg (by omega)] at htk
    omega
  | @posted c nonneg below hvl shared =>
    refine ⟨shared, ?_, ?_, ?_, hc trivial, hi.wakeup_update (by omega) ht rfl⟩
    · change -1 ≤ semcountToValue c
      omega
    · change semcountToValue c ≤ semValueMax
      omega
    change (value + (s.mem.posts + 1 : ℕ) : ℤ) = s.mem.waits + semGetvalue c
    rw [semGetvalue_of_nonneg (by omega)] at htk ⊢
    push_cast
    omega
  | @released c negative hvl shared =>
    refine ⟨shared, ?_, ?_, ?_, hc rfl, .inr (.inr ⟨t, b, update_self ..⟩)⟩
    · change -1 ≤ semcountToValue c
      omega
    · rw [hvl]
      decide
    change (value + (s.mem.posts + 1 : ℕ) : ℤ) = s.mem.waits + semGetvalue c
    rw [semGetvalue_of_neg (by omega)] at htk
    rw [semGetvalue_of_nonneg (by omega)]
    push_cast
    omega

variable [Fintype Tid]

theorem wakes_eq_some {l'} (h : wakes l = some (w, n, l')) :
    ∃ flag, l = .postWake flag ∧ w = (flag != 0) ∧ n = .all ∧ l' = .outside (some .success) := by
  cases l with
  | postWake flag =>
    cases h
    exact ⟨flag, rfl, rfl, rfl, rfl⟩
  | _ => cases h

theorem sleeps_eq_some {k} (h : sleeps l = some k) :
    ∃ w flag, l = .asleep w flag ∧ k = (flag != 0) := by
  cases l with
  | asleep w flag => exact ⟨w, flag, rfl, (Option.some.inj h).symm⟩
  | _ => cases h

theorem inv_wake {woken} (hi : Inv b value s)
    (call : (program Tid sdk).wakes (s.pc t) = some (w, n, l))
    (hw : FutexThreads.Wakes n ((program Tid sdk).sleepers s.pc w) woken) :
    Inv b value ⟨s.mem, update ((program Tid sdk).awakened s.pc woken) t l⟩ := by
  obtain ⟨flag, hp, rfl, rfl, rfl⟩ := wakes_eq_some call
  obtain rfl : flag = b := by simpa [hp, Carries] using hi.carries t
  have hcr : ∀ u, Carries flag ((program Tid sdk).awakened s.pc woken u) := by
    refine Program.forall_awakened hw hi.carries fun l hl hc => ?_
    obtain ⟨wt, f, rfl, -⟩ := sleeps_eq_some hl
    exact hc
  have ha : ∀ u, sleeps ((program Tid sdk).awakened s.pc woken u) = none := by
    intro u
    have hn := Program.sleeps_awakened_all hw (fun l hl => by
      obtain ⟨wt, f, rfl, -⟩ := sleeps_eq_some hl
      rfl) u
    rw [Option.eq_none_iff_forall_not_mem]
    intro k hk
    obtain ⟨wt, f, hu, rfl⟩ := sleeps_eq_some hk
    have hf := hcr u
    rw [hu] at hf
    obtain rfl : f = flag := hf
    exact hn hk
  refine ⟨hi.shared, hi.low, hi.high, hi.tokens, ?_, .inr (.inl ?_)⟩
  · exact forall_update trivial hcr
  · exact forall_update (Q := fun l => sleeps l = none) rfl ha

theorem reaches_inv (hin : semInit pshared value = some count)
    (h : (program Tid sdk).Reaches (initial Tid count) s) :
    Inv (count &&& semcountSharedMask) value s := by
  refine h.invariant (initial_inv hin) ?_
  intro t s s' hi hs
  cases hs with
  | run next => exact inv_run hi next
  | wake call wakes => exact inv_wake hi call wakes

/-- Along every run tokens are conserved, posts stop at the largest value, exactly the posts and
waits that succeed are counted, the flag stays, and nobody is left asleep beside a positive
count. -/
theorem tokens_conserved {pshared : Bool} {count : BitVec 32}
    (hinit : semInit pshared value = some count)
    (h : (program Tid sdk).Reaches (initial Tid count) s) : s.mem.waits ≤ value + s.mem.posts ∧
      (value + s.mem.posts - s.mem.waits : ℤ) = semGetvalue s.mem.count ∧
      0 ≤ semGetvalue s.mem.count ∧ semGetvalue s.mem.count ≤ semValueMax ∧
      (∀ t s', (program Tid sdk).Step t s s' → (s'.pc t = .outside (some (.failure .EOVERFLOW)) →
          semGetvalue s.mem.count = semValueMax ∧ s'.mem = s.mem) ∧
        (semGetvalue s.mem.count = semValueMax → incrementing (s.pc t) →
          s'.pc t = .outside (some (.failure .EOVERFLOW)) ∧ s'.mem = s.mem) ∧
        s'.mem.waits = s.mem.waits + (waiting (s.pc t) && succeeded (s'.pc t)).toNat ∧
        s'.mem.posts = s.mem.posts + (posting (s.pc t) && succeeded (s'.pc t)).toNat) ∧
      s.mem.count &&& semcountSharedMask = count &&& semcountSharedMask ∧ ¬Stranded s := by
  have hi := reaches_inv hinit h
  have hh := hi.high
  have ht := hi.tokens
  obtain ⟨hnn, hmx⟩ : 0 ≤ semGetvalue s.mem.count ∧ semGetvalue s.mem.count ≤ semValueMax := by
    by_cases hn : semcountToValue s.mem.count < 0
    · rw [semGetvalue_of_neg hn]
      decide
    · rw [semGetvalue_of_nonneg (not_lt.mp hn)]
      omega
  refine ⟨by omega, by omega, hnn, hmx, ?_, hi.shared, hi.not_stranded⟩
  intro t s' hs
  refine ⟨?_, ?_, ?_⟩
  · intro ho
    cases hs with
    | @run m l next =>
      have hef := step_effect hi.shared hi.high (hi.carries t) next
      rw [show l = _ from (update_self ..).symm.trans ho] at hef
      obtain ⟨hv, hm⟩ := hef.of_overflow
      refine ⟨?_, hm⟩
      rw [semGetvalue_of_nonneg (by rw [hv]; decide), hv]
    | @wake w n l woken call wakes =>
      obtain ⟨flag, -, -, -, rfl⟩ := wakes_eq_some call
      cases (update_self ..).symm.trans ho
  · intro hv hic
    have hv : semcountToValue s.mem.count = semValueMax := by
      rw [semGetvalue] at hv
      split at hv
      · cases hv
      · exact hv
    cases hs with
    | @run m l next =>
      obtain ⟨rfl, rfl⟩ := incrementing_overflow hic (hi.carries t) hv next
      exact ⟨update_self .., rfl⟩
    | @wake w n l woken call wakes =>
      obtain ⟨flag, hp, -⟩ := wakes_eq_some call
      rw [hp] at hic
      cases hic
  · cases hs with
    | @run m l next =>
      simp only [update_self]
      exact step_counts next
    | @wake w n l woken call wakes =>
      obtain ⟨flag, hp, -⟩ := wakes_eq_some call
      rw [hp]
      exact ⟨rfl, rfl⟩

end

local instance neZeroTwo : NeZero 2 := ⟨two_ne_zero⟩

def sleepAndPost : List (Program.Move (Fin 2)) :=
  (List.replicate 5 (.run 0 0)) ++ [.run 1 3, .run 1 0, .run 1 0, .run 1 0, .wake 1 {0}, .run 0 0,
    .run 0 0]

theorem tokens_conserved_two_threads : ∃ s, (program (Fin 2) 30).Reaches (initial (Fin 2) 1) s ∧
      (s.mem.posts = 1 ∧ s.mem.waits = 1 ∧ s.pc 0 = .outside (some .success)) ∧
      (0 + s.mem.posts - s.mem.waits : ℤ) = semGetvalue s.mem.count ∧ ¬Stranded s := by
  have hrn : ∃ s, (program (Fin 2) 30).Reaches (initial (Fin 2) 1) s ∧
      s.mem.posts = 1 ∧ s.mem.waits = 1 ∧ s.pc 0 = .outside (some .success) :=
    Program.exists_reaches sleepAndPost (by decide +kernel)
  have hin : semInit true 0 = some 1 := by decide
  obtain ⟨s, hr, hf⟩ := hrn
  obtain ⟨-, hv, -, -, -, -, hs⟩ := tokens_conserved hin hr
  exact ⟨s, hr, hf, hv, hs⟩

end Semaphore
