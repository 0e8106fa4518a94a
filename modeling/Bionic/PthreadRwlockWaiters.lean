import Bionic.PthreadRwlock

/-! Who waits for a read-write lock, and who sees to it. A thread is blocked from setting its flag
until a wake moves on its serial or ends its sleep. While the lock is free, an unlock that has yet
to choose or to wake, or a writer that is awake, sees to it. A chosen writer whose wait has timed
out may go, and the wake-up with it. -/
namespace PthreadRwlockWaiters

open FutexThreads PthreadRwlock
open BionicLock (LockState)
open List Function

def inLock : Pc → Bool
  | .inside _ | .unlocking _ => true
  | _ => false

def counted : Pc → Option Side
  | .inside (.pendFlag side) | .inside (.pendSerial side _) | .inside (.unpendCount side _)
  | .locking _ (.unpendCount side _) | .unlocking (.wait side _ _) | .unlockWake (.wait side _ _)
  | .futexWait side _ | .asleep side => some side
  | _ => none

def flagged : Pc → Option Side
  | .inside (.pendFlag _) => none
  | pc => counted pc

section
variable {Tid : Type} (preferred : Bool) (m : Rwlock Tid)

def blocked : Pc → Bool
  | .asleep _ => true
  | .inside (.pendSerial side old) => !decide (canAcquire preferred side old)
  | .unlocking (.wait side old serial) | .unlockWake (.wait side old serial) =>
    !decide (canAcquire preferred side old) && decide (m.wakeupSerial side ≤ serial)
  | .futexWait side serial => m.wakeupSerial side ≤ serial
  | _ => false

/-- Under or before `pending_lock`: writers that will not sleep next, and unlocks that have not
chosen. -/
def sectionAttends : Section → Bool
  | .pendCount .writer | .pendFlag .writer | .unpendCount .writer _ | .unpendFlag .writer false
  | .chooseWriters | .chooseReaders | .bump _ => true
  | .pendSerial .writer old => canAcquire preferred .writer old
  | _ => false

def afterAttends : After → Bool
  | .wait .writer old serial =>
    decide (canAcquire preferred .writer old) || decide (serial < m.wakeupSerial .writer)
  | .unpended .writer false => true
  | _ => false

/-- An unlock that has yet to choose, or a writer that is awake and on its way to the lock or out of
the pending ones. -/
def attends : Pc → Bool
  | .tryLoad .writer _ | .tryCas .writer _ _ | .tidLoad .writer | .checkLoad .writer => true
  | .locking _ now | .inside now => sectionAttends preferred now
  | .unlocking after | .unlockWake after => afterAttends preferred m after
  | .futexWait .writer serial => serial < m.wakeupSerial .writer
  | _ => false

def rouses (side : Side) : Pc → Bool
  | .unlocking (.wake other) | .unlockWake (.wake other) | .wake other => other = side
  | _ => false

end

def Attends {Tid : Type} (preferred : Bool) (s : State Tid (Rwlock Tid) Thread) (v u : Tid) :
    Prop :=
  attends preferred s.mem (s.pc v).pc ∨
    (rouses .writer (s.pc v).pc ∧ ∃ w, (s.pc w).pc = .asleep .writer) ∨
    (rouses .reader (s.pc v).pc ∧ (s.pc u).pc = .asleep .reader)

/-- A futex wait compares a serial that has not come round, and a writer that timed out leaves only
while the lock is held or somebody else sees to every blocked thread. -/
def Careful {Tid : Type} (preferred : Bool) (t : Tid) (s : State Tid (Rwlock Tid) Thread) : Prop :=
  match (s.pc t).pc with
  | .futexWait side serial =>
    s.mem.wakeupSerial side % 2 ^ 32 = serial % 2 ^ 32 → s.mem.wakeupSerial side = serial
  | .inside (.unpendCount .writer true) =>
    owners s.mem.state = 0 → ∀ u, blocked preferred s.mem (s.pc u).pc →
      ∃ v, v ≠ t ∧ Attends preferred s v u
  | _ => True

def isOutside : Pc → Bool
  | .outside _ => true
  | _ => false

/-- Nobody holds the lock, a thread sleeps, and everybody else is in no operation. -/
def Stranded {Tid : Type} (s : State Tid (Rwlock Tid) Thread) : Prop :=
  ¬stateOwnedByReadersOrWriter s.mem.state ∧ (∃ u, sleeps (s.pc u) ≠ none) ∧
    ∀ u, sleeps (s.pc u) ≠ none ∨ isOutside (s.pc u).pc

section
variable {Tid : Type} [Fintype Tid] [DecidableEq Tid]

instance (preferred : Bool) (s : State Tid (Rwlock Tid) Thread) (v u : Tid) :
    Decidable (Attends preferred s v u) :=
  inferInstanceAs (Decidable (_ ∨ (_ ∧ _) ∨ (_ ∧ _)))

instance (s : State Tid (Rwlock Tid) Thread) : Decidable (Stranded s) :=
  inferInstanceAs (Decidable (_ ∧ _ ∧ _))

instance (preferred : Bool) (t : Tid) (s : State Tid (Rwlock Tid) Thread) :
    Decidable (Careful preferred t s) := by
  unfold Careful
  split <;> infer_instance

end

/-- A reader and a writer wait for the writer that holds the lock. The wait of the writer times out,
the holder chooses to wake a writer, and then the other one leaves. -/
def timedOutWriterLeaves : List (Program.Move (Fin 3)) :=
  [.run 0 1] ++ List.replicate 3 (.run 0 0) ++ List.replicate 11 (.run 1 0) ++ [.run 2 9] ++
    List.replicate 9 (.run 2 0) ++ [.run 2 1, .run 0 12] ++ List.replicate 8 (.run 0 0) ++
    [.wake 0 ∅] ++ List.replicate 4 (.run 2 0)

/-- The reader is left asleep beside a free lock. -/
theorem reader_left_asleep : ∃ s, (program (Fin 3) false).Reaches (initial (Fin 3)) s ∧ Stranded s ∧
      (s.pc 1).pc = .asleep .reader ∧ (s.pc 2).pc = .outside (some .ETIMEDOUT) :=
  Program.exists_reaches timedOutWriterLeaves (by decide +kernel)

/-- The sections that `pending_lock` is taken for. -/
def starts : Section → Bool
  | .pendCount _ | .unpendCount .. | .chooseWriters => true
  | _ => false

/-- What a place says of the data that `pending_lock` protects. -/
def Placed {Tid : Type} (m : Rwlock Tid) : Pc → Prop
  | .inside (.bump .writer) => m.pendingCount .writer ≠ 0
  | .inside (.bump .reader) | .inside .chooseReaders => m.pendingCount .writer = 0
  | .inside (.unpendFlag side _) => m.pendingCount side = 0
  | .unlocking (.wait side _ serial) | .unlockWake (.wait side _ serial)
  | .futexWait side serial => serial ≤ m.wakeupSerial side
  | .locking _ next => starts next
  | _ => True

/-- About to take or mark `pending_lock`, or to wake somebody on it. -/
def lockRouses : Pc → Bool
  | .locking place _ => place.rouses
  | .unlockWake _ => true
  | _ => false

/-- The places that have nothing to do with `pending_lock`. -/
def plain : Pc → Bool
  | .futexWait .. | .asleep _ | .locking .. | .inside _ | .unlocking _ | .unlockWake _ => false
  | _ => true

variable {side : Side}

theorem counted_of_flagged {pc} (h : flagged pc = some side) : counted pc = some side := by
  rw [flagged.eq_def] at h
  split at h
  · cases h
  · exact h

variable {Tid : Type} {preferred : Bool} {l l' : Thread} {pc : Pc}

section
variable {t : Tid} {m m' : Rwlock Tid}

theorem plain_spec (h : plain l.pc) :
    inLock l.pc = false ∧ counted l.pc = none ∧ flagged l.pc = none ∧ Placed m l.pc ∧
      sleeps l = none ∧ lockRouses l.pc = false := by
  cases hp : l.pc <;> simp_all [plain, inLock, counted, flagged, Placed, sleeps, lockRouses]

structure Moved (m : Rwlock Tid) (l : Thread) (m' : Rwlock Tid) (l' : Thread) : Prop where
  lock : (inLock l'.pc = inLock l.pc ∧ (m'.pendingLock = .unlocked ↔ m.pendingLock = .unlocked)) ∨
    (inLock l.pc = false ∧ inLock l'.pc ∧ m.pendingLock = .unlocked ∧ m'.pendingLock ≠ .unlocked) ∨
    (inLock l.pc ∧ inLock l'.pc = false ∧ m'.pendingLock = .unlocked)
  count : ∀ side, m'.pendingCount side + (decide (counted l.pc = some side)).toNat =
    m.pendingCount side + (decide (counted l'.pc = some side)).toNat
  guarded : inLock l.pc = false →
    m'.pendingCount = m.pendingCount ∧ m'.wakeupSerial = m.wakeupSerial
  serial : ∀ side, m.wakeupSerial side ≤ m'.wakeupSerial side
  pending : ∀ side : Side, (side.pending m'.state ↔ side.pending m.state) ∨
    (l.pc = .inside (.pendFlag side) ∧ side.pending m'.state) ∨
    ((∃ b, l.pc = .inside (.unpendFlag side b)) ∧ ¬side.pending m'.state)
  flag : ∀ side, flagged l'.pc = some side →
    flagged l.pc = some side ∨ l.pc = .inside (.pendFlag side)
  raised : ∀ side : Side, l.pc = .inside (.pendFlag side) → side.pending m'.state
  cleared : ∀ side b, l.pc = .inside (.unpendFlag side b) → ¬side.pending m'.state
  emptied : ∀ side, m'.pendingCount side = 0 →
    m.pendingCount side = 0 ∨ ∃ b, l'.pc = .inside (.unpendFlag side b)
  placed : Placed m' l'.pc
  sleep : sleeps l' = some .pendingLock → m'.pendingLock = .lockedWithWaiter
  rouse : m.pendingLock = .lockedWithWaiter ∨ lockRouses l.pc →
    m'.pendingLock = .lockedWithWaiter ∨ lockRouses l'.pc

structure SamePending (m m' : Rwlock Tid) : Prop where
  lock : m'.pendingLock = m.pendingLock
  count : m'.pendingCount = m.pendingCount
  serial : m'.wakeupSerial = m.wakeupSerial
  pending : ∀ side : Side, side.pending m'.state ↔ side.pending m.state

theorem SamePending.refl (m : Rwlock Tid) : SamePending m m := ⟨rfl, rfl, rfl, fun _ => Iff.rfl⟩

theorem Moved.apart (hsm : SamePending m m') (hpc : l.pc = pc) (hin : inLock pc = false)
    (hin' : inLock l'.pc = false) (hcd : counted l'.pc = counted pc)
    (hf : flagged l'.pc = flagged pc) (hpl : Placed m' l'.pc)
    (hs : decide (sleeps l' = some .pendingLock) = false) (hr : lockRouses pc = false) :
    Moved m l m' l' := by
  obtain ⟨hl, hc, hsr, hp⟩ := hsm
  subst hpc
  constructor
  · exact .inl ⟨hin'.trans hin.symm, by rw [hl]⟩
  · intro side
    rw [hc, hcd]
  · exact fun _ => ⟨hc, hsr⟩
  · intro side
    rw [hsr]
  · exact fun side => .inl (hp side)
  · intro side h
    exact .inl (hf ▸ h)
  · intro side hpc
    rw [hpc] at hin
    cases hin
  · intro side b hpc
    rw [hpc] at hin
    cases hin
  · intro side h
    exact .inl (hc ▸ h)
  · exact hpl
  · exact fun h => absurd h (of_decide_eq_false hs)
  · rintro (h | h)
    · exact .inl (hl.trans h)
    · rw [hr] at h
      cases h

theorem Moved.plain (hs : SamePending m m') (hp : l.pc = pc)
    (hl : plain pc) (hl' : plain l'.pc) : Moved m l m' l' := by
  subst hp
  obtain ⟨hin, hc, hf, -, -, hr⟩ := plain_spec (m := m) hl
  obtain ⟨hin', hc', hf', hp', hs', -⟩ := plain_spec hl'
  exact .apart hs rfl hin hin' (hc'.trans hc.symm) (hf'.trans hf.symm)
    hp' (by rw [hs']; rfl) hr

variable {after : After} {caller : Caller} {now : Section}

theorem failed_plain {r} : plain (l.failed side caller r).pc := by
  cases caller with
  | fast | trylock => rfl
  | loop =>
    rw [Thread.failed]
    split
    · rfl
    · cases l.op.timeout <;> rfl

theorem tried_plain {old} : plain (l.tried preferred side caller old).pc := by
  rw [Thread.tried]
  split
  · split
    · exact failed_plain
    · rfl
  · exact failed_plain

theorem calls_plain (h : l' ∈ calls l) : plain l'.pc := by
  simp only [calls, mem_append, mem_cons, mem_map, not_mem_nil, or_false] at h
  rcases h with ((((rfl | rfl | rfl | rfl) | ⟨timeout, -, rfl⟩) | ⟨timeout, -, rfl⟩) | h) <;>
    try rfl
  split at h
  · obtain rfl := List.mem_singleton.mp h
    rfl
  · cases h

theorem mem_unslept (h : l' ∈ l.unslept side) :
    ∃ b, l' = l.goto (.locking .cas (.unpendCount side b)) := by
  rcases List.mem_cons.mp h with rfl | h
  · exact ⟨false, rfl⟩
  split at h
  · exact ⟨true, List.mem_singleton.mp h⟩
  · cases h

theorem released_place (preferred) (l : Thread) (h : Placed m (.unlocking after)) :
    inLock (l.released preferred after).pc = false ∧
      counted (l.released preferred after).pc = counted (.unlocking after) ∧
      flagged (l.released preferred after).pc = flagged (.unlocking after) ∧
      Placed m (l.released preferred after).pc ∧ sleeps (l.released preferred after) = none := by
  cases after with
  | wait side old serial =>
    rw [Thread.released]
    split
    · exact ⟨rfl, rfl, rfl, rfl, rfl⟩
    · exact ⟨rfl, rfl, rfl, h, rfl⟩
  | unpended side timedOut => cases timedOut <;> exact ⟨rfl, rfl, rfl, trivial, rfl⟩
  | wake side | done => exact ⟨rfl, rfl, rfl, trivial, rfl⟩

theorem Moved.within (hpc : l.pc = .inside now)
    (hl : m'.pendingLock = m.pendingLock) (hin' : inLock l'.pc)
    (hc : ∀ side, m'.pendingCount side + (decide (counted l.pc = some side)).toNat =
      m.pendingCount side + (decide (counted l'.pc = some side)).toNat)
    (hsr : ∀ side, m.wakeupSerial side ≤ m'.wakeupSerial side)
    (hp : ∀ side, (side.pending m'.state ↔ side.pending m.state) ∨
      (l.pc = .inside (.pendFlag side) ∧ side.pending m'.state) ∨
      ((∃ b, l.pc = .inside (.unpendFlag side b)) ∧ ¬side.pending m'.state))
    (hf : ∀ side, flagged l'.pc = some side →
      flagged l.pc = some side ∨ l.pc = .inside (.pendFlag side))
    (hr : ∀ side, l.pc = .inside (.pendFlag side) → side.pending m'.state)
    (hce : ∀ side b, l.pc = .inside (.unpendFlag side b) → ¬side.pending m'.state)
    (hep : ∀ side, m'.pendingCount side = 0 →
      m.pendingCount side = 0 ∨ ∃ b, l'.pc = .inside (.unpendFlag side b))
    (hpl : Placed m' l'.pc) : Moved m l m' l' := by
  have hin : inLock l.pc := by
    rw [hpc]
    rfl
  have hs : sleeps l' = none := by
    cases hpc' : l'.pc <;> simp_all [inLock, sleeps]
  refine ⟨.inl ⟨hin'.trans hin.symm, by rw [hl]⟩, hc, ?_, hsr, hp, hf, hr, hce, hep, hpl, ?_, ?_⟩
  · intro h
    rw [hin] at h
    cases h
  · intro h
    rw [hs] at h
    cases h
  rintro (h | h)
  · exact .inl (hl.trans h)
  · rw [hpc] at h
    cases h

theorem inside_moved (hpc : l.pc = .inside now) (hpl : Placed m l.pc)
    (hp : ∀ side, counted l.pc = some side → 0 < m.pendingCount side) :
    Moved m l (inside m l now).1 (inside m l now).2 := by
  cases now with
  | pendCount side =>
    refine .within hpc rfl rfl ?_ (fun _ => le_rfl) (fun _ => .inl Iff.rfl) nofun (by simp [hpc])
      (by simp [hpc]) ?_ trivial
    · intro other
      by_cases h : other = side
      · subst h
        simp [inside, hpc, counted, Thread.write]
      · simp [inside, hpc, counted, Thread.write, h, Ne.symm h]
    intro other
    by_cases h : other = side
    · subst h
      simp [inside]
    · simp only [inside, update_of_ne h]
      exact .inl
  | pendFlag side =>
    obtain ⟨-, hst⟩ := set_flag side m.state
    refine .within hpc rfl rfl ?_ (fun _ => le_rfl) ?_ ?_ ?_ (by simp [hpc]) (fun _ => .inl) trivial
    · intro other
      simp [inside, hpc, counted, Thread.write]
    · intro other
      by_cases h : other = side
      · subst h
        exact .inr (.inl ⟨hpc, (hst other).mpr (.inl rfl)⟩)
      · exact .inl ((hst other).trans (or_iff_right h))
    · intro other h
      cases h
      exact .inr hpc
    · intro other h
      obtain rfl : side = other := by simpa [hpc] using h
      exact (hst side).mpr (.inl rfl)
  | pendSerial side old =>
    refine .within hpc rfl rfl ?_ (fun _ => le_rfl) (fun _ => .inl Iff.rfl) ?_ (by simp [hpc])
      (by simp [hpc]) (fun _ => .inl) le_rfl
    · intro other
      simp [inside, hpc, counted, Thread.goto]
    intro other h
    rw [hpc]
    exact .inl h
  | unpendCount side b =>
    have hoe := hp side (by rw [hpc]; rfl)
    refine .within hpc rfl ?_ ?_ (fun _ => le_rfl) (fun _ => .inl Iff.rfl) ?_ (by simp [hpc])
      (by simp [hpc]) ?_ ?_
    · simp only [inside, Thread.write]
      split <;> rfl
    · intro other
      have hn : counted (inside m l (.unpendCount side b)).2.pc = none := by
        simp only [inside, Thread.write]
        split <;> rfl
      rw [hn, hpc]
      by_cases h : other = side
      · subst h
        simp [inside, counted]
        omega
      · simp [inside, counted, h, Ne.symm h]
    · intro other h
      simp only [inside, Thread.write] at h
      split at h <;> cases h
    · intro other h
      by_cases hs : other = side
      · subst hs
        simp only [inside, update_self] at h
        refine .inr ⟨b, ?_⟩
        simp [inside, Thread.write, h]
      · simp only [inside, update_of_ne hs] at h
        exact .inl h
    · simp only [inside, Thread.write]
      split
      · simpa [Placed]
      · trivial
  | unpendFlag side b =>
    obtain ⟨-, hc⟩ := clear_flag side m.state
    have ho : ¬side.pending (m.state &&& ~~~side.flag) := by
      rw [hc]
      exact fun h => h.1 rfl
    refine .within hpc rfl rfl ?_ (fun _ => le_rfl) ?_ ?_ (by simp [hpc]) ?_ (fun _ => .inl)
      trivial
    · intro other
      simp [inside, hpc, counted, Thread.write]
    · intro other
      by_cases h : other = side
      · subst h
        exact .inr (.inr ⟨⟨b, hpc⟩, ho⟩)
      · exact .inl ((hc other).trans (and_iff_right h))
    · rintro other ⟨⟩
    · intro other b' h
      rw [hpc] at h
      cases Pc.inside.inj h
      exact ho
  | chooseWriters =>
    refine .within hpc rfl rfl ?_ (fun _ => le_rfl) (fun _ => .inl Iff.rfl) ?_ (by simp [hpc])
      (by simp [hpc]) (fun _ => .inl) ?_
    · intro other
      simp only [inside, Thread.goto, hpc]
      split <;> simp [counted]
    · intro other h
      simp only [inside, Thread.goto] at h
      split at h <;> cases h
    simp only [inside, Thread.goto]
    split
    · assumption
    · exact not_not.mp (by assumption)
  | chooseReaders =>
    rw [hpc] at hpl
    refine .within hpc rfl ?_ ?_ (fun _ => le_rfl) (fun _ => .inl Iff.rfl) ?_ (by simp [hpc])
      (by simp [hpc]) (fun _ => .inl) ?_
    · simp only [inside, Thread.goto]
      split <;> rfl
    · intro other
      simp only [inside, Thread.goto, hpc]
      split <;> simp [counted]
    · intro other h
      simp only [inside, Thread.goto] at h
      split at h <;> cases h
    simp only [inside, Thread.goto]
    split
    · exact hpl
    · trivial
  | bump side =>
    refine .within hpc rfl rfl ?_ ?_ (fun _ => .inl Iff.rfl) ?_ (by simp [hpc]) (by simp [hpc])
      (fun _ => .inl) trivial
    · intro other
      simp [inside, hpc, counted, Thread.write]
    · intro other
      by_cases h : other = side
      · subst h
        simp [inside]
      · simp [inside, update_of_ne h]
    · rintro other ⟨⟩

theorem locking_moved {place next}
    {n} (hp : l.pc = .locking place next)
    (hpl : Placed m l.pc) (hn : n ∈ BionicLock.lock m.pendingLock place) :
    Moved m l { m with pendingLock := n.1 } (l.write (match n.2 with
      | none => .inside next
      | some place => .locking place next)) := by
  obtain ⟨state, place'⟩ := n
  rw [hp] at hpl
  have hr := BionicLock.lock_rouse hn
  have hs : counted (.inside next) = counted (.locking place next) ∧
      flagged (.inside next) = flagged (.locking place next) ∧ Placed m (.inside next) := by
    cases next <;> simp_all [starts, counted, flagged, Placed]
  rcases BionicLock.lock_cases hn with ⟨rfl, hf, hh⟩ | ⟨place', rfl, hif⟩
  · refine ⟨.inr (.inl ⟨by rw [hp]; rfl, rfl, hf, hh⟩), ?_, fun _ => ⟨rfl, rfl⟩,
      fun _ => le_rfl, fun _ => .inl Iff.rfl, ?_, by simp [hp], by simp [hp], fun _ => .inl,
      hs.2.2, nofun, ?_⟩
    · intro side
      simp [Thread.write, hp, hs.1]
    · intro side h
      rw [hp]
      exact .inl (hs.2.1 ▸ h)
    · intro h
      rw [hp] at h
      rcases hr h with h | ⟨b, h, -⟩
      · exact .inl h
      · cases h
  · refine ⟨.inl ⟨by rw [hp]; rfl, hif⟩, ?_, fun _ => ⟨rfl, rfl⟩, fun _ => le_rfl,
      fun _ => .inl Iff.rfl, ?_, by simp [hp], by simp [hp], fun _ => .inl, hpl, ?_, ?_⟩
    · intro side
      rw [hp]
      cases next <;> rfl
    · intro side h
      rw [hp]
      refine .inl ?_
      cases next <;> exact h
    · intro h
      cases place' with
      | asleep => exact BionicLock.lock_asleep hn
      | _ => cases h
    · intro h
      rw [hp] at h
      rcases hr h with h | ⟨b, h, hb⟩
      · exact .inl h
      · cases h
        exact .inr hb

theorem unlocking_moved (hp : l.pc = .unlocking after) (hpl : Placed m l.pc) :
    Moved m l { m with pendingLock := .unlocked }
      (if BionicLock.unlockWakes m.pendingLock then l.write (.unlockWake after)
        else ({ l with wrote := true } : Thread).released preferred after) := by
  rw [hp] at hpl
  have hn : ∀ now, l.pc ≠ .inside now := by simp [hp]
  split
  · refine ⟨.inr (.inr ⟨by rw [hp]; rfl, rfl, rfl⟩), ?_, fun _ => ⟨rfl, rfl⟩, fun _ => le_rfl,
      fun _ => .inl Iff.rfl, ?_, fun side h => absurd h (hn _),
      fun side b h => absurd h (hn _), fun _ => .inl, ?_, nofun,
      fun _ => .inr rfl⟩
    · intro side
      rw [hp]
      cases after <;> rfl
    · intro side h
      rw [hp]
      refine .inl ?_
      cases after <;> exact h
    · cases after <;> exact hpl
  · rename_i hwi
    obtain ⟨hin, hc, hf, hpl', hs⟩ :=
      released_place preferred { l with wrote := true } hpl
    refine ⟨.inr (.inr ⟨by rw [hp]; rfl, hin, rfl⟩), ?_, fun _ => ⟨rfl, rfl⟩, fun _ => le_rfl,
      fun _ => .inl Iff.rfl, ?_, fun side h => absurd h (hn _),
      fun side b h => absurd h (hn _), fun _ => .inl, ?_, ?_, ?_⟩
    · intro side
      rw [hc, hp]
    · intro side h
      rw [hp]
      exact .inl (hf ▸ h)
    · cases h : (({ l with wrote := true } : Thread).released preferred after).pc <;>
        simp_all [Placed]
    · rw [hs]
      exact nofun
    rintro (h | h)
    · exact absurd (by simp [BionicLock.unlockWakes, h]) hwi
    · rw [hp] at h
      cases h

variable [DecidableEq Tid]

theorem step_moved (v : View t m l) (ok : Ok l) (hpl : Placed m l.pc)
    (hps : ∀ side, counted l.pc = some side → 0 < m.pendingCount side)
    (h : (m', l') ∈ step preferred t m l) : Moved m l m' l' := by
  cases hpc : l.pc
  all_goals simp only [step, hpc] at h
  case outside last =>
    obtain ⟨rfl, hl⟩ := mem_map_pair h
    exact .plain (.refl _) hpc rfl (calls_plain hl)
  case tryLoad side caller =>
    obtain ⟨rfl, rfl⟩ := mem_pair h
    exact .plain (.refl _) hpc rfl tried_plain
  case tryCas side caller old =>
    rcases mem_weakCas.mp h with ⟨hm, h⟩ | h <;> cases h
    · subst hm
      simp only [Ok, hpc] at ok
      cases side with
      | reader =>
        have hr : owners m.state + 1 < 2 ^ 29 := ok.2.2
        exact .plain ⟨rfl, rfl, rfl, (add_reader (by omega)).2⟩ hpc rfl rfl
      | writer =>
        have hf : owners m.state = 0 := ok.2.2
        exact .plain ⟨rfl, rfl, rfl, (add_writer (by omega)).2⟩ hpc rfl rfl
    · exact .plain (.refl _) hpc rfl tried_plain
  case tidStore | unlockTidStore =>
    obtain ⟨rfl, rfl⟩ := mem_pair h
    exact .plain ⟨rfl, rfl, rfl, fun _ => Iff.rfl⟩ hpc rfl rfl
  case tidLoad side | unlockTidLoad =>
    obtain ⟨rfl, rfl⟩ := mem_pair h
    refine .plain (.refl _) hpc rfl ?_
    split <;> rfl
  case checkLoad side =>
    obtain ⟨rfl, rfl⟩ := mem_pair h
    split
    · exact .plain (.refl _) hpc rfl rfl
    · exact .apart (.refl _) hpc rfl rfl rfl rfl rfl rfl rfl
  case futexWait side serial =>
    rw [mem_append] at h
    rcases h with h | h
    · split at h
      · obtain ⟨rfl, rfl⟩ := mem_pair h
        exact .apart (.refl _) hpc rfl rfl rfl rfl trivial rfl rfl
      · cases h
    · obtain ⟨rfl, hl⟩ := mem_map_pair h
      obtain ⟨b, rfl⟩ := mem_unslept hl
      exact .apart (.refl _) hpc rfl rfl rfl rfl rfl rfl rfl
  case asleep side =>
    obtain ⟨rfl, hl⟩ := mem_map_pair h
    obtain ⟨b, rfl⟩ := mem_unslept hl
    exact .apart (.refl _) hpc rfl rfl rfl rfl rfl rfl rfl
  case locking place next =>
    obtain ⟨n, hn, h⟩ := List.mem_map.mp h
    cases h
    exact locking_moved hpc hpl hn
  case inside now =>
    rw [mem_singleton] at h
    have hmv := inside_moved hpc hpl hps
    rwa [← h] at hmv
  case unlocking after =>
    obtain ⟨rfl, rfl⟩ := mem_pair h
    exact unlocking_moved hpc hpl
  case unlockLoad =>
    obtain ⟨rfl, rfl⟩ := mem_pair h
    refine .plain (.refl _) hpc rfl ?_
    split
    · rfl
    · split <;> rfl
  case unlockAnd =>
    simp only [Ok, hpc] at ok
    have ho := v.writing ok.2
    obtain ⟨rfl, rfl⟩ := mem_pair h
    have hp := (sub_writer (x := m.state) (by omega)).2
    split
    · exact .plain ⟨rfl, rfl, rfl, hp⟩ hpc rfl rfl
    · exact .apart ⟨rfl, rfl, rfl, hp⟩ hpc rfl rfl rfl rfl rfl rfl rfl
  case unlockSub =>
    simp only [Ok, hpc] at ok
    have ho := v.reading ok.2.1
    obtain ⟨rfl, rfl⟩ := mem_pair h
    have hp := (sub_reader ho.1).2
    split
    · exact .plain ⟨rfl, rfl, rfl, hp⟩ hpc rfl rfl
    · exact .apart ⟨rfl, rfl, rfl, hp⟩ hpc rfl rfl rfl rfl rfl rfl rfl
  case unlockWake after | wake side =>
    cases h

end

variable {w : Word} {n : WakeCount}

section
variable {t : Tid} {m m' : Rwlock Tid}

section
variable (h : blocked preferred m pc)
include h

theorem flagged_of_blocked : ∃ side, flagged pc = some side := by
  rw [blocked.eq_def] at h
  split at h
  · exact ⟨_, rfl⟩
  · exact ⟨_, rfl⟩
  · exact ⟨_, rfl⟩
  · exact ⟨_, rfl⟩
  · exact ⟨_, rfl⟩
  · cases h

theorem not_attends_of_blocked : attends preferred m pc = false := by
  rw [blocked.eq_def] at h
  split at h
  · rfl
  · rename_i side old
    cases side <;> simp_all [attends, sectionAttends]
  · rename_i side old serial
    cases side <;> simp_all [attends, afterAttends]
  · rename_i side old serial
    cases side <;> simp_all [attends, afterAttends]
  · rename_i side serial
    cases side <;> simp_all [attends]
  · cases h

theorem not_rouses_of_blocked (side) : rouses side pc = false := by
  rw [blocked.eq_def] at h
  split at h
  · rfl
  · rfl
  · rfl
  · rfl
  · rfl
  · cases h

end

theorem counted_writer_cases (preferred) (m : Rwlock Tid) (h : counted pc = some .writer)
    (hin : inLock pc = false) : attends preferred m pc ∨ blocked preferred m pc := by
  rw [counted.eq_def] at h
  split at h <;> simp_all [inLock, attends, blocked, sectionAttends, afterAttends]
  · by_cases hc : canAcquire preferred .writer (by assumption) <;> simp [hc, lt_or_ge]
  · exact lt_or_ge _ _

section
variable (hsr : ∀ side, m.wakeupSerial side ≤ m'.wakeupSerial side)
include hsr

theorem attends_mono (h : attends preferred m pc) : attends preferred m' pc := by
  have ha : ∀ after, afterAttends preferred m after → afterAttends preferred m' after := by
    intro after ha
    rw [afterAttends.eq_def] at ha
    split at ha
    · rename_i old serial
      rcases (Bool.or_eq_true _ _).mp ha with hc | hl
      · simp only [afterAttends, hc, Bool.true_or]
      have hl' : serial < m'.wakeupSerial .writer :=
        lt_of_lt_of_le (of_decide_eq_true hl) (hsr .writer)
      simp only [afterAttends, hl', decide_true, Bool.or_true]
    · rfl
    · cases ha
  rw [attends.eq_def] at h
  split at h
  case h_7 after | h_8 after => exact ha after h
  case h_9 serial =>
    exact decide_eq_true (lt_of_lt_of_le (of_decide_eq_true h) (hsr .writer))
  case h_10 => cases h
  all_goals exact h

theorem blocked_anti (h : blocked preferred m' pc) : blocked preferred m pc := by
  rw [blocked.eq_def] at h
  split at h
  case h_3 side old serial | h_4 side old serial =>
    obtain ⟨hc, hl⟩ := (Bool.and_eq_true _ _).mp h
    simp only [blocked, hc, Bool.true_and, decide_eq_true_eq]
    exact le_trans (hsr side) (of_decide_eq_true hl)
  · rfl
  · exact h
  · rename_i side serial
    exact decide_eq_true (le_trans (hsr side) (of_decide_eq_true h))
  · cases h

end

theorem released_duties (preferred) (m : Rwlock Tid) (l : Thread) (after : After) :
    (afterAttends preferred m after → attends preferred m (l.released preferred after).pc) ∧
      (blocked preferred m (l.released preferred after).pc →
        blocked preferred m (.unlocking after)) ∧ (∀ side, rouses side (.unlocking after) →
        rouses side (l.released preferred after).pc) := by
  cases after with
  | wait side old serial =>
    rw [Thread.released]
    by_cases hc : canAcquire preferred side old
    · rw [if_pos hc]
      cases side <;> simp [attends, afterAttends, sectionAttends, blocked, rouses, Thread.goto]
    · rw [if_neg hc]
      cases side <;> simp [attends, afterAttends, blocked, rouses, Thread.goto, hc]
  | unpended side timedOut =>
    cases side <;> cases timedOut <;>
      simp [Thread.released, attends, afterAttends, blocked, rouses, Thread.goto, Thread.ret]
  | wake side | done =>
    refine ⟨?_, ?_, fun _ h => h⟩ <;> rintro ⟨⟩

theorem tried_writer {caller} (hf : owners m.state = 0) :
    l.tried preferred .writer caller m.state = l.goto (.tryCas .writer caller m.state) := by
  rw [Thread.tried, if_pos (canAcquire_writer.mpr hf), if_neg (by simp)]

theorem not_blocked_of_plain (h : plain pc) : blocked preferred m pc = false := by
  cases pc <;> simp_all [plain, blocked]

/-- What a step does to the duties of the thread that takes it, beside a lock that is free before
and after. -/
structure Duty (preferred : Bool) (m : Rwlock Tid) (l : Thread) (m' : Rwlock Tid) (l' : Thread) :
    Prop where
  attend : attends preferred m l.pc → attends preferred m' l'.pc ∨
    l.pc = .inside (.unpendCount .writer true) ∨
    (∃ side, l.pc = .inside (.bump side) ∧ l'.pc = .unlocking (.wake side) ∧
      m'.wakeupSerial side = m.wakeupSerial side + 1) ∨
    (l.pc = .inside .chooseReaders ∧ m.pendingCount .reader = 0)
  block : blocked preferred m' l'.pc → (blocked preferred m l.pc ∧ ∀ side, l.pc ≠ .asleep side) ∨
    ∃ side, l.pc = .inside (.pendFlag side) ∧ ¬canAcquire preferred side m.state
  rouse : ∀ side, rouses side l.pc → rouses side l'.pc
  awake : l.pc = .asleep .writer → attends preferred m' l'.pc

theorem Duty.idle (hp : l.pc = pc) (ha : attends preferred m pc → attends preferred m' l'.pc)
    (hbk : blocked preferred m' l'.pc = false) (hr : ∀ side, rouses side pc = false)
    (hak : pc = .asleep .writer → attends preferred m' l'.pc) : Duty preferred m l m' l' := by
  subst hp
  refine ⟨fun h => .inl (ha h), ?_, ?_, hak⟩
  · intro h
    rw [hbk] at h
    cases h
  · intro side h
    rw [hr] at h
    cases h

theorem inside_duty {now} (hp : l.pc = .inside now) (hf : owners m.state = 0) :
    Duty preferred m l (inside m l now).1 (inside m l now).2 := by
  cases now with
  | pendCount side =>
    refine .idle hp ?_ rfl (fun _ => rfl) (by simp)
    cases side <;> exact fun h => h
  | pendFlag side =>
    refine ⟨?_, ?_, by simp [hp, rouses], by simp [hp]⟩
    · intro h
      rw [hp] at h
      cases side with
      | reader => cases h
      | writer => exact .inl (decide_eq_true (canAcquire_writer.mpr hf))
    · intro h
      refine .inr ⟨side, hp, ?_⟩
      simpa [inside, Thread.write, blocked] using h
  | pendSerial side old =>
    refine ⟨?_, ?_, by simp [hp, rouses], by simp [hp]⟩
    · rw [hp]
      intro h
      refine .inl ?_
      cases side with
      | reader => cases h
      | writer =>
        have hcn : canAcquire preferred .writer old := of_decide_eq_true h
        simp [inside, Thread.goto, attends, afterAttends, hcn]
    · intro h
      refine .inl ⟨?_, by simp [hp]⟩
      rw [hp]
      exact ((Bool.and_eq_true _ _).mp h).1
  | unpendCount side b =>
    cases b with
    | false =>
      refine .idle hp ?_ ?_ (fun _ => rfl) (by simp)
      · simp only [inside, Thread.write]
        split <;> cases side <;> exact fun h => h
      · simp only [inside, Thread.write]
        split <;> rfl
    | true =>
      cases side with
      | reader =>
        refine .idle hp (by simp [attends, sectionAttends]) ?_ (fun _ => rfl) (by simp)
        simp only [inside, Thread.write]
        split <;> rfl
      | writer =>
        refine ⟨fun _ => .inr (.inl hp), ?_, by simp [hp, rouses], by simp [hp]⟩
        simp only [inside, Thread.write]
        split <;> rintro ⟨⟩
  | unpendFlag side b =>
    refine .idle hp ?_ rfl (fun _ => rfl) (by simp)
    cases side <;> cases b <;> exact fun h => h
  | chooseWriters =>
    refine .idle hp ?_ ?_ (fun _ => rfl) (by simp)
    · intro _
      simp only [inside, Thread.goto]
      split <;> rfl
    · simp only [inside, Thread.goto]
      split <;> rfl
  | chooseReaders =>
    by_cases hc : m.pendingCount .reader = 0
    · refine ⟨fun _ => .inr (.inr (.inr ⟨hp, hc⟩)), ?_, by simp [hp, rouses], by simp [hp]⟩
      simp [inside, Thread.goto, hc, blocked]
    refine .idle hp ?_ ?_ (fun _ => rfl) (by simp)
    · simp [inside, Thread.goto, hc, attends, sectionAttends]
    · simp [inside, Thread.goto, hc, blocked]
  | bump side =>
    refine ⟨fun _ => .inr (.inr (.inl ⟨side, hp, rfl, ?_⟩)), ?_, by simp [hp, rouses],
      by simp [hp]⟩
    · simp [inside]
    · rintro ⟨⟩

theorem awaken_place (h : sleeps l = some w) (hpl : Placed m l.pc) :
    inLock (awaken l).pc = inLock l.pc ∧ counted (awaken l).pc = counted l.pc ∧
      flagged (awaken l).pc = flagged l.pc ∧ Placed m (awaken l).pc ∧ sleeps (awaken l) = none := by
  rcases sleeps_eq_some h with ⟨side, hp, -, ha⟩ | ⟨next, hp, -, ha⟩ <;> rw [ha, hp]
  · exact ⟨rfl, rfl, rfl, rfl, rfl⟩
  · rw [hp] at hpl
    exact ⟨rfl, by cases next <;> rfl, by cases next <;> rfl, hpl, rfl⟩

theorem wakes_place (h : wakes preferred l = some (w, n, l')) (hp : Placed m l.pc) :
    inLock l'.pc = inLock l.pc ∧ counted l'.pc = counted l.pc ∧
      flagged l'.pc = flagged l.pc ∧ Placed m l'.pc ∧ sleeps l' = none := by
  rcases wakes_eq_some h with ⟨side, hpc, -, -, rfl⟩ | ⟨after, hpc, -, -, rfl⟩ <;> rw [hpc]
  · exact ⟨rfl, rfl, rfl, trivial, rfl⟩
  · have hu : Placed m (.unlocking after) := by
      rw [hpc] at hp
      cases after <;> exact hp
    obtain ⟨hin, hc, hf, hp', hs⟩ := released_place preferred l hu
    exact ⟨hin, hc.trans (by cases after <;> rfl), hf.trans (by cases after <;> rfl), hp', hs⟩

theorem awaken_duties (preferred) (m : Rwlock Tid) (h : sleeps l = some w) :
    blocked preferred m (awaken l).pc = false ∧
      (attends preferred m l.pc → attends preferred m (awaken l).pc) ∧
      (l.pc = .asleep .writer → attends preferred m (awaken l).pc) ∧
      ∀ side, rouses side l.pc = false := by
  rcases sleeps_eq_some h with ⟨side, hp, -, ha⟩ | ⟨next, hp, -, ha⟩ <;> rw [ha, hp]
  · refine ⟨rfl, nofun, ?_, fun _ => rfl⟩
    intro hs
    cases hs
    rfl
  · exact ⟨rfl, fun h => h, nofun, fun _ => rfl⟩

theorem wakes_duties (h : wakes preferred l = some (w, n, l')) :
    (attends preferred m l.pc → attends preferred m l'.pc) ∧
      (blocked preferred m l'.pc → blocked preferred m l.pc) ∧
      ∀ side, rouses side l.pc → rouses side l'.pc ∨ w = .wakeupSerial side := by
  rcases wakes_eq_some h with ⟨side, hp, rfl, -, rfl⟩ | ⟨after, hp, -, -, rfl⟩ <;> rw [hp]
  · refine ⟨nofun, nofun, fun other h => .inr ?_⟩
    obtain rfl : side = other := of_decide_eq_true h
    rfl
  · obtain ⟨ha, hbk, hr⟩ := released_duties preferred m l after
    refine ⟨ha, ?_, ?_⟩
    · intro h
      have h := hbk h
      cases after <;> exact h
    · intro side h
      exact .inl (hr side (by cases after <;> exact h))

variable [DecidableEq Tid]

theorem step_duty (v : View t m l) (hf : owners m.state = 0) (hf' : owners m'.state = 0)
    (hsr : ∀ side serial, l.pc = .futexWait side serial →
      m.wakeupSerial side % 2 ^ 32 = serial % 2 ^ 32 → m.wakeupSerial side = serial)
    (ok : Ok l) (hpl : Placed m l.pc) (h : (m', l') ∈ step preferred t m l) :
    Duty preferred m l m' l' := by
  have hnb : ¬(0 < l.holds.reads ∨ l.holds.writing) := by
    rintro (hr | hw)
    · have := v.reading hr
      omega
    · have := v.writing hw
      omega
  cases hp : l.pc
  all_goals simp only [Ok, hp] at ok
  all_goals simp only [step, hp] at h
  case outside last =>
    obtain ⟨rfl, hl⟩ := mem_map_pair h
    exact .idle hp (by simp [attends]) (not_blocked_of_plain (calls_plain hl)) (fun _ => rfl)
      (by simp)
  case tryLoad side caller =>
    obtain ⟨rfl, rfl⟩ := mem_pair h
    refine .idle hp ?_ (not_blocked_of_plain tried_plain) (fun _ => rfl) (by simp)
    cases side <;> simp [attends, tried_writer hf, Thread.goto]
  case tryCas side caller old =>
    rcases mem_weakCas.mp h with ⟨hm, h⟩ | h <;> cases h
    · subst hm
      cases side with
      | reader =>
        have hrm : owners m.state + 1 < 2 ^ 29 := ok.2.2
        have ho := (add_reader (x := m.state) (by omega)).1
        change owners (m.state + stateReaderCountChangeStep) = 0 at hf'
        omega
      | writer =>
        have ho := (add_writer (x := m.state) (by omega)).1
        change owners (stateAddWriterFlag m.state) = 0 at hf'
        omega
    · refine .idle hp ?_ (not_blocked_of_plain tried_plain) (fun _ => rfl) (by simp)
      cases side <;> simp [attends, tried_writer hf, Thread.goto]
  case tidLoad side =>
    have ht : m.writerTid ≠ some t := by
      intro ht
      have := v.writing (v.tid.mp ht).1
      omega
    rw [mem_singleton, if_neg ht] at h
    cases h
    refine .idle hp ?_ rfl (fun _ => rfl) (by simp)
    cases side <;> simp [attends, Thread.goto]
  case checkLoad side =>
    obtain ⟨rfl, rfl⟩ := mem_pair h
    refine .idle hp ?_ ?_ (fun _ => rfl) (by simp)
    · cases side with
      | reader => simp [attends]
      | writer =>
        rw [if_pos (canAcquire_writer.mpr hf)]
        exact fun _ => rfl
    · split <;> rfl
  case futexWait side serial =>
    rw [mem_append] at h
    rcases h with h | h
    · split at h
      · rename_i heq
        have hc := hsr side serial hp heq
        obtain ⟨rfl, rfl⟩ := mem_pair h
        refine ⟨?_, ?_, by simp [hp, rouses], by simp [hp]⟩
        · cases side <;> simp [hp, attends, hc]
        intro _
        refine .inl ⟨?_, by simp [hp]⟩
        rw [hp]
        exact decide_eq_true hc.le
      · cases h
    · obtain ⟨rfl, hl⟩ := mem_map_pair h
      obtain ⟨b, rfl⟩ := mem_unslept hl
      refine .idle hp ?_ rfl (fun _ => rfl) (by simp)
      cases side <;> simp [attends, sectionAttends, Thread.goto]
  case asleep side =>
    obtain ⟨rfl, hl⟩ := mem_map_pair h
    obtain ⟨b, rfl⟩ := mem_unslept hl
    refine .idle hp (by simp [attends]) rfl (fun _ => rfl) ?_
    intro hs
    cases hs
    rfl
  case locking place next =>
    obtain ⟨⟨state, place'⟩, hn, h⟩ := List.mem_map.mp h
    cases h
    rw [hp] at hpl
    cases place' with
    | none =>
      refine .idle hp (fun h => h) ?_ (fun _ => rfl) (by simp)
      cases next <;> first | rfl | cases hpl
    | some place' =>
      exact .idle hp (fun h => h) rfl (fun _ => rfl) (by simp)
  case inside now =>
    rw [mem_singleton] at h
    have hd : Duty preferred m l (inside m l now).1 (inside m l now).2 := inside_duty hp hf
    rwa [← h] at hd
  case unlocking after =>
    obtain ⟨rfl, rfl⟩ := mem_pair h
    split
    · refine ⟨?_, ?_, ?_, by simp [hp]⟩
      · rw [hp]
        intro h
        exact .inl (by cases after <;> exact h)
      · intro h
        refine .inl ⟨?_, by simp [hp]⟩
        rw [hp]
        cases after <;> exact h
      · rw [hp]
        intro side h
        cases after <;> exact h
    · obtain ⟨ha, hbk, hro⟩ := released_duties preferred
        { m with pendingLock := .unlocked } { l with wrote := true } after
      refine ⟨?_, ?_, ?_, by simp [hp]⟩
      · rw [hp]
        intro h
        exact .inl (ha (by cases after <;> exact h))
      · intro h
        refine .inl ⟨?_, by simp [hp]⟩
        rw [hp]
        have h := hbk h
        cases after <;> exact h
      · rw [hp]
        exact hro
  case unlockWake after | wake side =>
    cases h
  case tidStore =>
    exact absurd (.inr (by rw [ok.2.1])) hnb
  case unlockLoad =>
    exact absurd ok.2 hnb
  case unlockTidLoad | unlockTidStore | unlockAnd =>
    exact absurd (.inr ok.2) hnb
  case unlockSub =>
    exact absurd (.inl ok.2.1) hnb

/-- A lock that is free after a step was free before, or the step has given it up; the thread then
sees to the others unless nobody is pending. -/
theorem free_before (v : View t m l) (ok : Ok l)
    (h : (m', l') ∈ step preferred t m l) (hf : owners m'.state = 0) :
    owners m.state = 0 ∨ attends preferred m' l'.pc ∨
      isOutside l'.pc ∧ ∀ side : Side, ¬side.pending m'.state := by
  by_cases hbf : owners m.state = 0
  · exact .inl hbf
  refine .inr ?_
  have hm : owners m'.state ≠ owners m.state := by omega
  cases hpc : l.pc with
  | unlockAnd =>
    simp only [Ok, hpc] at ok
    have ho := v.writing ok.2
    simp only [step, hpc] at h
    obtain ⟨rfl, rfl⟩ := mem_pair h
    split
    · rename_i hn
      refine .inr ⟨rfl, fun side hsd => hn ?_⟩
      rw [stateHavePendingReadersOrWriters_iff]
      exact ⟨side, ((sub_writer (by omega)).2 side).mp hsd⟩
    · exact .inl rfl
  | unlockSub =>
    simp only [Ok, hpc] at ok
    have ho := v.reading ok.2.1
    simp only [step, hpc] at h
    obtain ⟨rfl, rfl⟩ := mem_pair h
    obtain ⟨hs, hp⟩ := sub_reader ho.1
    have hl : stateIsLastReader m.state := by
      rw [stateIsLastReader_iff]
      change owners (m.state - stateReaderCountChangeStep) = 0 at hf
      omega
    split
    · rename_i hn
      refine .inr ⟨rfl, fun side hsd => hn.elim (fun h => h hl) fun h => h ?_⟩
      rw [stateHavePendingReadersOrWriters_iff]
      exact ⟨side, (hp side).mp hsd⟩
    · exact .inl rfl
  | _ =>
    exfalso
    obtain ⟨-, hc⟩ := step_change v ok h
    cases hc with
    | quiet owner => exact hm owner
    | readLock _ owner | writeLock _ owner => omega
    | storeTid _ owner | clearTid _ owner => exact hm owner
    | writeUnlock _ place | readUnlock _ place => cases hpc.symm.trans place

end

section
variable {t : Tid} {s s' : State Tid (Rwlock Tid) Thread}
variable [Fintype Tid]

/-- `pending_lock` excludes, the counts and flags say who is pending, and nobody is left asleep on
`pending_lock`. -/
structure Booked (s : State Tid (Rwlock Tid) Thread) : Prop where
  lock : total (fun l : Thread => (inLock l.pc).toNat) s.pc =
    if s.mem.pendingLock = .unlocked then 0 else 1
  count : ∀ side, s.mem.pendingCount side =
    total (fun l : Thread => (decide (counted l.pc = some side)).toNat) s.pc
  flag : ∀ u side, flagged (s.pc u).pc = some side → side.pending s.mem.state
  pending : ∀ side : Side, side.pending s.mem.state →
    0 < s.mem.pendingCount side ∨ ∃ u b, (s.pc u).pc = .inside (.unpendFlag side b)
  placed : ∀ u, Placed s.mem (s.pc u).pc
  wakeup : ∀ u, sleeps (s.pc u) = some .pendingLock →
    s.mem.pendingLock = .lockedWithWaiter ∨ ∃ v, lockRouses (s.pc v).pc

theorem initial_booked : Booked (initial Tid) := by
  constructor
  · exact total_eq_zero fun _ => rfl
  · intro side
    exact (total_eq_zero fun _ => rfl).symm
  · exact fun u side h => by cases h
  · intro side h
    change side.pending 0 at h
    cases side <;> simp [Side.pending] at h
  · exact fun u => trivial
  · exact fun u h => by cases h

variable {m : Rwlock Tid} {u : Tid}

section
variable (hb : Booked s)
include hb

theorem Booked.unique {v} (hu : inLock (s.pc u).pc) (hv : inLock (s.pc v).pc) : u = v := by
  by_contra huv
  have hl : (inLock (s.pc u).pc).toNat + (inLock (s.pc v).pc).toNat ≤
      total (fun l : Thread => (inLock l.pc).toNat) s.pc :=
    add_le_total (g := fun l : Thread => (inLock l.pc).toNat) huv
  rw [hb.lock, hu, hv, Bool.toNat_true] at hl
  split at hl <;> omega

theorem Booked.count_pos (hu : counted (s.pc u).pc = some side) : 0 < s.mem.pendingCount side := by
  have hl : (decide (counted (s.pc u).pc = some side)).toNat ≤
      total (fun l : Thread => (decide (counted l.pc = some side)).toNat) s.pc :=
    le_total (g := fun l : Thread => (decide (counted l.pc = some side)).toNat) u
  rw [← hb.count, decide_eq_true hu, Bool.toNat_true] at hl
  exact hl

theorem Booked.exists_counted (h : s.mem.pendingCount side ≠ 0) :
    ∃ u, counted (s.pc u).pc = some side := by
  by_contra hn
  apply h
  rw [hb.count]
  refine total_eq_zero ?_
  intro u
  rw [decide_eq_false fun hu => hn ⟨u, hu⟩, Bool.toNat_false]

theorem Booked.placed_other (hm : Moved s.mem (s.pc t) m l) (hut : u ≠ t) :
    Placed m (s.pc u).pc := by
  have hpl := hb.placed u
  have hsr := hm.serial
  by_cases hu : inLock (s.pc u).pc
  · have ht : inLock (s.pc t).pc = false := by
      rw [← Bool.not_eq_true]
      exact fun ht => hut (hb.unique hu ht)
    obtain ⟨hc, hs⟩ := hm.guarded ht
    have hp : Placed m (s.pc u).pc ↔ Placed s.mem (s.pc u).pc := by
      cases hpc : (s.pc u).pc <;> simp only [Placed, hc, hs]
    exact hp.mpr hpl
  cases hpc : (s.pc u).pc with
  | inside now | unlocking after =>
    rw [hpc] at hu
    exact absurd rfl hu
  | futexWait side serial =>
    rw [hpc] at hpl
    exact le_trans hpl (hsr side)
  | unlockWake after =>
    rw [hpc] at hpl
    cases after with
    | wait side old serial => exact le_trans hpl (hsr side)
    | _ => trivial
  | locking place next =>
    rw [hpc] at hpl
    exact hpl
  | _ => trivial

end

variable [DecidableEq Tid]

theorem booked_run (hi : Owned s) (hb : Booked s)
    (h : (m, l) ∈ step preferred t s.mem (s.pc t)) : Booked ⟨m, update s.pc t l⟩ := by
  have hm := step_moved (hi.view t) (hi.ok t) (hb.placed t) (fun side => hb.count_pos) h
  constructor
  · have ht : total (fun l => (inLock l.pc).toNat) (update s.pc t l) + (inLock (s.pc t).pc).toNat =
          total (fun l => (inLock l.pc).toNat) s.pc + (inLock l.pc).toNat :=
      total_update t l
    have hl := hb.lock
    dsimp only
    rcases hm.lock with ⟨hin, hif⟩ | ⟨hin, hin', hf, hh⟩ | ⟨hin, hin', hf⟩
    · rw [hin] at ht
      simp only [hif]
      omega
    · rw [if_neg hh]
      rw [if_pos hf] at hl
      rw [hin, hin', hl] at ht
      simpa using ht
    · rw [if_pos hf]
      rw [hin, hin'] at ht
      simp only [Bool.toNat_true, Bool.toNat_false] at ht
      split at hl <;> omega
  · intro side
    have ht : total (fun l => (decide (counted l.pc = some side)).toNat)
        (update s.pc t l) + (decide (counted (s.pc t).pc = some side)).toNat =
          total (fun l => (decide (counted l.pc = some side)).toNat) s.pc +
            (decide (counted l.pc = some side)).toNat :=
      total_update t l
    have hc := hm.count side
    rw [hb.count side] at hc
    dsimp only
    omega
  · intro u side hu
    dsimp only at hu ⊢
    have hk : ∀ v, flagged (s.pc v).pc = some side → side.pending m.state := by
      intro v hv
      rcases hm.pending side with hsm | ⟨-, hs⟩ | ⟨⟨b, hpc⟩, -⟩
      · exact hsm.mpr (hb.flag v side hv)
      · exact hs
      have hz := hb.placed t
      rw [hpc] at hz
      exact absurd hz (hb.count_pos (counted_of_flagged hv)).ne'
    by_cases hut : u = t
    · subst hut
      rw [update_self] at hu
      rcases hm.flag side hu with h | h
      · exact hk u h
      · exact hm.raised side h
    · rw [update_of_ne hut] at hu
      exact hk u hu
  · intro side hsd
    dsimp only at hsd ⊢
    have hc : 0 < s.mem.pendingCount side → 0 < m.pendingCount side ∨
        ∃ u b, (update s.pc t l u).pc = .inside (.unpendFlag side b) := by
      intro hp
      by_cases hz : m.pendingCount side = 0
      · rcases hm.emptied side hz with h | ⟨b, h⟩
        · omega
        · exact .inr ⟨t, b, by rwa [update_self]⟩
      · exact .inl (Nat.pos_of_ne_zero hz)
    rcases hm.pending side with hsm | ⟨hpc, -⟩ | ⟨-, ho⟩
    · rcases hb.pending side (hsm.mp hsd) with hp | ⟨u, b, hu⟩
      · exact hc hp
      · have hut : u ≠ t := by
          rintro rfl
          exact hm.cleared side b hu hsd
        exact .inr ⟨u, b, by rwa [update_of_ne hut]⟩
    · exact hc (hb.count_pos (by rw [hpc]; rfl))
    · exact absurd hsd ho
  · intro u
    dsimp only
    by_cases hut : u = t
    · subst hut
      rw [update_self]
      exact hm.placed
    · rw [update_of_ne hut]
      exact hb.placed_other hm hut
  · intro u hu
    dsimp only at hu ⊢
    have hr : m.pendingLock = .lockedWithWaiter ∨ lockRouses l.pc →
        m.pendingLock = .lockedWithWaiter ∨ ∃ v, lockRouses (update s.pc t l v).pc := by
      rintro (h | h)
      · exact .inl h
      · exact .inr ⟨t, by rwa [update_self]⟩
    by_cases hut : u = t
    · subst hut
      rw [update_self] at hu
      exact .inl (hm.sleep hu)
    rw [update_of_ne hut] at hu
    rcases hb.wakeup u hu with h | ⟨v, hv⟩
    · exact hr (hm.rouse (.inl h))
    by_cases hvt : v = t
    · subst hvt
      exact hr (hm.rouse (.inr hv))
    · exact .inr ⟨v, by rwa [update_of_ne hvt]⟩

theorem booked_wake {woken} (hb : Booked s)
    (call : (program Tid preferred).wakes (s.pc t) = some (w, n, l))
    (hw : FutexThreads.Wakes n ((program Tid preferred).sleepers s.pc w) woken) :
    Booked ⟨s.mem, update ((program Tid preferred).awakened s.pc woken) t l⟩ := by
  have hp := wakes_place call (hb.placed t)
  have hsm : ∀ u, inLock (update ((program Tid preferred).awakened s.pc woken) t l u).pc =
        inLock (s.pc u).pc ∧
      counted (update ((program Tid preferred).awakened s.pc woken) t l u).pc =
        counted (s.pc u).pc ∧
      flagged (update ((program Tid preferred).awakened s.pc woken) t l u).pc =
        flagged (s.pc u).pc ∧
      Placed s.mem (update ((program Tid preferred).awakened s.pc woken) t l u).pc := by
    intro u
    by_cases hut : u = t
    · subst hut
      rw [update_self]
      exact ⟨hp.1, hp.2.1, hp.2.2.1, hp.2.2.2.1⟩
    rw [update_of_ne hut]
    rcases Program.awakened_cases hw u with hu | ⟨hs, hu⟩ <;> rw [hu]
    · exact ⟨rfl, rfl, rfl, hb.placed u⟩
    · have h := awaken_place hs (hb.placed u)
      exact ⟨h.1, h.2.1, h.2.2.1, h.2.2.2.1⟩
  constructor
  · exact (total_congr fun u => by rw [(hsm u).1]).trans hb.lock
  · intro side
    exact (hb.count side).trans (total_congr fun u => by rw [(hsm u).2.1]).symm
  · intro u side hu
    rw [(hsm u).2.2.1] at hu
    exact hb.flag u side hu
  · intro side hsd
    rcases hb.pending side hsd with h | ⟨u, b, hu⟩
    · exact .inl h
    refine .inr ⟨u, b, ?_⟩
    have hut : u ≠ t := by
      rintro rfl
      have hc : wakes preferred (s.pc u) = some (w, n, l) := call
      simp [wakes, hu] at hc
    dsimp only
    rw [update_of_ne hut, Program.awakened_of_none hw (by simp [program, sleeps, hu]), hu]
  · exact fun u => (hsm u).2.2.2
  intro u hu
  dsimp only at hu ⊢
  obtain ⟨hut, hu⟩ := of_update (Q := fun l => sleeps l = some .pendingLock) hu (by
    rw [hp.2.2.2.2]
    rintro ⟨⟩)
  have hbf : sleeps (s.pc u) = some .pendingLock := by
    rcases Program.awakened_cases hw u with h | ⟨hs, h⟩ <;> rw [h] at hu
    · exact hu
    · cases (awaken_place hs (hb.placed u)).2.2.2.2.symm.trans hu
  rcases wakes_eq_some call with ⟨side, hpc, rfl, -, -⟩ | ⟨after, hpc, rfl, rfl, -⟩
  · rcases hb.wakeup u hbf with h | ⟨v, hv⟩
    · exact .inl h
    · refine .inr ⟨v, ?_⟩
      have hvt : v ≠ t := by
        rintro rfl
        rw [hpc] at hv
        cases hv
      have hvs : sleeps (s.pc v) = none := by
        cases hpv : (s.pc v).pc <;> simp_all [sleeps, lockRouses]
        split <;> simp_all [BionicLock.Pc.rouses]
      rw [update_of_ne hvt, Program.awakened_of_none hw hvs]
      exact hv
  · obtain ⟨v, hv⟩ := hw.nonempty Nat.one_pos ⟨u, Program.mem_sleepers.mpr hbf⟩
    have hvs : sleeps (s.pc v) = some .pendingLock := Program.mem_sleepers.mp (hw.subset hv)
    have hvt : v ≠ t := by
      rintro rfl
      simp [sleeps, hpc] at hvs
    refine .inr ⟨v, ?_⟩
    rw [update_of_ne hvt, Program.awakened, if_pos hv]
    rcases sleeps_eq_some hvs with ⟨side, -, hn, -⟩ | ⟨next, -, -, ha⟩
    · cases hn
    change lockRouses (awaken (s.pc v)).pc
    rw [ha]
    rfl

def Attended (preferred : Bool) (s : State Tid (Rwlock Tid) Thread) : Prop :=
  owners s.mem.state = 0 → ∀ u, blocked preferred s.mem (s.pc u).pc → ∃ v, Attends preferred s v u

section
variable {m : Rwlock Tid} {u v : Tid}

omit [Fintype Tid] in
theorem attends_other (hsr : ∀ side, s.mem.wakeupSerial side ≤ m.wakeupSerial side)
    (ha : (s.pc t).pc = .asleep .writer → attends preferred m l.pc) (hvt : v ≠ t)
    (h : Attends preferred s v u) (hu : (s.pc u).pc = .asleep .reader → u ≠ t) :
    ∃ v, Attends preferred ⟨m, update s.pc t l⟩ v u := by
  have hv : update s.pc t l v = s.pc v := update_of_ne hvt l s.pc
  rcases h with h | ⟨h, w, hw⟩ | ⟨h, hs⟩
  · refine ⟨v, .inl ?_⟩
    dsimp only
    rw [hv]
    exact attends_mono hsr h
  · by_cases hwt : w = t
    · subst hwt
      refine ⟨w, .inl ?_⟩
      dsimp only
      rw [update_self]
      exact ha hw
    · refine ⟨v, .inr (.inl ⟨?_, w, ?_⟩)⟩ <;> dsimp only
      · rwa [hv]
      · rwa [update_of_ne hwt]
  · refine ⟨v, .inr (.inr ⟨?_, ?_⟩)⟩ <;> dsimp only
    · rwa [hv]
    · rwa [update_of_ne (hu hs)]

theorem attended_bump_writer (hb : Booked s) (hp : (s.pc t).pc = .inside (.bump .writer))
    (hl : l.pc = .unlocking (.wake .writer))
    (hbp : m.wakeupSerial .writer = s.mem.wakeupSerial .writer + 1) :
    ∃ v, Attends preferred ⟨m, update s.pc t l⟩ v u := by
  have hc := hb.placed t
  rw [hp] at hc
  obtain ⟨x, hx⟩ := hb.exists_counted hc
  have hxt : x ≠ t := by
    rintro rfl
    rw [hp] at hx
    cases hx
  have hin : inLock (s.pc x).pc = false := by
    rw [← Bool.not_eq_true]
    exact fun h => hxt (hb.unique h (by rw [hp]; rfl))
  by_cases hs : (s.pc x).pc = .asleep .writer
  · refine ⟨t, .inr (.inl ⟨?_, x, ?_⟩)⟩ <;> dsimp only
    · rw [update_self, hl]
      rfl
    · rwa [update_of_ne hxt]
  refine ⟨x, .inl ?_⟩
  dsimp only
  rw [update_of_ne hxt]
  rcases counted_writer_cases preferred m hx hin with h | h
  · exact h
  have hpl := hb.placed x
  rw [blocked.eq_def] at h
  split at h <;> simp_all [counted, inLock, Placed]
  all_goals omega

theorem attended_bump_reader (hb : Booked s) (hp : (s.pc t).pc = .inside (.bump .reader))
    (hl : l.pc = .unlocking (.wake .reader))
    (hbp : m.wakeupSerial .reader = s.mem.wakeupSerial .reader + 1) (hut : u ≠ t)
    (hu : blocked preferred m (s.pc u).pc) : ∃ v, Attends preferred ⟨m, update s.pc t l⟩ v u := by
  have hz := hb.placed t
  rw [hp] at hz
  obtain ⟨side, hsd⟩ := flagged_of_blocked hu
  have hc := counted_of_flagged hsd
  have hr : side = .reader := by
    cases side with
    | reader => rfl
    | writer => exact absurd hz (hb.count_pos hc).ne'
  subst hr
  have hin : inLock (s.pc u).pc = false := by
    rw [← Bool.not_eq_true]
    exact fun h => hut (hb.unique h (by rw [hp]; rfl))
  have hs : (s.pc u).pc = .asleep .reader := by
    have hpl := hb.placed u
    rw [blocked.eq_def] at hu
    split at hu <;> simp_all [counted, inLock, Placed]
    all_goals omega
  refine ⟨t, .inr (.inr ⟨?_, ?_⟩)⟩ <;> dsimp only
  · rw [update_self, hl]
    rfl
  · rwa [update_of_ne hut]

theorem attended_pending_writer (hb : Booked s) (ha : Attended preferred s)
    (hf : owners s.mem.state = 0) (hpc : (s.pc t).pc = .inside (.pendFlag .reader))
    (hp : Side.writer.pending s.mem.state)
    (hsr : ∀ side, s.mem.wakeupSerial side ≤ m.wakeupSerial side) :
    ∃ v, Attends preferred ⟨m, update s.pc t l⟩ v u := by
  have hc : 0 < s.mem.pendingCount .writer := by
    rcases hb.pending .writer hp with h | ⟨x, b, hx⟩
    · exact h
    have hxt := hb.unique (u := x) (v := t) (by rw [hx]; rfl) (by rw [hpc]; rfl)
    rw [hxt, hpc] at hx
    cases hx
  obtain ⟨x, hx⟩ := hb.exists_counted hc.ne'
  have hxt : x ≠ t := by
    rintro rfl
    rw [hpc] at hx
    cases hx
  have hin : inLock (s.pc x).pc = false := by
    rw [← Bool.not_eq_true]
    exact fun h => hxt (hb.unique h (by rw [hpc]; rfl))
  have hie : attends preferred s.mem (s.pc t).pc = false ∧ rouses .writer (s.pc t).pc = false := by
    rw [hpc]
    exact ⟨rfl, rfl⟩
  rcases counted_writer_cases preferred s.mem hx hin with h | h
  · refine ⟨x, .inl ?_⟩
    dsimp only
    rw [update_of_ne hxt]
    exact attends_mono hsr h
  obtain ⟨v, hv⟩ := ha hf x h
  rcases hv with hv | ⟨hv, w, hw⟩ | ⟨-, hw⟩
  · have hvt : v ≠ t := by
      rintro rfl
      cases hie.1.symm.trans hv
    refine ⟨v, .inl ?_⟩
    dsimp only
    rw [update_of_ne hvt]
    exact attends_mono hsr hv
  · have hvt : v ≠ t := by
      rintro rfl
      cases hie.2.symm.trans hv
    have hwt : w ≠ t := by
      rintro rfl
      rw [hpc] at hw
      cases hw
    refine ⟨v, .inr (.inl ⟨?_, w, ?_⟩)⟩ <;> dsimp only
    · rwa [update_of_ne hvt]
    · rwa [update_of_ne hwt]
  · rw [hw] at hx
    cases hx

theorem attended_run (hi : Owned s) (hb : Booked s) (ha : Attended preferred s)
    (hc : Careful preferred t s) (h : (m, l) ∈ step preferred t s.mem (s.pc t)) :
    Attended preferred ⟨m, update s.pc t l⟩ := by
  have hvw := hi.view t
  have hm := step_moved hvw (hi.ok t) (hb.placed t) (fun side => hb.count_pos) h
  intro hf' u hu
  dsimp only at hf' hu
  rcases free_before hvw (hi.ok t) h hf' with hf | hat | ⟨hot, hno⟩
  · have hsr : ∀ side serial, (s.pc t).pc = .futexWait side serial →
        s.mem.wakeupSerial side % 2 ^ 32 = serial % 2 ^ 32 → s.mem.wakeupSerial side = serial := by
      intro side serial hpc
      simpa only [Careful, hpc] using hc
    have hd := step_duty hvw hf hf' hsr (hi.ok t) (hb.placed t) h
    by_cases hut : u = t
    · subst hut
      rw [update_self] at hu
      rcases hd.block hu with ⟨hbo, hak⟩ | ⟨side, hpc, hcn⟩
      · obtain ⟨v, hv⟩ := ha hf u hbo
        have hvu : v ≠ u := by
          rintro rfl
          rcases hv with h | ⟨h, -⟩ | ⟨h, -⟩
          · cases (not_attends_of_blocked hbo).symm.trans h
          · cases (not_rouses_of_blocked hbo .writer).symm.trans h
          · cases (not_rouses_of_blocked hbo .reader).symm.trans h
        exact attends_other hm.serial hd.awake hvu hv fun h => absurd h (hak _)
      · cases side with
        | writer => exact absurd (canAcquire_writer.mpr hf) hcn
        | reader =>
          rw [canAcquire_reader, hf] at hcn
          have hpd : Side.writer.pending s.mem.state := by
            by_contra hn
            exact hcn ⟨by decide, fun h => hn h.2⟩
          exact attended_pending_writer hb ha hf hpc hpd hm.serial
    rw [update_of_ne hut] at hu
    obtain ⟨v, hv⟩ := ha hf u (blocked_anti hm.serial hu)
    by_cases hvt : v = t
    · subst hvt
      rcases hv with hat | ⟨hro, w, hw⟩ | ⟨hro, hs⟩
      · rcases hd.attend hat with h | hpc | ⟨side, hpc, hl, hbp⟩ | ⟨hpc, hr⟩
        · exact ⟨v, .inl (by dsimp only; rwa [update_self])⟩
        · have ho : ∃ x, x ≠ v ∧ Attends preferred s x u := by
            simp only [Careful, hpc] at hc
            exact hc hf u (blocked_anti hm.serial hu)
          obtain ⟨x, hxv, hx⟩ := ho
          exact attends_other hm.serial hd.awake hxv hx fun _ => hut
        · cases side with
          | writer => exact attended_bump_writer hb hpc hl hbp
          | reader => exact attended_bump_reader hb hpc hl hbp hut hu
        · exfalso
          have hwi := hb.placed v
          rw [hpc] at hwi
          obtain ⟨side, hsd⟩ := flagged_of_blocked hu
          have hp := hb.count_pos (counted_of_flagged hsd)
          cases side with
          | reader => exact hp.ne' hr
          | writer => exact hp.ne' hwi
      · refine ⟨v, .inr (.inl ⟨?_, w, ?_⟩)⟩ <;> dsimp only
        · rw [update_self]
          exact hd.rouse _ hro
        · have hwv : w ≠ v := by
            rintro rfl
            rw [hw] at hro
            cases hro
          rwa [update_of_ne hwv]
      · refine ⟨v, .inr (.inr ⟨?_, ?_⟩)⟩ <;> dsimp only
        · rw [update_self]
          exact hd.rouse _ hro
        · rwa [update_of_ne hut]
    · exact attends_other hm.serial hd.awake hvt hv fun _ => hut
  · exact ⟨t, .inl (by dsimp only; rwa [update_self])⟩
  · exfalso
    obtain ⟨side, hsd⟩ := flagged_of_blocked hu
    exact hno side ((booked_run hi hb h).flag u side hsd)

end

section
variable {woken : Finset Tid} {u : Tid}
  (call : (program Tid preferred).wakes (s.pc t) = some (w, n, l))
include call

omit [Fintype Tid] in
theorem ne_of_wakes {x} (hs : (s.pc x).pc = .asleep side) : x ≠ t := by
  rintro rfl
  rcases wakes_eq_some call with ⟨_, hp, -⟩ | ⟨_, hp, -⟩ <;> cases hp.symm.trans hs

variable (hw : FutexThreads.Wakes n ((program Tid preferred).sleepers s.pc w) woken)
include hw

theorem attends_woken_writer {x} (hx : x ∈ woken)
    (hs : (s.pc x).pc = .asleep .writer) : ∃ v, Attends preferred
      ⟨s.mem, update ((program Tid preferred).awakened s.pc woken) t l⟩ v u := by
  have hxt := ne_of_wakes call hs
  refine ⟨x, .inl ?_⟩
  dsimp only
  rw [update_of_ne hxt, Program.awakened, if_pos hx]
  exact (awaken_duties preferred s.mem (Program.mem_sleepers.mp (hw.subset hx))).2.2.1 hs

theorem attended_wake (ha : Attended preferred s) : Attended preferred
      ⟨s.mem, update ((program Tid preferred).awakened s.pc woken) t l⟩ := by
  intro hf u hu
  dsimp only at hf hu
  obtain ⟨hat, hbk, hr⟩ := wakes_duties (m := s.mem) call
  have hp : u ≠ t → (program Tid preferred).awakened s.pc woken u = s.pc u := by
    intro hut
    rw [update_of_ne hut] at hu
    rcases Program.awakened_cases hw u with h | ⟨hs, h⟩
    · exact h
    · rw [h] at hu
      cases (awaken_duties preferred s.mem hs).1.symm.trans hu
  have hbf : blocked preferred s.mem (s.pc u).pc := by
    by_cases hut : u = t
    · subst hut
      rw [update_self] at hu
      exact hbk hu
    · rwa [update_of_ne hut, hp hut] at hu
  obtain ⟨v, hv⟩ := ha hf u hbf
  have hsi : ∀ side, rouses side (s.pc v).pc →
      rouses side (update ((program Tid preferred).awakened s.pc woken) t l v).pc ∨
        w = .wakeupSerial side := by
    intro side hv
    by_cases hvt : v = t
    · subst hvt
      rw [update_self]
      exact hr side hv
    rw [update_of_ne hvt]
    rcases Program.awakened_cases hw v with h | ⟨hs, -⟩
    · exact .inl (by rwa [h])
    · cases ((awaken_duties preferred s.mem hs).2.2.2 side).symm.trans hv
  rcases hv with hv | ⟨hv, x, hx⟩ | ⟨hv, hsp⟩
  · refine ⟨v, .inl ?_⟩
    dsimp only
    by_cases hvt : v = t
    · subst hvt
      rw [update_self]
      exact hat hv
    rw [update_of_ne hvt]
    rcases Program.awakened_cases hw v with h | ⟨hs, h⟩ <;> rw [h]
    · exact hv
    · exact (awaken_duties preferred s.mem hs).2.1 hv
  · by_cases hxw : x ∈ woken
    · exact attends_woken_writer call hw hxw hx
    · rcases hsi .writer hv with h | rfl
      · refine ⟨v, .inr (.inl ⟨h, x, ?_⟩)⟩
        dsimp only
        rw [update_of_ne (ne_of_wakes call hx), Program.awakened, if_neg hxw, hx]
      · rcases wakes_eq_some call with ⟨side, -, hwd, rfl, -⟩ | ⟨after, -, hwd, -⟩
        · cases hwd
          have hse : x ∈ (program Tid preferred).sleepers s.pc (.wakeupSerial .writer) :=
            Program.mem_sleepers.mpr (by simp [program, sleeps, hx])
          obtain ⟨y, hy⟩ := hw.nonempty Nat.one_pos ⟨x, hse⟩
          refine attends_woken_writer call hw hy ?_
          rcases sleeps_eq_some (Program.mem_sleepers.mp (hw.subset hy)) with
            ⟨side, hpc, hsd, -⟩ | ⟨next, -, hn, -⟩
          · cases hsd
            exact hpc
          · cases hn
        · cases hwd
  · have hut := ne_of_wakes call hsp
    rcases hsi .reader hv with h | rfl
    · refine ⟨v, .inr (.inr ⟨h, ?_⟩)⟩
      dsimp only
      rw [update_of_ne hut, hp hut, hsp]
    rcases wakes_eq_some call with ⟨side, -, hwd, rfl, -⟩ | ⟨after, -, hwd, -⟩
    · cases hwd
      have hal : woken = (program Tid preferred).sleepers s.pc (.wakeupSerial .reader) := hw
      have hm : u ∈ woken := by
        rw [hal]
        exact Program.mem_sleepers.mpr (by simp [program, sleeps, hsp])
      have hs : sleeps (s.pc u) = some (.wakeupSerial .reader) :=
        Program.mem_sleepers.mp (hw.subset hm)
      rw [update_of_ne hut, Program.awakened, if_pos hm] at hu
      cases (awaken_duties preferred s.mem hs).1.symm.trans hu
    · cases hwd

end

variable (h : (program Tid preferred).ReachesUnder (Careful preferred) (initial Tid) s)
include h

theorem reaches_attended : Owned s ∧ Booked s ∧ Attended preferred s := by
  refine h.invariant (I := fun s => Owned s ∧ Booked s ∧ Attended preferred s)
    ⟨initial_owned, initial_booked, fun _ u hu => by cases hu⟩ ?_
  rintro t s s' ⟨hi, hb, ha⟩ hc hs
  cases hs with
  | run next => exact ⟨owned_run hi next, booked_run hi hb next, attended_run hi hb ha hc next⟩
  | wake call wakes =>
    exact ⟨owned_wake hi call wakes, booked_wake hb call wakes, attended_wake call wakes ha⟩

/-- In every run in which no step loses a wake-up nobody is left asleep beside a free lock. -/
theorem careful_not_stranded : ¬Stranded s := by
  obtain ⟨hi, hb, ha⟩ := reaches_attended h
  rintro ⟨hf, ⟨u, hu⟩, hal⟩
  rw [stateOwnedByReadersOrWriter_iff] at hf
  have hl : ∀ v, sleeps (s.pc v) ≠ some .pendingLock := by
    intro v hv
    rcases hb.wakeup v hv with hwi | ⟨x, hx⟩
    · have ht := hb.lock
      rw [if_neg (by rw [hwi]; decide)] at ht
      have hn : ∀ x, (inLock (s.pc x).pc).toNat = 0 := by
        intro x
        rcases hal x with h | h
        · cases hpc : (s.pc x).pc <;> simp_all [sleeps, inLock]
        · cases hpc : (s.pc x).pc <;> simp_all [isOutside, inLock]
      rw [total_eq_zero (g := fun l : Thread => (inLock l.pc).toNat) hn] at ht
      cases ht
    · rcases hal x with h | h
      · cases hpc : (s.pc x).pc <;> simp_all [sleeps, lockRouses]
        split at h <;> simp_all [BionicLock.Pc.rouses]
      · cases hpc : (s.pc x).pc <;> simp_all [isOutside, lockRouses]
  have hp : ∀ v, (∃ side, (s.pc v).pc = .asleep side) ∨ ∃ last, (s.pc v).pc = .outside last := by
    intro v
    rcases hal v with h | h
    · obtain ⟨w, hw⟩ := Option.ne_none_iff_exists'.mp h
      rcases sleeps_eq_some hw with ⟨side, hpc, -⟩ | ⟨next, -, rfl, -⟩
      · exact .inl ⟨side, hpc⟩
      · exact absurd hw (hl v)
    · cases hpc : (s.pc v).pc <;> simp_all [isOutside]
  have hbo : blocked preferred s.mem (s.pc u).pc := by
    rcases hp u with ⟨side, hpc⟩ | ⟨last, hpc⟩
    · rw [hpc]
      rfl
    · simp [sleeps, hpc] at hu
  obtain ⟨v, hv⟩ := ha (by omega) u hbo
  rcases hp v with ⟨side, hpc⟩ | ⟨last, hpc⟩ <;> rw [Attends, hpc] at hv <;>
    rcases hv with hv | ⟨hv, -⟩ | ⟨hv, -⟩ <;> cases hv

end

/-- The writer that timed out leaves while the lock is held. -/
def timedOutWriterLeavesFirst : List (Program.Move (Fin 3)) :=
  [.run 0 1] ++ List.replicate 3 (.run 0 0) ++ List.replicate 11 (.run 1 0) ++ [.run 2 9] ++
    List.replicate 9 (.run 2 0) ++ [.run 2 1] ++ List.replicate 4 (.run 2 0) ++ [.run 0 12] ++
    List.replicate 9 (.run 0 0) ++ [.wake 0 {1}]

theorem careful_not_stranded_three_threads :
    ∃ s, (program (Fin 3) false).ReachesUnder (Careful false) (initial (Fin 3)) s ∧
      (owners s.mem.state = 0 ∧ (s.pc 2).pc = .outside (some .ETIMEDOUT) ∧
        (s.pc 1).pc = .locking .cas (.unpendCount .reader false)) ∧ ¬Stranded s := by
  have hrn : ∃ s, (program (Fin 3) false).ReachesUnder (Careful false) (initial (Fin 3)) s ∧
      owners s.mem.state = 0 ∧ (s.pc 2).pc = .outside (some .ETIMEDOUT) ∧
        (s.pc 1).pc = .locking .cas (.unpendCount .reader false) :=
    Program.exists_reachesUnder timedOutWriterLeavesFirst (by decide +kernel)
  obtain ⟨s, hr, hf⟩ := hrn
  exact ⟨s, hr, hf, careful_not_stranded hr⟩

end PthreadRwlockWaiters
