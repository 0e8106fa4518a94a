import Bionic.FutexThreads

/-! `pthread_barrier_wait`. One counter and one state word serve for entering and for leaving, cycle
after cycle: the thread that fills the barrier releases it, and the one that empties it readies it
for the next cycle. A thread remembers what its waits returned. The constant futex key is left out.
-/
namespace PthreadBarrier

open FutexThreads Bool
open List Function Program

inductive BarrierState where
  | WAIT | RELEASE
  deriving DecidableEq

structure Barrier where
  state : BarrierState
  waitCount : ℕ
  deriving DecidableEq

/-- 0, `PTHREAD_BARRIER_SERIAL_THREAD` or `EINVAL`. -/
inductive Ret where
  | zero | serial | EINVAL
  deriving DecidableEq

inductive Pc where
  | outside
  /-- In the first loop: before the load of the state, before the futex wait, asleep. -/
  | drainLoad
  | drainWait
  | drainAsleep
  /-- Before the load of `wait_count`, and before a compare-and-exchange on it. -/
  | countLoad
  | countCas (prev : ℕ)
  /-- The thread that filled the barrier: before the store of `RELEASE`, before its wake. -/
  | releaseStore (prev : ℕ)
  | releaseWake (prev : ℕ)
  /-- In the second loop: before the load of the state, before the futex wait, asleep. -/
  | fillLoad
  | fillWait
  | fillAsleep
  /-- Before the decrement of `wait_count`. -/
  | leave (result : Ret)
  /-- The thread that emptied the barrier: before the store of `WAIT`, before its wake. -/
  | resetStore (result : Ret)
  | resetWake (result : Ret)
  deriving DecidableEq

structure Thread where
  pc : Pc
  results : List Ret
  deriving DecidableEq

def Thread.goto (l : Thread) (pc : Pc) : Thread := { l with pc := pc }

def Thread.ret (l : Thread) (result : Ret) : Thread :=
  { pc := .outside, results := l.results ++ [result] }

/-- The loop that enters, after `prev_wait_count` was read. -/
def countRead (initCount : ℕ) (l : Thread) (prev : ℕ) : Thread :=
  if initCount ≤ prev then l.ret .EINVAL else l.goto (.countCas prev)

def entered (initCount prev : ℕ) : Pc :=
  if prev + 1 = initCount then
    if prev ≠ 0 then .releaseStore prev else .leave .serial
  else .fillLoad

def step (initCount : ℕ) (m : Barrier) (l : Thread) : List (Barrier × Thread) :=
  match l.pc with
  | .outside => [(m, l.goto .drainLoad)]
  | .drainLoad => [(m, l.goto (if m.state = .RELEASE then .drainWait else .countLoad))]
  | .drainWait => [(m, l.goto (if m.state = .RELEASE then .drainAsleep else .drainLoad))]
  | .drainAsleep => [(m, l.goto .drainLoad)]
  | .countLoad => [(m, countRead initCount l m.waitCount)]
  | .countCas prev =>
    weakCas (m.waitCount = prev) ({ m with waitCount := prev + 1 }, l.goto (entered initCount prev))
      (m, countRead initCount l m.waitCount)
  | .releaseStore prev => [({ m with state := .RELEASE }, l.goto (.releaseWake prev))]
  | .releaseWake _ => []
  | .fillLoad => [(m, l.goto (if m.state = .WAIT then .fillWait else .leave .zero))]
  | .fillWait => [(m, l.goto (if m.state = .WAIT then .fillAsleep else .fillLoad))]
  | .fillAsleep => [(m, l.goto .fillLoad)]
  | .leave result =>
    [({ m with waitCount := m.waitCount - 1 },
      if m.waitCount = 1 then l.goto (.resetStore result) else l.ret result)]
  | .resetStore result => [({ m with state := .WAIT }, l.goto (.resetWake result))]
  | .resetWake _ => []

def sleeps (l : Thread) : Option Unit :=
  if l.pc = .drainAsleep ∨ l.pc = .fillAsleep then some () else none

def awaken (l : Thread) : Thread :=
  match l.pc with
  | .drainAsleep => l.goto .drainLoad
  | .fillAsleep => l.goto .fillLoad
  | _ => l

def wakes (initCount : ℕ) (l : Thread) : Option (Unit × WakeCount × Thread) :=
  match l.pc with
  | .releaseWake prev => some ((), .upTo prev, l.goto (.leave .serial))
  | .resetWake result => some ((), .upTo initCount, l.ret result)
  | _ => none

def program (initCount : ℕ) : Program (Fin initCount) Unit Barrier Thread where
  step _ := step initCount
  sleeps := sleeps
  awaken := awaken
  wakes := wakes initCount

/-- `pthread_barrier_init`, and no wait called yet. -/
def initial (initCount : ℕ) : State (Fin initCount) Barrier Thread :=
  ⟨⟨.WAIT, 0⟩, fun _ => ⟨.outside, []⟩⟩

def Pc.pending : Pc → Option Ret
  | .releaseStore _ | .releaseWake _ => some .serial
  | .fillLoad | .fillWait | .fillAsleep => some .zero
  | .leave result | .resetStore result | .resetWake result => some result
  | _ => none

/-- Entered and not left again: the thread counts in `wait_count`. -/
def Pc.inside : Pc → Bool
  | .releaseStore _ | .releaseWake _ | .fillLoad | .fillWait | .fillAsleep | .leave _ => true
  | _ => false

def Pc.left : Pc → Bool
  | .resetStore _ | .resetWake _ => true
  | _ => false

def Thread.outcomes (l : Thread) : List Ret := l.results ++ l.pc.pending.toList

def Thread.enters (l : Thread) : ℕ := l.outcomes.length

def Thread.leaves (l : Thread) : ℕ := l.results.length + l.pc.left.toNat

theorem Thread.enters_eq (l : Thread) : l.enters = l.leaves + l.pc.inside.toNat := by
  obtain ⟨pc, results⟩ := l
  cases pc <;> simp [enters, leaves, outcomes, Pc.pending, Pc.left, Pc.inside]

theorem Thread.length_results_le (l : Thread) : l.results.length ≤ l.leaves := Nat.le_add_right _ _

theorem Thread.leaves_le (l : Thread) : l.leaves ≤ l.enters := by
  rw [enters_eq]
  exact Nat.le_add_right _ _

variable {n : ℕ} {r : Ret}

section
variable {out : Fin n → List Ret}

/-- A cycle that all have entered has one serial thread, others none. -/
structure History (out : Fin n → List Ret) : Prop where
  serial : ∀ k : ℕ, (∀ u, k < (out u).length) → ∃ u, (out u)[k]? = some .serial
  unique : ∀ (k : ℕ) (u v : Fin n), (out u)[k]? = some .serial → (out v)[k]? = some .serial → u = v
  full : ∀ (k : ℕ) (u v : Fin n), (out u)[k]? = some .serial → k < (out v).length
  valid : ∀ u, .EINVAL ∉ out u

variable {t u : Fin n} {k : ℕ}

theorem getElem?_concat_eq_some {l x} :
    (l ++ [r])[k]? = some x ↔ l[k]? = some x ∨ k = l.length ∧ r = x := by
  rcases lt_trichotomy k l.length with hk | rfl | hk
  · rw [List.getElem?_append_left hk]
    simp [hk.ne]
  · simp
  · rw [List.getElem?_eq_none (by simp; omega), List.getElem?_eq_none hk.le]
    simp [hk.ne']

theorem getElem?_update_eq_some {x} : (update out t (out t ++ [r]) u)[k]? = some x ↔
      (out u)[k]? = some x ∨ u = t ∧ k = (out t).length ∧ r = x := by
  by_cases hu : u = t
  · subst hu
    rw [update_self, getElem?_concat_eq_some]
    simp
  · rw [update_of_ne hu]
    simp [hu]

theorem lt_length_update_iff : k < (update out t (out t ++ [r]) u).length ↔
      k < (out u).length ∨ u = t ∧ k = (out t).length := by
  by_cases hu : u = t
  · subst hu
    rw [update_self, length_append, length_singleton]
    omega
  · rw [update_of_ne hu]
    simp [hu]

theorem History.enter (h : History out) (hr : r = .serial ∨ r = .zero)
    (hl : r = .serial ↔ ∀ u ≠ t, (out t).length < (out u).length) :
    History (update out t (out t ++ [r])) := by
  constructor
  · intro k hk
    simp only [lt_length_update_iff] at hk
    simp only [getElem?_update_eq_some]
    by_cases hkt : k = (out t).length
    · refine ⟨t, .inr ⟨rfl, hkt, hl.mpr fun u hut => ?_⟩⟩
      rcases hk u with hu | hu
      · exact hkt ▸ hu
      · exact absurd hu.1 hut
    · obtain ⟨u, hu⟩ := h.serial k fun u => (hk u).resolve_right fun hu => hkt hu.2
      exact ⟨u, .inl hu⟩
  · intro k u v hu hv
    rw [getElem?_update_eq_some] at hu hv
    rcases hu with hu | ⟨rfl, rfl, -⟩ <;> rcases hv with hv | ⟨rfl, hk, -⟩
    · exact h.unique k u v hu hv
    · exact absurd (h.full k u v hu) (by omega)
    · exact absurd (h.full _ v u hv) (lt_irrefl _)
    · rfl
  · intro k u v hu
    rw [getElem?_update_eq_some] at hu
    rw [lt_length_update_iff]
    rcases hu with hu | ⟨-, rfl, hr⟩
    · exact .inl (h.full k u v hu)
    by_cases hvt : v = t
    · exact .inr ⟨hvt, rfl⟩
    · exact .inl (hl.mp hr v hvt)
  · intro u hu
    obtain ⟨k, hk⟩ := List.mem_iff_getElem?.mp hu
    rcases getElem?_update_eq_some.mp hk with hk | ⟨-, -, rfl⟩
    · exact h.valid u (mem_of_getElem? hk)
    · rcases hr with hr | hr <;> cases hr

end

def Ok (n : ℕ) (m : Barrier) : Pc → Prop
  | .countLoad => m.state = .WAIT
  | .countCas prev => m.state = .WAIT ∧ prev < n
  | .releaseStore prev => m.state = .WAIT ∧ m.waitCount = n ∧ prev + 1 = n
  | .releaseWake prev => m.state = .RELEASE ∧ prev + 1 = n
  | .leave _ => m.state = .RELEASE ∨ n = 1
  | .resetStore _ => m.waitCount = 0 ∧ (m.state = .RELEASE ∨ n = 1)
  | _ => True

/-- While it waits everybody has left as many cycles, while it releases everybody has entered as
many. -/
def InCycle (c : ℕ) : BarrierState → Thread → Prop
  | .WAIT, l => l.leaves = c
  | .RELEASE, l => l.enters = c + 1

def Pc.resetting : Pc → Bool
  | .resetStore _ => true
  | _ => false

def Pc.filled : Pc → Bool
  | .releaseStore _ | .leave _ => true
  | _ => false

def Pc.releasing : Pc → Bool
  | .releaseWake _ => true
  | _ => false

def Pc.rousing : Pc → Bool
  | .resetWake _ => true
  | _ => false

structure Inv (n : ℕ) (s : State (Fin n) Barrier Thread) : Prop where
  count : s.mem.waitCount = total (fun l => l.pc.inside.toNat) s.pc
  ok : ∀ u, Ok n s.mem (s.pc u).pc
  cycle : ∃ c, ∀ u, InCycle c s.mem.state (s.pc u)
  unique : ∀ u v, (s.pc u).pc.resetting → (s.pc v).pc.resetting → u = v
  /-- A full barrier is released by somebody, and an empty one is reset by somebody. -/
  full : s.mem.state = .WAIT → s.mem.waitCount = n → ∃ u, (s.pc u).pc.filled
  empty : s.mem.state = .RELEASE → s.mem.waitCount = 0 → ∃ u, (s.pc u).pc.resetting
  /-- Whoever still sleeps through a change of the state is going to be woken. -/
  release : s.mem.state = .RELEASE → (∃ u, (s.pc u).pc = .fillAsleep) → ∃ u, (s.pc u).pc.releasing
  reset : s.mem.state = .WAIT → (∃ u, (s.pc u).pc = .drainAsleep) → ∃ u, (s.pc u).pc.rousing
  history : History fun u => (s.pc u).outcomes

section
variable {s : State (Fin n) Barrier Thread} {t : Fin n} {l : Thread} {m : Barrier}

theorem initial_inv (hn : 1 ≤ n) : Inv n (initial n) := by
  constructor
  · exact (total_eq_zero fun _ => rfl).symm
  · intro u
    trivial
  · exact ⟨0, fun _ => rfl⟩
  · intro u v hu
    cases hu
  · intro _ h
    change 0 = n at h
    omega
  · exact nofun
  · exact nofun
  · rintro - ⟨u, hu⟩
    cases hu
  · constructor
    · intro k hk
      exact absurd (hk ⟨0, hn⟩) (Nat.not_lt_zero k)
    · intro k u v hu
      cases hu
    · intro k u v hu
      cases hu
    · intro u hu
      cases hu

theorem outcomes_update (pc : Fin n → Thread) (t l) :
    (fun u => (update pc t l u).outcomes) = update (fun u => (pc u).outcomes) t l.outcomes := by
  funext u
  by_cases hu : u = t
  · rw [hu, update_self, update_self]
  · rw [update_of_ne hu, update_of_ne hu]

theorem outcomes_update_same (h : l.outcomes = (s.pc t).outcomes) :
    (fun u => (update s.pc t l u).outcomes) = fun u => (s.pc u).outcomes := by
  rw [outcomes_update, h]
  exact update_eq_self t _

theorem Inv.waitCount_lt (hi : Inv n s) (ht : (s.pc t).pc.inside = false) :
    s.mem.waitCount < n := by
  by_contra hg
  have hl := total_le_card (fun l : Thread => l.pc.inside) s.pc
  rw [← hi.count, Fintype.card_fin] at hl
  have ha : (s.pc t).pc.inside := of_total_eq_card (Q := fun l : Thread => l.pc.inside)
    (by rw [← hi.count, Fintype.card_fin]; omega) t
  rw [ht] at ha
  cases ha

theorem Inv.waitCount_pos (hi : Inv n s) (ht : (s.pc t).pc.inside) : 0 < s.mem.waitCount := by
  have hl : (s.pc t).pc.inside.toNat ≤ total (fun l : Thread => l.pc.inside.toNat) s.pc :=
    le_total (g := fun l : Thread => l.pc.inside.toNat) t
  rw [← hi.count] at hl
  simp only [ht, toNat_true] at hl
  exact hl

/-- A step that changes no word and enters and leaves nothing. The thread gives up no duty to
release or reset the barrier, or to wake a sleeper. -/
theorem Inv.quiet (hi : Inv n s) (hf : ¬(s.pc t).pc.filled) (hr : ¬(s.pc t).pc.resetting)
    (hdu : (¬(s.pc t).pc.releasing ∧ ¬(s.pc t).pc.rousing) ∨ ∀ u, sleeps (s.pc u) = none)
    (ho : l.outcomes = (s.pc t).outcomes) (hin : l.pc.inside = (s.pc t).pc.inside)
    (hok : Ok n s.mem l.pc) (hl : ¬l.pc.resetting) (hfl : l.pc = .fillAsleep → s.mem.state = .WAIT)
    (hd : l.pc = .drainAsleep → s.mem.state = .RELEASE) : Inv n ⟨s.mem, update s.pc t l⟩ := by
  have het : l.enters = (s.pc t).enters := by rw [Thread.enters, ho, Thread.enters]
  have hla : l.leaves = (s.pc t).leaves := by
    have h := l.enters_eq
    have h' := (s.pc t).enters_eq
    rw [hin] at h
    omega
  constructor
  · have ht : total (fun l : Thread => l.pc.inside.toNat) (update s.pc t l) +
        (s.pc t).pc.inside.toNat = total (fun l : Thread => l.pc.inside.toNat) s.pc +
        l.pc.inside.toNat :=
      total_update t l
    simp only [hin] at ht
    rw [hi.count]
    dsimp only
    omega
  · exact forall_update (Q := fun l : Thread => Ok n s.mem l.pc) hok hi.ok
  · obtain ⟨c, hc⟩ := hi.cycle
    refine ⟨c, forall_update ?_ hc⟩
    have hct := hc t
    revert hct
    cases s.mem.state with
    | WAIT =>
      intro hct
      exact hla.trans hct
    | RELEASE =>
      intro hct
      exact het.trans hct
  · exact unique_update (Q := fun l : Thread => l.pc.resetting) hi.unique hl
  · intro hs hcn
    exact exists_update (Q := fun l : Thread => l.pc.filled) (hi.full hs hcn) hf
  · intro hs hcn
    exact exists_update (Q := fun l : Thread => l.pc.resetting) (hi.empty hs hcn) hr
  · rintro hs ⟨u, hu⟩
    obtain ⟨-, hu⟩ := of_update (Q := fun l : Thread => l.pc = .fillAsleep) hu
      (fun h => by cases (hfl h).symm.trans hs)
    rcases hdu with hdu | hdu
    · exact exists_update (Q := fun l : Thread => l.pc.releasing) (hi.release hs ⟨u, hu⟩) hdu.1
    · exact absurd (hdu u) (by simp [sleeps, hu])
  · rintro hs ⟨u, hu⟩
    obtain ⟨-, hu⟩ := of_update (Q := fun l : Thread => l.pc = .drainAsleep) hu
      (fun h => by cases (hd h).symm.trans hs)
    rcases hdu with hdu | hdu
    · exact exists_update (Q := fun l : Thread => l.pc.rousing) (hi.reset hs ⟨u, hu⟩) hdu.2
    · exact absurd (hdu u) (by simp [sleeps, hu])
  · rw [outcomes_update_same ho]
    exact hi.history

theorem Inv.total_update (hi : Inv n s) (t l) :
    total (fun l => l.pc.inside.toNat) (update s.pc t l) + (s.pc t).pc.inside.toNat =
      s.mem.waitCount + l.pc.inside.toNat := by
  rw [hi.count]
  exact FutexThreads.total_update t l

theorem entered_spec (n prev) : (entered n prev).inside ∧ (entered n prev).left = false ∧
      (entered n prev).resetting = false ∧ entered n prev ≠ .drainAsleep ∧
      (entered n prev).pending = some (if prev + 1 = n then .serial else .zero) ∧
      (prev + 1 = n → (entered n prev).filled) := by
  by_cases hn : prev + 1 = n
  · subst hn
    by_cases hp : prev = 0 <;>
      simp [entered, hp, Pc.inside, Pc.left, Pc.resetting, Pc.pending, Pc.filled]
  · simp [entered, hn, Pc.inside, Pc.left, Pc.resetting, Pc.pending]

variable {woken : Finset (Fin n)} {w : Unit} {k : WakeCount} {prev : ℕ}

section
variable (hi : Inv n s)
include hi

theorem Inv.last_iff (ho : (s.pc t).pc.inside = false)
    (hp : s.mem.waitCount = prev) : prev + 1 = n ↔ ∀ u ≠ t, (s.pc u).pc.inside := by
  have ht := hi.total_update t ((s.pc t).goto .fillLoad)
  rw [ho, hp, show ((s.pc t).goto .fillLoad).pc.inside from rfl] at ht
  constructor
  · intro hn u hu
    have ha : (update s.pc t ((s.pc t).goto .fillLoad) u).pc.inside :=
      of_total_eq_card (Q := fun l : Thread => l.pc.inside)
        (by rw [Fintype.card_fin]; exact ht.trans hn) u
    rwa [update_of_ne hu] at ha
  intro ha
  have hc := total_eq_card (Q := fun l : Thread => l.pc.inside)
    (forall_update_of_ne (Q := fun l : Thread => l.pc.inside)
      (show ((s.pc t).goto .fillLoad).pc.inside from rfl) ha)
  rw [Fintype.card_fin] at hc
  exact ht.symm.trans hc

theorem Inv.enter (hpc : (s.pc t).pc = .countCas prev)
    (hpv : s.mem.waitCount = prev) : Inv n ⟨{ s.mem with waitCount := prev + 1 },
      update s.pc t ((s.pc t).goto (entered n prev))⟩ := by
  obtain ⟨hst, hlt⟩ : s.mem.state = .WAIT ∧ prev < n := by simpa [hpc, Ok] using hi.ok t
  obtain ⟨c, hc⟩ := hi.cycle
  rw [hst] at hc
  obtain ⟨hin, hlf, hr, hd, hp, hf⟩ := entered_spec n prev
  have hins : (s.pc t).pc.inside = false := by
    rw [hpc]
    rfl
  constructor
  · have ht := hi.total_update t ((s.pc t).goto (entered n prev))
    rw [hins, show ((s.pc t).goto (entered n prev)).pc.inside from hin, hpv] at ht
    exact ht.symm
  · refine forall_update_of_ne (Q := fun l : Thread => Ok n _ l.pc) ?_ ?_
    · unfold entered
      split
      · split
        · exact ⟨hst, by omega, by assumption⟩
        · exact .inr (by omega)
      · trivial
    · intro u hut
      have ho := hi.ok u
      cases hu : (s.pc u).pc with
      | releaseStore p =>
        rw [hu] at ho
        have hct : s.mem.waitCount = n := ho.2.1
        omega
      | resetStore r =>
        rw [hu] at ho
        rcases ho.2 with h | h
        · cases hst.symm.trans h
        · subst h
          exact absurd (Subsingleton.elim u t) hut
      | _ =>
        rw [hu] at ho
        exact ho
  · refine ⟨c, ?_⟩
    rw [hst]
    refine forall_update ?_ hc
    have hla : (s.pc t).leaves = c := hc t
    rw [Thread.leaves, hpc] at hla
    change (s.pc t).results.length + (entered n prev).left.toNat = c
    rw [hlf]
    exact hla
  · have hl : ¬((s.pc t).goto (entered n prev)).pc.resetting := by simp [Thread.goto, hr]
    exact unique_update (Q := fun l : Thread => l.pc.resetting) hi.unique hl
  · intro _ hn
    refine ⟨t, ?_⟩
    dsimp only
    rw [update_self]
    exact hf hn
  · intro h
    cases hst.symm.trans h
  · intro h
    cases hst.symm.trans h
  · rintro - ⟨u, hu⟩
    obtain ⟨-, hu⟩ := of_update (Q := fun l : Thread => l.pc = .drainAsleep) hu hd
    exact exists_update (Q := fun l : Thread => l.pc.rousing) (hi.reset hst ⟨u, hu⟩)
      (by simp [hpc, Pc.rousing])
  · have hnw : ((s.pc t).goto (entered n prev)).outcomes =
        (s.pc t).outcomes ++ [if prev + 1 = n then .serial else .zero] := by
      change (s.pc t).results ++ (entered n prev).pending.toList = _
      rw [hp, Thread.outcomes, hpc]
      simp [Pc.pending]
    rw [outcomes_update, hnw]
    apply hi.history.enter
    · split
      · exact .inl rfl
      · exact .inr rfl
    have hs : (if prev + 1 = n then Ret.serial else .zero) = .serial ↔ prev + 1 = n := by
      split <;> simp [*]
    rw [hs, hi.last_iff hins hpv]
    have hsf : (s.pc t).enters = c := by
      rw [Thread.enters_eq, hins, show (s.pc t).leaves = c from hc t]
      rfl
    refine forall_congr' fun u => imp_congr_right fun _ => ?_
    change _ ↔ (s.pc t).enters < (s.pc u).enters
    rw [hsf, Thread.enters_eq, show (s.pc u).leaves = c from hc u]
    cases (s.pc u).pc.inside <;> simp

theorem Inv.releaseStored (hp : (s.pc t).pc = .releaseStore prev) :
    Inv n ⟨{ s.mem with state := .RELEASE },
      update s.pc t ((s.pc t).goto (.releaseWake prev))⟩ := by
  obtain ⟨hst, hct, hpv⟩ : s.mem.state = .WAIT ∧ s.mem.waitCount = n ∧ prev + 1 = n := by
    simpa [hp, Ok] using hi.ok t
  obtain ⟨c, hc⟩ := hi.cycle
  rw [hst] at hc
  have hins : ∀ u, (s.pc u).pc.inside :=
    of_total_eq_card (Q := fun l : Thread => l.pc.inside)
      (by rw [← hi.count, hct, Fintype.card_fin])
  have het : ∀ u, (s.pc u).enters = c + 1 := by
    intro u
    rw [Thread.enters_eq, hins u, show (s.pc u).leaves = c from hc u]
    rfl
  have ho : ((s.pc t).goto (.releaseWake prev)).outcomes = (s.pc t).outcomes := by
    simp [Thread.outcomes, Thread.goto, hp, Pc.pending]
  have hs : ∀ u p, (s.pc u).pc = .releaseStore p → (s.pc u).outcomes[c]? = some .serial := by
    intro u p hu
    have ho : (s.pc u).outcomes = (s.pc u).results ++ [.serial] := by
      rw [Thread.outcomes, hu]
      rfl
    have hl := het u
    rw [Thread.enters, ho, length_append, length_singleton] at hl
    rw [ho]
    exact getElem?_concat_eq_some.mpr (.inr ⟨by omega, rfl⟩)
  constructor
  · have ht := hi.total_update t ((s.pc t).goto (.releaseWake prev))
    rw [hins t] at ht
    exact (Nat.add_right_cancel ht).symm
  · refine forall_update_of_ne (Q := fun l : Thread => Ok n _ l.pc) ?_ ?_
    · exact ⟨rfl, hpv⟩
    · intro u hut
      have hin := hins u
      cases hu : (s.pc u).pc with
      | releaseStore p =>
        exact absurd (hi.history.unique c u t (hs u p hu) (hs t _ hp)) hut
      | releaseWake p =>
        have hok := hi.ok u
        rw [hu] at hok
        cases hst.symm.trans hok.1
      | leave r => exact .inl rfl
      | fillLoad | fillWait | fillAsleep => trivial
      | _ =>
        rw [hu] at hin
        cases hin
  · refine ⟨c, forall_update ?_ het⟩
    change ((s.pc t).goto (.releaseWake prev)).outcomes.length = c + 1
    rw [ho]
    exact het t
  · exact unique_update (Q := fun l : Thread => l.pc.resetting) hi.unique nofun
  · exact nofun
  · intro _ h
    change s.mem.waitCount = 0 at h
    omega
  · rintro - -
    refine ⟨t, ?_⟩
    dsimp only
    rw [update_self]
    rfl
  · exact nofun
  · rw [outcomes_update_same ho]
    exact hi.history

theorem Inv.left (hpc : (s.pc t).pc = .leave r) :
    Inv n ⟨{ s.mem with waitCount := s.mem.waitCount - 1 }, update s.pc t
      (if s.mem.waitCount = 1 then (s.pc t).goto (.resetStore r) else (s.pc t).ret r)⟩ := by
  have hp : s.mem.state = .RELEASE ∨ n = 1 := by simpa [hpc, Ok] using hi.ok t
  have hins : (s.pc t).pc.inside := by
    rw [hpc]
    rfl
  have hps := hi.waitCount_pos hins
  have hle : s.mem.waitCount ≤ n := by
    have hle := total_le_card (fun l : Thread => l.pc.inside) s.pc
    rwa [← hi.count, Fintype.card_fin] at hle
  obtain ⟨l, hl⟩ : ∃ l, l = (if s.mem.waitCount = 1 then (s.pc t).goto (.resetStore r)
    else (s.pc t).ret r) := ⟨_, rfl⟩
  rw [← hl]
  have ho : l.outcomes = (s.pc t).outcomes := by
    rw [hl, Thread.outcomes, Thread.outcomes, hpc]
    split <;> simp [Thread.goto, Thread.ret, Pc.pending]
  have hin : l.pc.inside = false := by
    rw [hl]
    split <;> rfl
  have hd : l.pc ≠ .drainAsleep := by
    rw [hl]
    split <;> exact nofun
  have hr : l.pc.resetting ↔ s.mem.waitCount = 1 := by
    rw [hl]
    split <;> simp [Thread.goto, Thread.ret, Pc.resetting, *]
  have hla : l.leaves = (s.pc t).leaves + 1 := by
    have h := l.enters_eq
    have h' := (s.pc t).enters_eq
    rw [hin, Thread.enters, ho] at h
    rw [hins, Thread.enters, h] at h'
    exact h'
  constructor
  · have ht := hi.total_update t l
    rw [hins, hin] at ht
    change s.mem.waitCount - 1 = total _ (update s.pc t l)
    simp only [toNat_true, toNat_false] at ht
    omega
  · refine forall_update_of_ne (Q := fun l : Thread => Ok n _ l.pc) ?_ ?_
    · rw [hl]
      split
      · exact ⟨by dsimp only; omega, hp⟩
      · trivial
    · intro u hut
      have hok := hi.ok u
      cases hu : (s.pc u).pc with
      | releaseStore p =>
        rw [hu] at hok
        rcases hp with h | h
        · cases h.symm.trans hok.1
        · subst h
          exact absurd (Subsingleton.elim u t) hut
      | resetStore r =>
        rw [hu] at hok
        exact absurd hok.1 hps.ne'
      | _ =>
        rw [hu] at hok
        exact hok
  · obtain ⟨c, hc⟩ := hi.cycle
    dsimp only
    cases hs : s.mem.state with
    | WAIT =>
      obtain rfl : n = 1 := hp.resolve_left (by rw [hs]; exact nofun)
      rw [hs] at hc
      refine ⟨c + 1, fun u => ?_⟩
      rw [Subsingleton.elim u t, update_self]
      exact hla.trans (congrArg (· + 1) (hc t))
    | RELEASE =>
      rw [hs] at hc
      refine ⟨c, forall_update ?_ hc⟩
      change l.outcomes.length = c + 1
      rw [ho]
      exact hc t
  · have hoh : ∀ v, (update s.pc t l v).pc.resetting → v = t := by
      intro v hv
      by_contra hvt
      rw [update_of_ne hvt] at hv
      have hok := hi.ok v
      cases hpc' : (s.pc v).pc <;> rw [hpc'] at hv hok <;> cases hv
      exact hps.ne' hok.1
    intro u v hu hv
    rw [hoh u hu, hoh v hv]
  · intro hs hct
    change s.mem.waitCount - 1 = n at hct
    omega
  · intro hs hct
    refine ⟨t, ?_⟩
    dsimp only
    rw [update_self, hr]
    change s.mem.waitCount - 1 = 0 at hct
    omega
  · rintro hs ⟨u, hu⟩
    obtain ⟨-, hu⟩ := of_update (Q := fun l : Thread => l.pc = .fillAsleep) hu
      (fun h => by rw [h] at hin; cases hin)
    exact exists_update (Q := fun l : Thread => l.pc.releasing) (hi.release hs ⟨u, hu⟩)
      (by simp [hpc, Pc.releasing])
  · rintro hs ⟨u, hu⟩
    obtain ⟨-, hu⟩ := of_update (Q := fun l : Thread => l.pc = .drainAsleep) hu hd
    exact exists_update (Q := fun l : Thread => l.pc.rousing) (hi.reset hs ⟨u, hu⟩)
      (by simp [hpc, Pc.rousing])
  · rw [outcomes_update_same ho]
    exact hi.history

theorem Inv.resetStored (hpc : (s.pc t).pc = .resetStore r) : Inv n ⟨{ s.mem with state := .WAIT },
      update s.pc t ((s.pc t).goto (.resetWake r))⟩ := by
  obtain ⟨hct, hp⟩ : s.mem.waitCount = 0 ∧ (s.mem.state = .RELEASE ∨ n = 1) := by
    simpa [hpc, Ok] using hi.ok t
  have hins : ∀ u, (s.pc u).pc.inside = false := by
    intro u
    by_contra hu
    have hps := hi.waitCount_pos (by simpa using hu)
    omega
  have ho : ((s.pc t).goto (.resetWake r)).outcomes = (s.pc t).outcomes := by
    simp [Thread.outcomes, Thread.goto, hpc, Pc.pending]
  have hl : ((s.pc t).goto (.resetWake r)).leaves = (s.pc t).leaves := by
    rw [Thread.leaves, Thread.leaves, hpc]
    rfl
  constructor
  · have ht := hi.total_update t ((s.pc t).goto (.resetWake r))
    rw [hins t] at ht
    exact ht.symm
  · refine forall_update_of_ne (Q := fun l : Thread => Ok n _ l.pc) trivial ?_
    intro u hut
    have hin := hins u
    have hok := hi.ok u
    cases hu : (s.pc u).pc with
    | resetStore r' =>
      exact absurd (hi.unique u t (by rw [hu]; rfl) (by rw [hpc]; rfl)) hut
    | countLoad => exact rfl
    | countCas prev =>
      rw [hu] at hok
      exact ⟨rfl, hok.2⟩
    | releaseStore prev | releaseWake prev | leave r' =>
      rw [hu] at hin
      cases hin
    | _ => trivial
  · obtain ⟨c, hc⟩ := hi.cycle
    cases hs : s.mem.state with
    | WAIT =>
      rw [hs] at hc
      exact ⟨c, forall_update (hl.trans (hc t)) hc⟩
    | RELEASE =>
      rw [hs] at hc
      have ha : ∀ u, (s.pc u).leaves = c + 1 := by
        intro u
        have h := (s.pc u).enters_eq
        rw [hins u, show (s.pc u).enters = c + 1 from hc u] at h
        exact h.symm
      exact ⟨c + 1, forall_update (hl.trans (ha t)) ha⟩
  · exact unique_update (Q := fun l : Thread => l.pc.resetting) hi.unique nofun
  · intro _ h
    change s.mem.waitCount = n at h
    have := t.isLt
    omega
  · exact nofun
  · exact nofun
  · rintro - -
    refine ⟨t, ?_⟩
    dsimp only
    rw [update_self]
    rfl
  · rw [outcomes_update_same ho]
    exact hi.history

theorem Inv.goto {p p'} (hpc : (s.pc t).pc = p)
    (hp : p.filled = false ∧ p.resetting = false ∧ p.releasing = false ∧ p.rousing = false)
    (hpd : p'.pending = p.pending) (hin : p'.inside = p.inside) (ho : Ok n s.mem p')
    (hp' : p'.resetting = false) (hfl : p' = .fillAsleep → s.mem.state = .WAIT)
    (hd : p' = .drainAsleep → s.mem.state = .RELEASE) :
    Inv n ⟨s.mem, update s.pc t ((s.pc t).goto p')⟩ := by
  obtain ⟨hf, hr, hrl, hru⟩ := hp
  subst hpc
  refine hi.quiet (by simp [hf]) (by simp [hr])
    (.inl ⟨by simp [hrl], by simp [hru]⟩) ?_ hin ho (by simp [Thread.goto, hp'])
    hfl hd
  rw [Thread.outcomes, Thread.outcomes, ← hpd]
  rfl

theorem Inv.countRead {p} (hpc : (s.pc t).pc = p)
    (hp : p = .countLoad ∨ ∃ prev, p = .countCas prev) : Inv n ⟨s.mem,
      update s.pc t (PthreadBarrier.countRead n (s.pc t) s.mem.waitCount)⟩ := by
  have hs : s.mem.state = .WAIT := by
    have ho := hi.ok t
    rcases hp with rfl | ⟨prev, rfl⟩ <;> rw [hpc] at ho
    · exact ho
    · exact ho.1
  have hl : s.mem.waitCount < n := by
    apply hi.waitCount_lt
    rcases hp with rfl | ⟨prev, rfl⟩ <;> rw [hpc] <;> rfl
  rw [PthreadBarrier.countRead, if_neg (not_le.mpr hl)]
  rcases hp with rfl | ⟨prev, rfl⟩
  all_goals exact hi.goto hpc ⟨rfl, rfl, rfl, rfl⟩ rfl rfl ⟨hs, hl⟩ rfl nofun nofun

theorem inv_run (h : (m, l) ∈ step n s.mem (s.pc t)) : Inv n ⟨m, update s.pc t l⟩ := by
  cases hp : (s.pc t).pc <;> simp only [step, hp, mem_singleton, Prod.mk.injEq] at h
  case outside | drainAsleep | fillAsleep =>
    obtain ⟨rfl, rfl⟩ := h
    exact hi.goto hp ⟨rfl, rfl, rfl, rfl⟩ rfl rfl trivial rfl nofun nofun
  case drainLoad =>
    obtain ⟨rfl, rfl⟩ := h
    cases hs : s.mem.state with
    | WAIT => exact hi.goto hp ⟨rfl, rfl, rfl, rfl⟩ rfl rfl hs rfl nofun nofun
    | RELEASE => exact hi.goto hp ⟨rfl, rfl, rfl, rfl⟩ rfl rfl trivial rfl nofun nofun
  case drainWait =>
    obtain ⟨rfl, rfl⟩ := h
    cases hs : s.mem.state with
    | WAIT => exact hi.goto hp ⟨rfl, rfl, rfl, rfl⟩ rfl rfl trivial rfl nofun nofun
    | RELEASE => exact hi.goto hp ⟨rfl, rfl, rfl, rfl⟩ rfl rfl trivial rfl nofun fun _ => hs
  case countLoad =>
    obtain ⟨rfl, rfl⟩ := h
    exact hi.countRead hp (.inl rfl)
  case countCas prev =>
    rw [mem_weakCas, Prod.mk.injEq, Prod.mk.injEq] at h
    rcases h with ⟨hpv, rfl, rfl⟩ | ⟨rfl, rfl⟩
    · exact hi.enter hp hpv
    · exact hi.countRead hp (.inr ⟨prev, rfl⟩)
  case releaseStore prev =>
    obtain ⟨rfl, rfl⟩ := h
    exact hi.releaseStored hp
  case releaseWake | resetWake => cases h
  case fillLoad =>
    obtain ⟨rfl, rfl⟩ := h
    cases hs : s.mem.state with
    | WAIT => exact hi.goto hp ⟨rfl, rfl, rfl, rfl⟩ rfl rfl trivial rfl nofun nofun
    | RELEASE => exact hi.goto hp ⟨rfl, rfl, rfl, rfl⟩ rfl rfl (.inl hs) rfl nofun nofun
  case fillWait =>
    obtain ⟨rfl, rfl⟩ := h
    cases hs : s.mem.state with
    | WAIT => exact hi.goto hp ⟨rfl, rfl, rfl, rfl⟩ rfl rfl trivial rfl (fun _ => hs) nofun
    | RELEASE => exact hi.goto hp ⟨rfl, rfl, rfl, rfl⟩ rfl rfl trivial rfl nofun nofun
  case leave r =>
    obtain ⟨rfl, rfl⟩ := h
    exact hi.left hp
  case resetStore r =>
    obtain ⟨rfl, rfl⟩ := h
    exact hi.resetStored hp

end

theorem sleeps_eq_some (h : sleeps l = some ()) : l.pc = .drainAsleep ∨ l.pc = .fillAsleep := by
  unfold sleeps at h
  split at h
  · assumption
  · cases h

theorem awaken_spec (h : sleeps l = some ()) :
    (awaken l).outcomes = l.outcomes ∧ (awaken l).leaves = l.leaves ∧
      (awaken l).pc.inside = l.pc.inside ∧ sleeps (awaken l) = none ∧
      (∀ m, Ok n m (awaken l).pc = Ok n m l.pc) ∧ (awaken l).pc.filled = l.pc.filled ∧
      (awaken l).pc.resetting = l.pc.resetting := by
  obtain ⟨pc, results⟩ := l
  rcases sleeps_eq_some h with hp | hp <;> dsimp only at hp <;> subst hp <;>
    exact ⟨rfl, rfl, rfl, rfl, fun _ => rfl, rfl, rfl⟩

theorem Inv.awakened (hi : Inv n s) (hw : woken = (program n).sleepers s.pc ()) :
    Inv n ⟨s.mem, (program n).awakened s.pc woken⟩ ∧
      ∀ u, sleeps ((program n).awakened s.pc woken u) = none := by
  have ha : Wakes .all ((program n).sleepers s.pc ()) woken := hw
  have hsp : ∀ u, sleeps ((program n).awakened s.pc woken u) = none := by
    intro u
    have hn := sleeps_awakened_all hw (fun l hl => (awaken_spec (n := n) hl).2.2.2.1) u
    cases hs : sleeps ((program n).awakened s.pc woken u) with
    | none => rfl
    | some w => exact absurd hs hn
  have hr := awakened_eq (f := fun l => l.pc.resetting) ha
    fun l hl => (awaken_spec (n := n) hl).2.2.2.2.2.2
  refine ⟨⟨?_, ?_, ?_, ?_, ?_, ?_, ?_, ?_, ?_⟩, hsp⟩
  · rw [hi.count]
    have hin := awakened_eq (f := fun l => l.pc.inside.toNat) ha
      fun l hl => congrArg toNat (awaken_spec (n := n) hl).2.2.1
    exact (total_congr hin).symm
  · intro u
    exact (awakened_eq (f := fun l => Ok n s.mem l.pc) ha
      (fun l hl => (awaken_spec hl).2.2.2.2.1 s.mem) u).mpr (hi.ok u)
  · obtain ⟨c, hc⟩ := hi.cycle
    refine ⟨c, fun u => ?_⟩
    refine (awakened_eq ha (fun l hl => ?_) u).mpr (hc u)
    obtain ⟨ho, hla, -⟩ := awaken_spec (n := n) hl
    change InCycle c s.mem.state (awaken l) = _
    cases s.mem.state with
    | WAIT => rw [InCycle, InCycle, hla]
    | RELEASE => rw [InCycle, InCycle, Thread.enters, Thread.enters, ho]
  · intro u v hu hv
    exact hi.unique u v ((hr u).symm.trans hu) ((hr v).symm.trans hv)
  · intro hst hct
    obtain ⟨u, hu⟩ := hi.full hst hct
    refine ⟨u, (awakened_eq (f := fun l => l.pc.filled) ha
      (fun l hl => (awaken_spec (n := n) hl).2.2.2.2.2.1) u).trans hu⟩
  · intro hst hct
    obtain ⟨u, hu⟩ := hi.empty hst hct
    exact ⟨u, (hr u).trans hu⟩
  · rintro - ⟨u, hu⟩
    cases (hsp u).symm.trans (if_pos (.inr hu))
  · rintro - ⟨u, hu⟩
    cases (hsp u).symm.trans (if_pos (.inl hu))
  · have ho := funext (awakened_eq ha fun l hl => (awaken_spec (n := n) hl).1)
    rw [ho]
    exact hi.history

theorem wakes_cases {l'} (h : wakes n l = some (w, k, l')) :
    (∃ prev, l.pc = .releaseWake prev ∧ k = .upTo prev ∧ l' = l.goto (.leave .serial)) ∨
      ∃ r, l.pc = .resetWake r ∧ k = .upTo n ∧ l' = l.ret r := by
  cases hp : l.pc with
  | releaseWake prev =>
    obtain ⟨rfl, rfl⟩ : WakeCount.upTo prev = k ∧ l.goto (.leave .serial) = l' := by
      simpa [wakes, hp] using h
    exact .inl ⟨prev, rfl, rfl, rfl⟩
  | resetWake r =>
    obtain ⟨rfl, rfl⟩ : WakeCount.upTo n = k ∧ l.ret r = l' := by simpa [wakes, hp] using h
    exact .inr ⟨r, rfl, rfl, rfl⟩
  | _ => simp [wakes, hp] at h

theorem inv_wake (hi : Inv n s) (call : (program n).wakes (s.pc t) = some (w, k, l))
    (hw : Wakes k ((program n).sleepers s.pc w) woken) :
    Inv n ⟨s.mem, update ((program n).awakened s.pc woken) t l⟩ := by
  have ha : (program n).sleeps (s.pc t) = none := by
    rcases wakes_cases call with ⟨_, hp, -⟩ | ⟨_, hp, -⟩ <;> simp [program, sleeps, hp]
  have hs := awakened_of_none hw ha
  have hc := card_sleepers_lt ha w
  rw [Fintype.card_fin] at hc
  rcases wakes_cases call with ⟨prev, hp, rfl, rfl⟩ | ⟨r, hp, rfl, rfl⟩
  · have ho := hi.ok t
    rw [hp] at ho
    obtain ⟨hst, hpv⟩ := ho
    obtain ⟨hi', hn⟩ := hi.awakened (hw.eq_of_card_le (by omega))
    refine hi'.quiet ?_ ?_ (.inr hn) ?_ ?_ (.inl hst) nofun nofun nofun <;> dsimp only <;> rw [hs]
    · rw [hp]
      exact nofun
    · rw [hp]
      exact nofun
    · rw [Thread.outcomes, Thread.outcomes, hp]
      rfl
    · rw [hp]
      rfl
  · obtain ⟨hi', hn⟩ := hi.awakened (hw.eq_of_card_le hc.le)
    refine hi'.quiet ?_ ?_ (.inr hn) ?_ ?_ trivial nofun nofun nofun <;> dsimp only <;> rw [hs]
    · rw [hp]
      exact nofun
    · rw [hp]
      exact nofun
    · rw [Thread.outcomes, Thread.outcomes, hp]
      simp [Thread.ret, Pc.pending]
    · rw [hp]
      rfl

theorem reaches_inv (hn : 1 ≤ n) (h : (program n).Reaches (initial n) s) : Inv n s := by
  refine h.invariant (initial_inv hn) ?_
  intro t s s' hi hs
  cases hs with
  | run next => exact inv_run hi next
  | wake call wakes => exact inv_wake hi call wakes

theorem Inv.returns_le_enters (hi : Inv n s) (u v) : (s.pc u).results.length ≤ (s.pc v).enters := by
  obtain ⟨c, hc⟩ := hi.cycle
  have hu := (s.pc u).length_results_le
  have hu' := (s.pc u).leaves_le
  have hv := (s.pc v).leaves_le
  cases hs : s.mem.state with
  | WAIT =>
    rw [hs] at hc
    have h1 : (s.pc u).leaves = c := hc u
    have h2 : (s.pc v).leaves = c := hc v
    omega
  | RELEASE =>
    rw [hs] at hc
    have h1 : (s.pc u).enters = c + 1 := hc u
    have h2 : (s.pc v).enters = c + 1 := hc v
    omega

theorem Inv.not_all_asleep (hi : Inv n s) : ¬∀ u, sleeps (s.pc u) = some () := by
  intro ha
  have hp : ∀ u, (s.pc u).pc = .drainAsleep ∨ (s.pc u).pc = .fillAsleep :=
    fun u => sleeps_eq_some (ha u)
  have hn : ∀ {Q : Pc → Bool}, Q .drainAsleep = false → Q .fillAsleep = false →
      ¬∃ u, Q (s.pc u).pc := by
    rintro Q hd hf ⟨u, hu⟩
    rcases hp u with h | h <;> rw [h] at hu
    · cases hd.symm.trans hu
    · cases hf.symm.trans hu
  cases hs : s.mem.state with
  | WAIT =>
    have hfl : ∀ u, (s.pc u).pc.inside := by
      intro u
      rcases hp u with h | h
      · exact absurd (hi.reset hs ⟨u, h⟩) (hn rfl rfl)
      · rw [h]
        rfl
    have hc : s.mem.waitCount = n := by
      rw [hi.count, total_eq_card (Q := fun l : Thread => l.pc.inside) hfl, Fintype.card_fin]
    exact hn rfl rfl (hi.full hs hc)
  | RELEASE =>
    have hda : ∀ u, (s.pc u).pc.inside.toNat = 0 := by
      intro u
      rcases hp u with h | h
      · rw [h]
        rfl
      · exact absurd (hi.release hs ⟨u, h⟩) (hn rfl rfl)
    have hc : s.mem.waitCount = 0 := by
      rw [hi.count]
      exact total_eq_zero hda
    exact hn rfl rfl (hi.empty hs hc)

theorem Thread.getElem?_results {k : ℕ} (h : l.results[k]? = some r) : l.outcomes[k]? = some r := by
  rw [Thread.outcomes, List.getElem?_append_left (List.getElem?_eq_some_iff.mp h).1, h]

/-- Along every run: nobody returns from a wait before all `n` have entered it, each cycle has one
serial thread, `EINVAL` is never returned, and somebody is awake. -/
theorem wait_cycles (hn : 1 ≤ n) (h : (program n).Reaches (initial n) s) :
    (∀ u v k, k < (s.pc u).results.length → k < (s.pc v).enters) ∧
      (∀ k : ℕ, (∀ u, k < (s.pc u).results.length) → ∃! u, (s.pc u).results[k]? = some .serial) ∧
      (∀ (k : ℕ) (u v : Fin n), (s.pc u).results[k]? = some .serial →
        (s.pc v).results[k]? = some .serial → u = v) ∧
      (∀ u, .EINVAL ∉ (s.pc u).results) ∧ ¬∀ u, sleeps (s.pc u) = some () := by
  have hi := reaches_inv hn h
  have hui : ∀ (k : ℕ) (u v : Fin n), (s.pc u).results[k]? = some .serial →
      (s.pc v).results[k]? = some .serial → u = v := fun k u v hu hv =>
    hi.history.unique k u v (Thread.getElem?_results hu) (Thread.getElem?_results hv)
  refine ⟨?_, ?_, hui, ?_, hi.not_all_asleep⟩
  · intro u v k hk
    exact hk.trans_le (hi.returns_le_enters u v)
  · intro k hk
    obtain ⟨u, hu⟩ := hi.history.serial k fun u =>
      (hk u).trans_le ((s.pc u).length_results_le.trans (s.pc u).leaves_le)
    have hr : (s.pc u).results[k]? = some .serial := by
      rwa [Thread.outcomes, List.getElem?_append_left (hk u)] at hu
    exact ⟨u, hr, fun v hv => hui k v u hv hr⟩
  · intro u hu
    exact hi.history.valid u (mem_append_left _ hu)

end

def meetOnce : List (Program.Move (Fin 2)) :=
  List.replicate 6 (.run 0 0) ++ List.replicate 5 (.run 1 0) ++ [.wake 1 {0}] ++
    List.replicate 2 (.run 0 0) ++ List.replicate 2 (.run 1 0) ++ [.wake 1 ∅]

theorem wait_cycles_two_threads : ∃ s, (program 2).Reaches (initial 2) s ∧
      ((s.pc 0).results = [.zero] ∧ (s.pc 1).results = [.serial]) ∧
      (∃! u, (s.pc u).results[0]? = some .serial) ∧ ¬∀ u, sleeps (s.pc u) = some () := by
  have hrn : ∃ s, (program 2).Reaches (initial 2) s ∧
      (s.pc 0).results = [.zero] ∧ (s.pc 1).results = [.serial] :=
    exists_reaches meetOnce (by decide +kernel)
  obtain ⟨s, hr, h0, h1⟩ := hrn
  obtain ⟨-, hs, -, -, ha⟩ := wait_cycles (by decide) hr
  have hrt : ∀ u, 0 < (s.pc u).results.length := by
    rw [Fin.forall_fin_two, h0, h1]
    decide
  exact ⟨s, hr, ⟨h0, h1⟩, hs 0 hrt, ha⟩

end PthreadBarrier
