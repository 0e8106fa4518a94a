import Bionic.OneTimeProtocol

/-! `pthread_once` and the guards of static local variables, `__cxa_guard_acquire`, `_release` and
`_abort`, by any number of threads: each access to the control word is a step, and so is each way
out of a futex wait. A counter of completed initialisations is kept beside the word; no step
reads it. -/
namespace OneTimeInit

open FutexThreads OneTimeProtocol

inductive Once where
  | notYetStarted
  | underway
  | complete
  deriving DecidableEq

inductive Guard where
  | notYetStarted
  | complete
  | underwayWithoutWaiter
  | underwayWithWaiter
  deriving DecidableEq

structure Mem (C : Type) where
  control : C
  runs : ℕ

inductive Pc (C : Type) where
  | outside (told : Bool)
  | load
  | loop (oldValue : C)
  | futexWait
  | asleep
  | initialising
  | wake (told : Bool)
  deriving DecidableEq

variable {C : Type} [DecidableEq C]

/-- The wait goes to sleep if the word has the value it was given, and it may always return. -/
def futexWait (m : Mem C) (value : C) : List (Mem C × Pc C) :=
  (if m.control = value then [(m, .asleep)] else []) ++ [(m, .load)]

/-- Behind the tests the old value is `UNDERWAY`, with which the wait compares. -/
def pthreadOnce (m : Mem Once) : Pc Once → List (Mem Once × Pc Once)
  | .outside _ => [(m, .load)]
  | .load => [(m, .loop m.control)]
  | .loop .complete => [(m, .outside true)]
  | .loop .notYetStarted =>
    weakCas (m.control = .notYetStarted) ({ m with control := .underway }, .initialising)
      (m, .loop m.control)
  | .loop .underway =>
    weakCas (m.control = .underway) ({ m with control := .underway }, .futexWait)
      (m, .loop m.control)
  | .futexWait => futexWait m .underway
  | .asleep => [(m, .load)]
  | .initialising => [(⟨.complete, m.runs + 1⟩, .wake true)]
  | .wake _ => []

/-- `__cxa_guard_release` and `__cxa_guard_abort`: the exchange, and whether a wake follows. -/
def cxaGuardEnd (m : Mem Guard) (control : Guard) (runs : ℕ) (told : Bool) : Mem Guard × Pc Guard :=
  (⟨control, runs⟩, if m.control = .underwayWithWaiter then .wake told else .outside told)

def cxaGuard (m : Mem Guard) : Pc Guard → List (Mem Guard × Pc Guard)
  | .outside _ => [(m, .load)]
  | .load => [(m, .loop m.control)]
  | .loop .complete => [(m, .outside true)]
  | .loop .notYetStarted =>
    weakCas (m.control = .notYetStarted)
      ({ m with control := .underwayWithoutWaiter }, .initialising) (m, .loop m.control)
  | .loop .underwayWithoutWaiter =>
    weakCas (m.control = .underwayWithoutWaiter)
      ({ m with control := .underwayWithWaiter }, .futexWait) (m, .loop m.control)
  | .loop .underwayWithWaiter => [(m, .futexWait)]
  | .futexWait => futexWait m .underwayWithWaiter
  | .asleep => [(m, .load)]
  | .initialising =>
    [cxaGuardEnd m .complete (m.runs + 1) true, cxaGuardEnd m .notYetStarted m.runs false]
  | .wake _ => []

def program (Tid : Type) (step : Mem C → Pc C → List (Mem C × Pc C)) :
    Program Tid Unit (Mem C) (Pc C) where
  step _ := step
  sleeps l := if l = .asleep then some () else none
  awaken _ := .load
  wakes
    | .wake told => some ((), .all, .outside told)
    | _ => none

def initial {Tid : Type} (control : C) : State Tid (Mem C) (Pc C) :=
  ⟨⟨control, 0⟩, fun _ => .outside false⟩

/-- The counter says whether the initialisation was completed, and whoever was told so was told the
truth. -/
def Fits (complete : C) (m : Mem C) (l : Pc C) : Prop :=
  m.runs = (decide (m.control = complete)).toNat ∧
    (l = .outside true ∨ l = .wake true ∨ l = .loop complete → m.control = complete)

variable {Tid : Type}

def onceProtocol : Protocol (program Tid pthreadOnce) where
  underway m := m.control = .underway
  waited m := m.control = .underway
  inside l := l = .initialising
  waking l := l = .wake true
  fits := Fits .complete
  waited_underway := id
  step {t m l m' l'} hi hf h := by
    obtain ⟨c, n⟩ := m
    rcases l with _ | _ | (_ | _ | _) | _ | _ | _ | _ <;> cases c <;>
      simp_all [program, pthreadOnce, weakCas, futexWait, Fits]
    all_goals
      obtain ⟨rfl, rfl⟩ | ⟨rfl, rfl⟩ := h <;> simp_all
  wake {l w n l'} h := by
    cases l <;> cases h
    simp [program, Fits]
  awaken l h := by cases l <;> simp_all [program, Fits]

def guardProtocol : Protocol (program Tid cxaGuard) where
  underway m := m.control = .underwayWithoutWaiter ∨ m.control = .underwayWithWaiter
  waited m := m.control = .underwayWithWaiter
  inside l := l = .initialising
  waking l := l = .wake true ∨ l = .wake false
  fits := Fits .complete
  waited_underway h := by simp_all
  step {t m l m' l'} hi hf h := by
    obtain ⟨c, n⟩ := m
    rcases l with _ | _ | (_ | _ | _ | _) | _ | _ | _ | _ <;> cases c <;>
      simp_all [program, cxaGuard, cxaGuardEnd, weakCas, futexWait, Fits]
    all_goals
      obtain ⟨rfl, rfl⟩ | ⟨rfl, rfl⟩ := h <;> simp_all
  wake {l w n l'} h := by
    cases l <;> cases h
    simp [program, Fits]
  awaken l h := by cases l <;> simp_all [program, Fits]

variable [Fintype Tid] [DecidableEq Tid]

/-- In every run one thread at a time is in the initialisation, which is completed at most once and
before any call returns, and no sleeper is forgotten. -/
theorem pthreadOnce_sound {s} (h : (program Tid pthreadOnce).Reaches (initial .notYetStarted) s) :
    Sound onceProtocol s := by
  refine sound_of_reaches ⟨total_eq_zero ?_, ?_, ?_⟩ h <;>
    simp [initial, program, Protocol.weight, onceProtocol, Fits]

/-- The same with initialisations that are given up. -/
theorem cxaGuard_sound {s} (h : (program Tid cxaGuard).Reaches (initial .notYetStarted) s) :
    Sound guardProtocol s := by
  refine sound_of_reaches ⟨total_eq_zero ?_, ?_, ?_⟩ h <;>
    simp [initial, program, Protocol.weight, guardProtocol, Fits]

/-- Two threads, of which the second sleeps while the first initialises. -/
def initialiseAndSleep : List (Program.Move Bool) :=
  List.replicate 3 (.run false 0) ++ List.replicate 4 (.run true 0)

theorem pthreadOnce_sound_asleep :
    ∃ s, (program Bool pthreadOnce).Reaches (initial .notYetStarted) s ∧ s.pc true = .asleep ∧
      Sound onceProtocol s := by
  have hr : ∃ s, (program Bool pthreadOnce).Reaches (initial .notYetStarted) s ∧
      s.pc true = .asleep := Program.exists_reaches initialiseAndSleep (by decide +kernel)
  obtain ⟨s, hr, hp⟩ := hr
  exact ⟨s, hr, hp, pthreadOnce_sound hr⟩

theorem cxaGuard_sound_asleep :
    ∃ s, (program Bool cxaGuard).Reaches (initial .notYetStarted) s ∧ s.pc true = .asleep ∧
      Sound guardProtocol s := by
  have hr : ∃ s, (program Bool cxaGuard).Reaches (initial .notYetStarted) s ∧
      s.pc true = .asleep := Program.exists_reaches initialiseAndSleep (by decide +kernel)
  obtain ⟨s, hr, hp⟩ := hr
  exact ⟨s, hr, hp, cxaGuard_sound hr⟩

end OneTimeInit
