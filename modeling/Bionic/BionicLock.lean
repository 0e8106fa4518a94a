import Mathlib

/-! The class `Lock` that other primitives of the library protect their own data with: a word with
three states and a futex. `lock` tries a compare-and-exchange once, and then marks the lock as
waited for at every further try. -/
namespace BionicLock

inductive LockState where
  | unlocked | lockedWithoutWaiter | lockedWithWaiter
  deriving DecidableEq

/-- In `lock`: at the compare-and-exchange, at the exchange of the loop, at the futex wait, or
asleep in it. -/
inductive Pc where
  | cas | exchange | wait | asleep
  deriving DecidableEq

/-- The word, and the next place unless the lock has been taken. -/
def lock (state : LockState) : Pc → List (LockState × Option Pc)
  | .cas =>
    if state = .unlocked then [(.lockedWithoutWaiter, none)] else [(state, some .exchange)]
  | .exchange => [(.lockedWithWaiter, if state = .unlocked then none else some .wait)]
  | .wait =>
    (if state = .lockedWithWaiter then [(state, some .asleep)] else []) ++ [(state, some .exchange)]
  | .asleep => [(state, some .exchange)]

/-- Whether `unlock` has to wake somebody after its exchange. -/
def unlockWakes (state : LockState) : Bool := state = .lockedWithWaiter

def Pc.rouses : Pc → Bool
  | .exchange => true
  | _ => false

variable {state state' : LockState} {a : Pc} {next : Option Pc}

theorem lock_cases (h : (state', next) ∈ lock state a) :
    (next = none ∧ state = .unlocked ∧ state' ≠ .unlocked) ∨
      (∃ b, next = some b ∧ (state' = .unlocked ↔ state = .unlocked)) := by
  cases a <;> grind [lock]

theorem lock_asleep (h : (state', some .asleep) ∈ lock state a) : state' = .lockedWithWaiter := by
  cases a <;> grind [lock]

theorem lock_rouse (h : (state', next) ∈ lock state a) (hr : state = .lockedWithWaiter ∨ a.rouses) :
    state' = .lockedWithWaiter ∨ ∃ b, next = some b ∧ b.rouses := by
  cases a <;> grind [lock, Pc.rouses]

end BionicLock
