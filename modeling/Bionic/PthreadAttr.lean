import Mathlib

/-! The attribute objects of mutexes, read-write locks and condition variables: one word each, with
a bit field for each attribute. An attribute is one of the constants 0, 1 and, for
`PTHREAD_MUTEX_ERRORCHECK`, 2 of `pthread.h` and `time.h`; the `init` functions set all to 0. -/
namespace PthreadAttr

open BitVec (ofInt)
open Function

inductive Object where
  | mutex
  | rwlock
  | cond
  deriving DecidableEq

inductive Field where
  | mutexType
  | mutexPshared
  | mutexProtocol
  | rwlockPshared
  | rwlockKind
  | condPshared
  | condClock
  deriving DecidableEq

def Field.object : Field → Object
  | mutexType | mutexPshared | mutexProtocol => .mutex
  | rwlockPshared | rwlockKind => .rwlock
  | condPshared | condClock => .cond

/-- `pthread_*attr_set*`; `none` is `EINVAL`. -/
def set (attr : BitVec 64) (v : ℤ) : Field → Option (BitVec 64)
  | .mutexType => if v < 0 ∨ 2 < v then none else some ((attr &&& ~~~0x000f#64) ||| ofInt 64 v)
  | .mutexPshared =>
    if v = 0 then some (attr &&& ~~~0x0010#64)
    else if v = 1 then some (attr ||| 0x0010#64)
    else none
  | .mutexProtocol =>
    if v ≠ 0 ∧ v ≠ 1 then none else some ((attr &&& ~~~0x0020#64) ||| ofInt 64 v <<< 5)
  | .rwlockPshared =>
    if v = 0 then some ((attr &&& ~~~1#64) ||| 0#64 <<< 0)
    else if v = 1 then some ((attr &&& ~~~1#64) ||| 1#64 <<< 0)
    else none
  | .rwlockKind => if v = 0 ∨ v = 1 then some ((attr &&& ~~~2#64) ||| ofInt 64 v <<< 1) else none
  | .condPshared => if v ≠ 1 ∧ v ≠ 0 then none else some (attr ||| ofInt 64 v)
  | .condClock => if v ≠ 1 ∧ v ≠ 0 then none else some (attr ||| ofInt 64 v <<< 1)

/-- `pthread_*attr_get*`. -/
def get (attr : BitVec 64) : Field → Option ℤ
  | .mutexType =>
    let type : ℤ := (attr &&& 0x000f#64).toNat
    if type < 0 ∨ 2 < type then none else some type
  | .mutexPshared => some (if attr &&& 0x0010#64 ≠ 0#64 then 1 else 0)
  | .mutexProtocol => some ((attr &&& 0x0020#64) >>> 5).toNat
  | .rwlockPshared => some (if (attr &&& 1#64) >>> 0 ≠ 0#64 then 1 else 0)
  | .rwlockKind | .condClock => some ((attr &&& 2#64) >>> 1).toNat
  | .condPshared => some (if attr &&& 1#64 ≠ 0#64 then 1 else 0)

/-- In each state of a run each getter returns what its variable holds. -/
def Independent (vars : Field → ℤ) (s : Object → BitVec 64) (calls : List (Field × ℤ)) : Prop :=
  (∀ g, get (s g.object) g = some (vars g)) ∧
    match calls with
    | [] => True
    | (f, v) :: calls => ∀ attr, set (s f.object) v f = some attr →
      Independent (update vars f v) (update s f.object attr) calls

/-- No call sets a field of a condition variable back to 0. -/
def NeverSetBack (s : Object → BitVec 64) : List (Field × ℤ) → Prop
  | [] => True
  | (f, v) :: calls => (f.object = .cond → v = 0 → get (s f.object) f = some 0) ∧
    ∀ attr, set (s f.object) v f = some attr → NeverSetBack (update s f.object attr) calls

variable {attr attr' : BitVec 64} {v : ℤ} {f g : Field}

theorem and_or_self (x m : BitVec 64) : (x &&& m) ||| m = m := by
  ext i
  simp

theorem set_cond_zero (hf : f.object = .cond) : set attr 0 f = some attr := by
  cases f <;> cases hf <;> simp [set]

theorem get_set (h : set attr v f = some attr')
    (hb : f.object = .cond → v = 0 → get attr f = some 0) (hg : g.object = f.object) :
    get attr' g = if g = f then some v else get attr g := by
  by_cases hz : f.object = .cond ∧ v = 0
  · obtain ⟨hf, rfl⟩ := hz
    cases (set_cond_zero hf).symm.trans h
    split_ifs with hgf
    · rw [hgf, hb hf rfl]
    · rfl
  have hv : v = 0 ∨ v = 1 ∨ v = 2 ∧ f = .mutexType := by
    cases f <;> simp only [set] at h <;> grind
  rcases hv with rfl | rfl | ⟨rfl, rfl⟩
  case' inl | inr.inl => cases f
  all_goals
    cases h
    cases g <;> cases hg <;> dsimp only [get] <;>
      simp_all [BitVec.and_or_distrib_right, BitVec.and_assoc, and_or_self, Field.object]

theorem independent_iff {vars s calls} (h : ∀ g, get (s g.object) g = some (vars g)) :
    Independent vars s calls ↔ NeverSetBack s calls := by
  induction calls generalizing vars s with
  | nil => exact ⟨fun _ => trivial, fun _ => ⟨h, trivial⟩⟩
  | cons call calls ih =>
    obtain ⟨f, v⟩ := call
    have hn (hb : f.object = .cond → v = 0 → get (s f.object) f = some 0)
        (attr : BitVec 64) (hs : set (s f.object) v f = some attr) (g : Field) :
        get (update s f.object attr g.object) g = some (update vars f v g) := by
      rw [update_apply, update_apply]
      split_ifs with hg hgf hgf
      · rw [get_set hs hb hg, if_pos hgf]
      · rw [get_set hs hb hg, if_neg hgf, ← hg, h]
      · exact absurd (congrArg _ hgf) hg
      · exact h g
    constructor
    · rintro ⟨-, hr⟩
      have hb : f.object = .cond → v = 0 → get (s f.object) f = some 0 := by
        rintro hf rfl
        have hrd := hr _ (set_cond_zero hf)
        rw [Independent.eq_def] at hrd
        simpa using hrd.1 f
      exact ⟨hb, fun attr hs => (ih (hn hb attr hs)).mp (hr attr hs)⟩
    · rintro ⟨hb, hr⟩
      exact ⟨h, fun attr hs => (ih (hn hb attr hs)).mpr (hr attr hs)⟩

theorem attrs_independent (calls : List (Field × ℤ)) :
    Independent (fun _ => 0) (fun _ => 0#64) calls ↔ NeverSetBack (fun _ => 0#64) calls :=
  independent_iff fun g => by cases g <;> rfl

theorem condattr_stays_shared :
    ¬Independent (fun _ => 0) (fun _ => 0#64) [(.condPshared, 1), (.condPshared, 0)] := by
  rintro ⟨-, h⟩
  exact absurd (((h _ rfl).2 _ rfl).1 .condPshared) (by decide)

end PthreadAttr
