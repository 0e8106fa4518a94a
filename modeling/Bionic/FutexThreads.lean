import Mathlib

/-! Threads over a shared memory with futexes. A program says which atomic steps a thread may take
from a place of its code, where it sleeps and on which word, where a woken sleeper goes on, and
which places are wake calls. A wake moves the caller and the sleepers in one step. -/
namespace FutexThreads

open Function Option
open Finset

inductive WakeCount where
  | upTo (n : ℕ)
  | all
  deriving DecidableEq

/-- As many sleepers as were asked for, or all of them. -/
def Wakes {Tid : Type} : WakeCount → Finset Tid → Finset Tid → Prop
  | .upTo n, asleep, woken => woken ⊆ asleep ∧ woken.card = min n asleep.card
  | .all, asleep, woken => woken = asleep

instance {Tid : Type} [DecidableEq Tid] (n : WakeCount) (asleep woken : Finset Tid) :
    Decidable (Wakes n asleep woken) :=
  match n with
  | .upTo n => inferInstanceAs (Decidable (woken ⊆ asleep ∧ woken.card = min n asleep.card))
  | .all => inferInstanceAs (Decidable (woken = asleep))

section
variable {Tid : Type} {asleep woken : Finset Tid}

theorem Wakes.subset {n} (h : Wakes n asleep woken) : woken ⊆ asleep := by
  cases n with
  | upTo n => exact h.1
  | all => exact h.le

theorem Wakes.eq_of_card_le {n} (h : Wakes (.upTo n) asleep woken) (hn : asleep.card ≤ n) :
    woken = asleep := by
  apply eq_of_subset_of_card_le h.1
  rw [h.2, min_eq_right hn]

theorem Wakes.nonempty {n} (h : Wakes (.upTo n) asleep woken) (hn : 0 < n)
    (hs : asleep.Nonempty) : woken.Nonempty := by
  rw [← card_pos, h.2]
  exact lt_min hn (card_pos.mpr hs)

end

/-- The ways on from a weak compare-and-exchange: if the comparison holds it may succeed, and it may
always fail. -/
def weakCas {α : Type} (equal : Prop) [Decidable equal] (exchanged failed : α) : List α :=
  (if equal then [exchanged] else []) ++ [failed]

theorem mem_weakCas {α : Type} {equal : Prop} [Decidable equal] {exchanged failed a : α} :
    a ∈ weakCas equal exchanged failed ↔ equal ∧ a = exchanged ∨ a = failed := by
  by_cases h : equal <;> simp [weakCas, h]

section
variable {α β : Type} {a a' : α} {b b' : β}

theorem mem_pair (h : (a', b') ∈ [(a, b)]) : a' = a ∧ b' = b :=
  Prod.mk.inj (List.mem_singleton.mp h)

theorem mem_map_pair {ls : List β} (h : (a', b') ∈ ls.map (a, ·)) : a' = a ∧ b' ∈ ls := by
  obtain ⟨b1, hb, h⟩ := List.mem_map.mp h
  cases h
  exact ⟨rfl, hb⟩

variable {Tid Pc : Type} [DecidableEq Tid] {Q : Pc → Prop} {pc : Tid → Pc} {t u : Tid} {l : Pc}

theorem forall_update_of_ne (hl : Q l) (h : ∀ u ≠ t, Q (pc u)) (u : Tid) : Q (update pc t l u) := by
  by_cases hu : u = t
  · rwa [hu, update_self]
  · rw [update_of_ne hu]
    exact h u hu

theorem forall_update (hl : Q l) (h : ∀ u, Q (pc u)) (u : Tid) : Q (update pc t l u) :=
  forall_update_of_ne hl (fun u _ => h u) u

theorem exists_update (h : ∃ u, Q (pc u)) (ht : ¬Q (pc t)) : ∃ u, Q (update pc t l u) := by
  obtain ⟨u, hu⟩ := h
  have hut : u ≠ t := by
    rintro rfl
    exact ht hu
  exact ⟨u, by rwa [update_of_ne hut]⟩

theorem of_update (h : Q (update pc t l u)) (hl : ¬Q l) : u ≠ t ∧ Q (pc u) := by
  have hu : u ≠ t := by
    rintro rfl
    rw [update_self] at h
    exact hl h
  rw [update_of_ne hu] at h
  exact ⟨hu, h⟩

theorem unique_update (h : ∀ u v, Q (pc u) → Q (pc v) → u = v) (hl : ¬Q l) (u v : Tid)
    (hu : Q (update pc t l u)) (hv : Q (update pc t l v)) : u = v :=
  h u v (of_update hu hl).2 (of_update hv hl).2

end

def total {Tid Pc : Type} [Fintype Tid] (g : Pc → ℕ) (pc : Tid → Pc) : ℕ := ∑ u, g (pc u)

section
variable {Tid Pc : Type} [Fintype Tid] {g : Pc → ℕ} {pc : Tid → Pc}

theorem total_congr {pc'} (h : ∀ u, g (pc' u) = g (pc u)) : total g pc' = total g pc :=
  sum_congr rfl fun u _ => h u

theorem le_total (u : Tid) : g (pc u) ≤ total g pc :=
  single_le_sum (f := fun u => g (pc u)) (fun _ _ => Nat.zero_le _) (mem_univ u)

theorem add_le_total {u v} (h : u ≠ v) : g (pc u) + g (pc v) ≤ total g pc := by
  classical
  have hp : ∑ x ∈ {u, v}, g (pc x) = g (pc u) + g (pc v) := sum_pair h
  rw [← hp]
  exact sum_le_sum_of_subset (subset_univ _)

theorem total_eq_zero (h : ∀ u, g (pc u) = 0) : total g pc = 0 :=
  sum_eq_zero fun u _ => h u

theorem total_update [DecidableEq Tid] (t : Tid) (l) :
    total g (update pc t l) + g (pc t) = total g pc + g l := by
  have hr : ∑ u ∈ Finset.univ.erase t, g (update pc t l u) = ∑ u ∈ Finset.univ.erase t, g (pc u) :=
    sum_congr rfl fun u hu => by rw [update_of_ne (ne_of_mem_erase hu)]
  rw [total, total, ← add_sum_erase _ _ (mem_univ t), update_self, hr,
    ← add_sum_erase _ (fun u => g (pc u)) (mem_univ t)]
  omega

variable {Q : Pc → Bool}

theorem of_total_eq_card (h : total (fun l => (Q l).toNat) pc = Fintype.card Tid)
    (u : Tid) : Q (pc u) := by
  by_contra hu
  have hl : total (fun l => (Q l).toNat) pc < ∑ _u : Tid, 1 :=
    sum_lt_sum (fun v _ => Bool.toNat_le _) ⟨u, mem_univ u, by simp [hu]⟩
  rw [h, ← card_eq_sum_ones, card_univ] at hl
  exact lt_irrefl _ hl

theorem total_eq_card (h : ∀ u, Q (pc u)) : total (fun l => (Q l).toNat) pc = Fintype.card Tid := by
  rw [← card_univ, card_eq_sum_ones]
  exact sum_congr rfl fun u _ => by simp [h u]

theorem total_le_card (Q : Pc → Bool) (pc : Tid → Pc) :
    total (fun l => (Q l).toNat) pc ≤ Fintype.card Tid := by
  rw [← card_univ, card_eq_sum_ones]
  exact sum_le_sum fun u _ => Bool.toNat_le _

end

structure Program (Tid Word Mem Pc : Type) where
  /-- What a thread may do next by itself: the memory and the place it is at afterwards. -/
  step : Tid → Mem → Pc → List (Mem × Pc)
  /-- The word on which a thread at this place sleeps. -/
  sleeps : Pc → Option Word
  /-- Where a woken sleeper goes on. -/
  awaken : Pc → Pc
  /-- A place that is a wake call: the word, the count and the place after the call. -/
  wakes : Pc → Option (Word × WakeCount × Pc)

structure State (Tid Mem Pc : Type) where
  mem : Mem
  pc : Tid → Pc

variable {Tid Word Mem Pc : Type} [Fintype Tid] [DecidableEq Word]

namespace Program

variable (P : Program Tid Word Mem Pc)

def sleepers (pc : Tid → Pc) (w : Word) : Finset Tid :=
  Finset.univ.filter fun u => P.sleeps (pc u) = some w

variable {pc : Tid → Pc}

@[simp] theorem mem_sleepers {P : Program Tid Word Mem Pc} {w u} :
    u ∈ P.sleepers pc w ↔ P.sleeps (pc u) = some w := by
  simp [sleepers]

theorem card_sleepers_lt {P : Program Tid Word Mem Pc} {t}
    (ht : P.sleeps (pc t) = none) (w) : (P.sleepers pc w).card < Fintype.card Tid :=
  card_lt_univ_of_notMem (x := t) (by simp [ht])

variable [DecidableEq Tid]

/-- The places once the threads in `woken` have been woken. -/
def awakened (pc : Tid → Pc) (woken : Finset Tid) : Tid → Pc := fun u =>
  if u ∈ woken then P.awaken (pc u) else pc u

inductive Step (t : Tid) (s : State Tid Mem Pc) : State Tid Mem Pc → Prop where
  | run {m : Mem} {l : Pc} (next : (m, l) ∈ P.step t s.mem (s.pc t)) :
      Step t s ⟨m, update s.pc t l⟩
  | wake {w : Word} {n : WakeCount} {l : Pc} {woken : Finset Tid}
      (call : P.wakes (s.pc t) = some (w, n, l)) (wakes : Wakes n (P.sleepers s.pc w) woken) :
      Step t s ⟨s.mem, update (P.awakened s.pc woken) t l⟩

/-- The states of every interleaving that starts in `init`. -/
inductive Reaches (init : State Tid Mem Pc) : State Tid Mem Pc → Prop where
  | refl : Reaches init init
  | tail {s s' : State Tid Mem Pc} {t : Tid} :
      Reaches init s → P.Step t s s' → Reaches init s'

/-- The states of the interleavings in which every thread that moves meets a condition on the state
it moves in. -/
inductive ReachesUnder (C : Tid → State Tid Mem Pc → Prop) (init : State Tid Mem Pc) :
    State Tid Mem Pc → Prop where
  | refl : ReachesUnder C init init
  | tail {s s' : State Tid Mem Pc} {t : Tid} :
      ReachesUnder C init s → C t s → P.Step t s s' → ReachesUnder C init s'

variable {P} {init s s' : State Tid Mem Pc} {C : Tid → State Tid Mem Pc → Prop}
  {p : State Tid Mem Pc → Prop} {I : State Tid Mem Pc → Prop}

theorem Reaches.invariant (h : P.Reaches init s) (start : I init)
    (step : ∀ t s s', I s → P.Step t s s' → I s') : I s := by
  induction h with
  | refl => exact start
  | tail _ hs ih => exact step _ _ _ ih hs

theorem ReachesUnder.reaches (h : P.ReachesUnder C init s) : P.Reaches init s := by
  induction h with
  | refl => exact .refl
  | tail _ _ hs ih => exact .tail ih hs

theorem ReachesUnder.invariant (h : P.ReachesUnder C init s)
    (start : I init) (step : ∀ t s s', I s → C t s → P.Step t s s' → I s') : I s := by
  induction h with
  | refl => exact start
  | tail _ hc hs ih => exact step _ _ _ ih hc hs

/-- A choice of the scheduler: which thread moves and which of its ways on it takes, or whom its
wake wakes. -/
inductive Move (Tid : Type) where
  | run (t : Tid) (way : ℕ)
  | wake (t : Tid) (woken : Finset Tid)

def move (P : Program Tid Word Mem Pc) (s : State Tid Mem Pc) : Move Tid → Option (State Tid Mem Pc)
  | .run t way => (P.step t s.mem (s.pc t))[way]?.map fun n => ⟨n.1, update s.pc t n.2⟩
  | .wake t woken => do
    let (w, n, l) ← P.wakes (s.pc t)
    if Wakes n (P.sleepers s.pc w) woken then
      some ⟨s.mem, update (P.awakened s.pc woken) t l⟩
    else none

def Move.thread : Move Tid → Tid
  | .run t _ => t
  | .wake t _ => t

theorem move_step {a} (h : P.move s a = some s') : P.Step a.thread s s' := by
  cases a with
  | run t way =>
    obtain ⟨n, hn, rfl⟩ := map_eq_some_iff.mp h
    exact .run (List.mem_of_getElem? hn)
  | wake t woken =>
    obtain ⟨⟨w, n, l⟩, hc, h⟩ := bind_eq_some_iff.mp h
    dsimp only at h
    split at h
    · cases h
      exact .wake hc (by assumption)
    · cases h

def play (P : Program Tid Word Mem Pc) (moves : List (Move Tid)) (s : State Tid Mem Pc) :
    Option (State Tid Mem Pc) :=
  moves.foldlM P.move s

variable {moves : List (Move Tid)}

theorem play_reaches (h : P.play moves s = some s')
    (hs : P.Reaches init s) : P.Reaches init s' := by
  induction moves generalizing s with
  | nil =>
    cases h
    exact hs
  | cons a moves ih =>
    obtain ⟨s1, ha, h⟩ := bind_eq_some_iff.mp h
    exact ih h (.tail hs (move_step ha))

theorem exists_reaches (moves : List (Move Tid)) [DecidablePred p]
    (h : (P.play moves init).any (fun s => p s)) : ∃ s, P.Reaches init s ∧ p s := by
  obtain ⟨s, hs, hp⟩ := (any_eq_true _ _).mp h
  exact ⟨s, play_reaches hs .refl, of_decide_eq_true hp⟩

def playUnder (P : Program Tid Word Mem Pc) (C : Tid → State Tid Mem Pc → Prop)
    [∀ t s, Decidable (C t s)] (moves : List (Move Tid)) (s : State Tid Mem Pc) :
    Option (State Tid Mem Pc) :=
  moves.foldlM (fun s a => if C a.thread s then P.move s a else none) s

theorem playUnder_reaches [∀ t s, Decidable (C t s)] (h : P.playUnder C moves s = some s')
    (hs : P.ReachesUnder C init s) : P.ReachesUnder C init s' := by
  induction moves generalizing s with
  | nil =>
    cases h
    exact hs
  | cons a moves ih =>
    obtain ⟨s1, ha, h⟩ := bind_eq_some_iff.mp h
    dsimp only at ha
    split at ha
    · rename_i hc
      exact ih h (.tail hs hc (move_step ha))
    · cases ha

theorem exists_reachesUnder [∀ t s, Decidable (C t s)] (moves : List (Move Tid)) [DecidablePred p]
    (h : (P.playUnder C moves init).any (fun s => p s)) : ∃ s, P.ReachesUnder C init s ∧ p s := by
  obtain ⟨s, hs, hp⟩ := (any_eq_true _ _).mp h
  exact ⟨s, playUnder_reaches hs .refl, of_decide_eq_true hp⟩

section
variable {pc : Tid → Pc} {w : Word} {n : WakeCount} {woken : Finset Tid}

theorem sleeps_awakened_all (h : woken = P.sleepers pc w)
    (ha : ∀ l, P.sleeps l = some w → P.sleeps (P.awaken l) = none) (u : Tid) :
    P.sleeps (P.awakened pc woken u) ≠ some w := by
  subst h
  by_cases hu : P.sleeps (pc u) = some w
  · rw [awakened, if_pos (mem_sleepers.mpr hu), ha _ hu]
    exact nofun
  · rwa [awakened, if_neg (mt mem_sleepers.mp hu)]

variable (h : Wakes n (P.sleepers pc w) woken)
include h

theorem awakened_cases (u : Tid) : P.awakened pc woken u = pc u ∨
      P.sleeps (pc u) = some w ∧ P.awakened pc woken u = P.awaken (pc u) := by
  by_cases hu : u ∈ woken
  · exact .inr ⟨mem_sleepers.mp (h.subset hu), if_pos hu⟩
  · exact .inl (if_neg hu)

theorem forall_awakened {Q : Pc → Prop} (hp : ∀ u, Q (pc u))
    (ha : ∀ l, P.sleeps l = some w → Q l → Q (P.awaken l)) (u : Tid) :
    Q (P.awakened pc woken u) := by
  rcases awakened_cases h u with hu | ⟨hs, hu⟩ <;> rw [hu]
  · exact hp u
  · exact ha _ hs (hp u)

theorem awakened_eq {α : Sort*} {f : Pc → α}
    (ha : ∀ l, P.sleeps l = some w → f (P.awaken l) = f l) (u : Tid) :
    f (P.awakened pc woken u) = f (pc u) := by
  rcases awakened_cases h u with hu | ⟨hs, hu⟩ <;> rw [hu]
  exact ha _ hs

theorem awakened_of_none {u} (hu : P.sleeps (pc u) = none) : P.awakened pc woken u = pc u := by
  rcases awakened_cases h u with h | ⟨hs, -⟩
  · exact h
  · cases hu.symm.trans hs

end

end Program

end FutexThreads
