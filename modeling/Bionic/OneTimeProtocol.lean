import Bionic.FutexThreads

/-! One-time initialisation over a futex: what one atomic step of a thread has to do to the control
word and to its own place, and the exclusion and the wake-ups that follow over every run. -/
namespace OneTimeProtocol

open FutexThreads Function

variable {Tid Mem Pc : Type}

/-- In which memories the initialisation is underway and a thread may sleep, which places initialise
or are about to wake the sleepers, and what a place says about the memory. -/
structure Protocol (P : Program Tid Unit Mem Pc) where
  underway : Mem → Bool
  waited : Mem → Bool
  inside : Pc → Bool
  waking : Pc → Bool
  fits : Mem → Pc → Prop
  waited_underway {m} : waited m → underway m
  step {t m l m' l'} : (inside l → underway m) → fits m l → (m', l') ∈ P.step t m l →
    (underway m').toNat + (inside l).toNat = (underway m).toNat + (inside l').toNat ∧
      fits m' l' ∧ (∀ k, fits m k → fits m' k) ∧ (P.sleeps l' = some () → waited m') ∧
      (waited m → waited m' ∨ waking l') ∧ ¬waking l
  wake {l w n l'} : P.wakes l = some (w, n, l') →
    n = .all ∧ P.sleeps l' = none ∧ inside l' = inside l ∧ ∀ m, fits m l → fits m l'
  awaken (l) : P.sleeps l = some () → P.sleeps (P.awaken l) = none ∧
    inside (P.awaken l) = inside l ∧ ∀ m, fits m l → fits m (P.awaken l)

/-- One thread at a time initialises, and whoever sleeps is waited for or about to be woken. -/
structure Sound {P : Program Tid Unit Mem Pc} (p : Protocol P) (s : State Tid Mem Pc) : Prop where
  exclusive : ∀ t u, p.inside (s.pc t) → p.inside (s.pc u) → t = u
  underway : (∃ t, p.inside (s.pc t)) ↔ p.underway s.mem
  fits : ∀ t, p.fits s.mem (s.pc t)
  awaited : ∀ t, P.sleeps (s.pc t) = some () →
    p.waited s.mem ∧ (∃ u, p.inside (s.pc u)) ∨ ∃ u, p.waking (s.pc u)

variable {P : Program Tid Unit Mem Pc}

def Protocol.weight (p : Protocol P) (l : Pc) : ℕ := (p.inside l).toNat

variable [Fintype Tid] {p : Protocol P} {s s' : State Tid Mem Pc}

structure Inv (p : Protocol P) (s : State Tid Mem Pc) : Prop where
  one : total p.weight s.pc = (p.underway s.mem).toNat
  fits : ∀ u, p.fits s.mem (s.pc u)
  asleep : ∀ u, P.sleeps (s.pc u) = some () → p.waited s.mem ∨ ∃ v, p.waking (s.pc v)

theorem Inv.underway (h : Inv p s) {u} (hu : p.inside (s.pc u)) : p.underway s.mem := by
  have hl : p.weight (s.pc u) ≤ total p.weight s.pc := le_total u
  rw [h.one, Protocol.weight, hu] at hl
  exact Bool.toNat_eq_one.mp (le_antisymm (Bool.toNat_le _) hl)

theorem Inv.exists_inside (h : Inv p s) (hm : p.underway s.mem) : ∃ u, p.inside (s.pc u) := by
  by_contra hn
  have hz : total p.weight s.pc = 0 := total_eq_zero fun u => by
    simpa [Protocol.weight] using fun hu => hn ⟨u, hu⟩
  rw [h.one, hm] at hz
  cases hz

theorem Inv.sound (h : Inv p s) : Sound p s := by
  refine ⟨fun t u ht hu => ?_, ⟨fun ⟨_, ht⟩ => h.underway ht, h.exists_inside⟩, h.fits,
    fun t ht => ?_⟩
  · by_contra hn
    have hl : p.weight (s.pc t) + p.weight (s.pc u) ≤ total p.weight s.pc := add_le_total hn
    rw [h.one, Protocol.weight, Protocol.weight, ht, hu] at hl
    exact absurd (hl.trans (Bool.toNat_le _)) (by decide)
  · exact (h.asleep t ht).imp_left fun hw => ⟨hw, h.exists_inside (p.waited_underway hw)⟩

variable [DecidableEq Tid] {t : Tid} {l : Pc}

theorem Inv.run {m} (h : Inv p s) (next : (m, l) ∈ P.step t s.mem (s.pc t)) :
    Inv p ⟨m, update s.pc t l⟩ := by
  obtain ⟨ho, hf, hk, hs, hw, hn⟩ := p.step h.underway (h.fits t) next
  refine ⟨?_, ?_, ?_⟩
  · change _ + p.weight _ = _ + p.weight _ at ho
    have ht : total p.weight (update s.pc t l) + _ = _ := total_update t l
    rw [h.one] at ht
    dsimp only
    omega
  · exact forall_update hf fun u => hk _ (h.fits u)
  · refine forall_update (Q := (P.sleeps · = _ → _)) (fun hl => .inl (hs hl)) fun u hu => ?_
    rcases h.asleep u hu with hm | hv
    · exact (hw hm).imp_right fun hl => ⟨t, by simpa using hl⟩
    · exact .inr (exists_update (Q := (p.waking · = true)) hv hn)

theorem Inv.wake {w n woken} (h : Inv p s) (call : P.wakes (s.pc t) = some (w, n, l))
    (hw : Wakes n (P.sleepers s.pc w) woken) :
    Inv p ⟨s.mem, update (P.awakened s.pc woken) t l⟩ := by
  obtain ⟨rfl, hn, hi, hf⟩ := p.wake call
  have ha : ∀ u, p.weight (P.awakened s.pc woken u) = p.weight (s.pc u) :=
    Program.awakened_eq hw fun l hl => congrArg Bool.toNat (p.awaken l hl).2.1
  refine ⟨?_, ?_, ?_⟩
  · have hu : total p.weight (update (P.awakened s.pc woken) t l) + _ = _ := total_update t l
    rw [total_congr ha, ha, h.one, Protocol.weight, Protocol.weight, hi] at hu
    exact Nat.add_right_cancel hu
  · refine forall_update (hf _ (h.fits t)) ?_
    exact Program.forall_awakened hw h.fits fun l hl => (p.awaken l hl).2.2 _
  · refine forall_update (Q := (P.sleeps · = _ → _)) (fun hs => absurd hs (by simp [hn])) ?_
    exact fun u hu => absurd hu (Program.sleeps_awakened_all hw (fun l hl => (p.awaken l hl).1) u)

theorem sound_of_reaches {init} (start : Inv p init) (h : P.Reaches init s) : Sound p s := by
  refine (h.invariant start fun t s s' hi hs => ?_).sound
  cases hs with
  | run next => exact hi.run next
  | wake call hw => exact hi.wake call hw

end OneTimeProtocol
