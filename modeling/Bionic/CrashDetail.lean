import Mathlib

/-! Crash details: records in pages that are never given back. A record that is unregistered goes to
the front of a free list, where its link also marks it as removed. There is one thread, so a
compare-and-exchange succeeds. -/
namespace CrashDetail

open List Function

def kNumCrashDetails : ℕ := 128

abbrev Handle : Type := ℕ × ℕ

/-- `pages` is `crash_detail_page` with the pages behind it. -/
structure State where
  freeHead : Option Handle
  prevFree : Handle → Option Handle
  pages : List ℕ
  used : ℕ → ℕ

def initial : State := ⟨none, fun _ => none, [], fun _ => 0⟩

/-- A page of zeros, if `mmap` gives one. -/
def mapPage (s : State) (map : Option ℕ) : Option (State × ℕ) :=
  map.map fun p =>
    ({ s with
      prevFree := fun h => if h.1 = p then none else s.prevFree h
      pages := p :: s.pages
      used := update s.used p 0 }, p)

def freePage (s : State) (map : Option ℕ) : Option (State × ℕ) :=
  match s.pages.head? with
  | none => mapPage s map
  | some p => if s.used p = kNumCrashDetails then mapPage s map else some (s, p)

def androidCrashDetailRegister (s : State) (map : Option ℕ) : State × Option Handle :=
  match s.freeHead with
  | some head =>
    ({ s with freeHead := s.prevFree head, prevFree := update s.prevFree head none }, some head)
  | none =>
    match freePage s map with
    | none => (s, none)
    | some (s, p) => ({ s with used := update s.used p (s.used p + 1) }, some (p, s.used p))

def androidCrashDetailUnregister (s : State) : Option Handle → State
  | none => s
  | some h =>
    if (s.prevFree h).isSome then s
    else { s with freeHead := some h, prevFree := update s.prevFree h s.freeHead }

/-- Runs, with the handles that are registered and those unregistered and not handed out anew. One
of the latter is unregistered again only in a state with `P`. -/
inductive Reaches (P : State → Handle → Prop) : State → List Handle → List Handle → Prop where
  | initial : Reaches P initial [] []
  | register {s s' registered removed map h} : Reaches P s registered removed →
      (∀ p, map = some p → p ∉ s.pages) → androidCrashDetailRegister s map = (s', some h) →
      Reaches P s' (h :: registered) (removed.erase h)
  | failed {s s' registered removed map} : Reaches P s registered removed →
      androidCrashDetailRegister s map = (s', none) → Reaches P s' registered removed
  | unregister {s registered removed h} : Reaches P s registered removed → h ∈ registered →
      Reaches P (androidCrashDetailUnregister s (some h)) (registered.erase h) (h :: removed)
  | again {s registered removed h} : Reaches P s registered removed → h ∈ removed → P s h →
      Reaches P (androidCrashDetailUnregister s (some h)) registered removed
  | null {s registered removed} : Reaches P s registered removed →
      Reaches P (androidCrashDetailUnregister s none) registered removed

/-- The records of a list that starts with `head` and ends. -/
def Chain (prevFree : Handle → Option Handle) : Option Handle → List Handle → Prop
  | head, [] => head = none
  | head, h :: free => head = some h ∧ Chain prevFree (prevFree h) free

structure Inv (s : State) (registered removed : List Handle) : Prop where
  free : Chain s.prevFree s.freeHead removed
  nodup : (registered ++ removed).Nodup
  unlinked : ∀ h, h ∉ removed → s.prevFree h = none
  used : ∀ h ∈ registered ++ removed, h.1 ∈ s.pages ∧ h.2 < s.used h.1

variable {s s' : State} {registered removed free : List Handle} {h head : Handle}
  {map : Option ℕ} {p : ℕ} {prevFree prevFree' : Handle → Option Handle}

theorem Chain.congr {first} (hc : Chain prevFree first free)
    (heq : ∀ h ∈ free, prevFree' h = prevFree h) : Chain prevFree' first free := by
  induction free generalizing first with
  | nil => exact hc
  | cons h free ih =>
    refine ⟨hc.1, ?_⟩
    rw [heq h mem_cons_self]
    exact ih hc.2 fun x hx => heq x (mem_cons_of_mem h hx)

theorem Chain.update {first value} (hc : Chain prevFree first free)
    (hh : h ∉ free) : Chain (update prevFree h value) first free :=
  hc.congr fun _ hx => update_of_ne (ne_of_mem_of_not_mem hx hh) _ _

theorem Inv.take (hi : Inv s registered (head :: removed)) :
    Inv { s with freeHead := s.prevFree head, prevFree := update s.prevFree head none }
      (head :: registered) removed := by
  have hnd := List.nodup_middle.mp hi.nodup
  have hn : head ∉ removed := fun hm =>
    (List.nodup_cons.mp hnd).1 (mem_append_right _ hm)
  refine ⟨hi.free.2.update hn, hnd, fun x hx => ?_, fun x hx => hi.used x ?_⟩
  · by_cases heq : x = head
    · rw [heq]
      exact update_self _ _ _
    · refine (update_of_ne heq _ _).trans (hi.unlinked x ?_)
      exact not_mem_cons_of_ne_of_not_mem heq hx
  · exact List.perm_middle.mem_iff.mpr hx

section
variable (hi : Inv s registered [])
include hi

theorem Inv.mapPage (hf : p ∉ s.pages) : Inv { s with
      prevFree := fun h => if h.1 = p then none else s.prevFree h
      pages := p :: s.pages
      used := update s.used p 0 } registered [] := by
  refine ⟨hi.free, hi.nodup, fun x hx => ?_, fun x hx => ?_⟩
  · dsimp only
    rw [hi.unlinked x hx, ite_self]
  obtain ⟨hp, hl⟩ := hi.used x hx
  refine ⟨mem_cons_of_mem p hp, ?_⟩
  dsimp only
  rwa [update_of_ne (ne_of_mem_of_not_mem hp hf)]

theorem Inv.freePage (hf : ∀ p, map = some p → p ∉ s.pages)
    (h : freePage s map = some (s', p)) : Inv s' registered [] ∧ p ∈ s'.pages := by
  have hn (hm : CrashDetail.mapPage s map = some (s', p)) :
      Inv s' registered [] ∧ p ∈ s'.pages := by
    obtain ⟨q, hq, heq⟩ := Option.map_eq_some_iff.mp hm
    cases heq
    exact ⟨hi.mapPage (hf _ hq), mem_cons_self⟩
  rw [CrashDetail.freePage] at h
  split at h
  · exact hn h
  rename_i hq
  split at h
  · exact hn h
  · cases h
    exact ⟨hi, mem_of_mem_head? hq⟩

theorem Inv.next (hp : p ∈ s.pages) :
    Inv { s with used := update s.used p (s.used p + 1) } ((p, s.used p) :: registered) [] := by
  have hn : (p, s.used p) ∉ registered ++ [] := fun hm => Nat.lt_irrefl _ (hi.used _ hm).2
  refine ⟨hi.free, List.nodup_cons.mpr ⟨hn, hi.nodup⟩, hi.unlinked, fun x hx => ?_⟩
  dsimp only
  rcases List.mem_cons.mp hx with rfl | hx
  · rw [update_self]
    exact ⟨hp, Nat.lt_succ_self _⟩
  obtain ⟨hpg, hl⟩ := hi.used x hx
  refine ⟨hpg, ?_⟩
  by_cases heq : x.1 = p
  · rw [heq] at hl ⊢
    rw [update_self]
    exact Nat.lt_succ_of_lt hl
  · rwa [update_of_ne heq]

end

theorem Inv.register (hi : Inv s registered removed) (hfr : ∀ p, map = some p → p ∉ s.pages)
    (hr : androidCrashDetailRegister s map = (s', some h)) :
    Inv s' (h :: registered) (removed.erase h) := by
  have hf := hi.free
  rw [androidCrashDetailRegister] at hr
  cases removed with
  | nil =>
    rw [hf] at hr
    dsimp only at hr
    split at hr
    · cases hr
    rename_i hpg
    cases hr
    obtain ⟨ht, hp⟩ := hi.freePage hfr hpg
    exact ht.next hp
  | cons head removed =>
    rw [hf.1] at hr
    cases hr
    rw [erase_cons_head]
    exact hi.take

theorem Inv.unregister (hi : Inv s registered removed) (hh : h ∈ registered) :
    Inv (androidCrashDetailUnregister s (some h)) (registered.erase h) (h :: removed) := by
  have hp := ((perm_cons_erase hh).append_right removed).trans List.perm_middle.symm
  have hnd := hp.nodup_iff.mp hi.nodup
  have hn : h ∉ removed := fun hm =>
    (List.nodup_cons.mp (List.nodup_middle.mp hnd)).1 (mem_append_right _ hm)
  rw [androidCrashDetailUnregister, hi.unlinked h hn, if_neg (by simp)]
  refine ⟨⟨rfl, ?_⟩, hnd, fun x hx => ?_, fun x hx => hi.used x (hp.mem_iff.mpr hx)⟩
  · dsimp only
    rw [update_self]
    exact hi.free.update hn
  · obtain ⟨hne, hx⟩ := not_or.mp (List.mem_cons.not.mp hx)
    exact (update_of_ne hne _ _).trans (hi.unlinked x hx)

theorem register_failed (hr : androidCrashDetailRegister s map = (s', none)) : s' = s := by
  rw [androidCrashDetailRegister] at hr
  split at hr
  · cases hr
  · split at hr <;> cases hr
    rfl

/-- The record is not the last one of the free list. -/
def Marked (s : State) (h : Handle) : Prop := (s.prevFree h).isSome

theorem reaches_inv (hr : Reaches Marked s registered removed) : Inv s registered removed := by
  induction hr with
  | initial => exact ⟨rfl, nodup_nil, fun _ _ => rfl, nofun⟩
  | register _ hf hrg ih => exact ih.register hf hrg
  | failed _ hrg ih => exact register_failed hrg ▸ ih
  | unregister _ hh ih => exact ih.unregister hh
  | again _ _ hm ih =>
    rw [Marked] at hm
    rw [androidCrashDetailUnregister, if_pos hm]
    exact ih
  | null _ ih => exact ih

/-- The free list ends and has each record that is unregistered once, and the handles that are
registered are distinct. -/
theorem free_list_sound (s : State) (registered removed : List Handle)
    (hr : Reaches Marked s registered removed) :
    Chain s.prevFree s.freeHead removed ∧ removed.Nodup ∧ registered.Nodup :=
  have hi := reaches_inv hr
  ⟨hi.free, hi.nodup.of_append_right, hi.nodup.of_append_left⟩

/-- Two records are unregistered, the second one twice. -/
theorem free_list_sound_two_records : ∃ s, Reaches Marked s [] [(0, 1), (0, 0)] ∧
    Chain s.prevFree s.freeHead [(0, 1), (0, 0)] := by
  let s1 := (androidCrashDetailRegister initial (some 0)).1
  let s2 := (androidCrashDetailRegister s1 none).1
  have h1 : Reaches Marked s1 [(0, 0)] [] :=
    Reaches.initial.register (by simp [initial] : ∀ p, some 0 = some p → p ∉ initial.pages) rfl
  have h2 : Reaches Marked s2 [(0, 1), (0, 0)] [] :=
    h1.register (nofun : ∀ p, none = some p → p ∉ s1.pages) rfl
  have h3 := (h2.unregister (h := (0, 0)) (by decide)).unregister (h := (0, 1)) (by decide)
  have h4 := h3.again (h := (0, 1)) (by decide) rfl
  exact ⟨_, h4, (free_list_sound _ _ _ h4).1⟩

/-- The only record of the free list has no link; unregistered again, it is linked to itself. -/
theorem unregistered_twice_is_a_circle : let s := (androidCrashDetailRegister initial (some 0)).1
    let t := androidCrashDetailUnregister s (some (0, 0))
    let t := androidCrashDetailUnregister t (some (0, 0))
    t.freeHead = some (0, 0) ∧ t.prevFree (0, 0) = some (0, 0) := by
  decide

end CrashDetail
