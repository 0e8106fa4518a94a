import Mathlib

/-! `soinfo::tag_globals` with deterministic tags: it reads the globals from a stream of descriptors
and gives each the next tag. -/
namespace LinkerMemtag

open Nat List

/-- What `uleb128_decoder` reads; a stream that ends within a number aborts. -/
def numbers (value : BitVec 64) (shift : ℕ) : List UInt8 → Option (List (BitVec 64))
  | [] => if shift = 0 then some [] else none
  | byte :: rest =>
    let value := value ||| ((byte &&& 127).toBitVec.setWidth 64 <<< shift)
    if byte &&& 128 ≠ 0 then numbers value (shift + 7) rest
    else (numbers 0 0 rest).map (value :: ·)

structure Global where
  addr : BitVec 64
  ngranules : BitVec 64

def globals (addr : BitVec 64) : List (BitVec 64) → Option (List Global)
  | [] => some []
  | value :: rest =>
    let addr := addr + (value >>> 3) * 16
    if value &&& 7 = 0 then
      match rest with
      | [] => none
      | number :: rest =>
        (globals (addr + (number + 1) * 16) rest).map (⟨addr, number + 1⟩ :: ·)
    else (globals (addr + (value &&& 7) * 16) rest).map (⟨addr, value &&& 7⟩ :: ·)

/-- The globals with their `tagged_addr`. -/
def tagFrom (lastTag : ℕ) : List Global → List (Global × BitVec 64)
  | [] => []
  | g :: gs =>
    (g, g.addr ||| BitVec.ofNat 64 lastTag <<< 56) ::
      tagFrom (if 1 <<< 16 < lastTag + 1 then 1 else lastTag + 1) gs

def described (loadBias : BitVec 64) (stream : List UInt8) : Option (List Global) :=
  (numbers 0 0 stream).bind (globals loadBias)

def tagGlobals (loadBias : BitVec 64) (stream : List UInt8) : Option (List (Global × BitVec 64)) :=
  (described loadBias stream).map (tagFrom 1)

def tag (p : BitVec 64) : ℕ := p.toNat / 2 ^ 56 % 16

/-- What the tags are for. A global without granules is given none. -/
structure Sound (ps : List (Global × BitVec 64)) : Prop where
  range : ∀ p ∈ ps, p.1.ngranules ≠ 0 → 1 ≤ tag p.2 ∧ tag p.2 ≤ 15
  consecutive : ps.IsChain fun p q => p.1.ngranules ≠ 0 → q.1.ngranules ≠ 0 → tag p.2 ≠ tag q.2
  own : ∀ p ∈ ps, ∀ k < p.1.ngranules.toNat,
    (p.2 + BitVec.ofNat 64 k * 16).toNat % 2 ^ 56 = (p.1.addr + BitVec.ofNat 64 k * 16).toNat

/-- All granules of a global lie below the tag bits. -/
def Low (g : Global) : Prop :=
  ∀ k < g.ngranules.toNat, (g.addr + BitVec.ofNat 64 k * 16).toNat < 2 ^ 56

def pointer (i : ℕ) (g : Global) : BitVec 64 := g.addr ||| BitVec.ofNat 64 (i % 2 ^ 16 + 1) <<< 56

theorem tagFrom_eq (gs i) :
    tagFrom (i % 2 ^ 16 + 1) gs = gs.mapIdx fun j g => (g, pointer (i + j) g) := by
  induction gs generalizing i with
  | nil => rfl
  | cons g gs ih =>
    have hn : (if 1 <<< 16 < i % 2 ^ 16 + 1 + 1 then 1 else i % 2 ^ 16 + 1 + 1) =
        (i + 1) % 2 ^ 16 + 1 := by
      split <;> omega
    rw [tagFrom, hn, ih, mapIdx_cons]
    simp only [add_assoc, add_comm 1, pointer, add_zero]

theorem granule_eq (i g y) : (pointer i g + y).toNat % 2 ^ 56 = (g.addr + y).toNat % 2 ^ 56 := by
  have hl : (pointer i g).toNat % 2 ^ 56 = g.addr.toNat % 2 ^ 56 := by
    rw [pointer, BitVec.toNat_or, or_mod_two_pow, BitVec.toNat_shiftLeft, shiftLeft_eq,
      mod_mod_of_dvd _ (by decide), mul_mod_left, or_zero]
  rw [BitVec.toNat_add, BitVec.toNat_add]
  omega

theorem tag_eq {g} (h : g.addr.toNat < 2 ^ 56) (i) : tag (pointer i g) = (i + 1) % 16 := by
  rw [tag, pointer, BitVec.toNat_or, ← shiftRight_eq_div_pow, shiftRight_or_distrib,
    shiftRight_eq_div_pow, div_eq_of_lt h, zero_or, shiftRight_eq_div_pow]
  simp only [BitVec.toNat_shiftLeft, BitVec.toNat_ofNat, shiftLeft_eq]
  omega

theorem Low.addr {g} (h : Low g) (hg : g.ngranules ≠ 0) : g.addr.toNat < 2 ^ 56 := by
  have hp : 0 < g.ngranules.toNat :=
    Nat.pos_of_ne_zero fun h0 => hg (BitVec.eq_of_toNat_eq h0)
  simpa using h 0 hp

theorem sound_iff (gs) : Sound (tagFrom 1 gs) ↔
      ∀ i g, gs[i]? = some g → g.ngranules ≠ 0 → i % 16 ≠ 15 ∧ Low g := by
  have heq := tagFrom_eq gs 0
  simp only [zero_mod, zero_add] at heq
  rw [heq]
  constructor
  · intro h i g hi hg
    have hm : (g, pointer i g) ∈ gs.mapIdx fun j g => (g, pointer j g) :=
      mem_of_getElem? (i := i) (by simp [hi])
    have hl : Low g := by
      intro k hk
      have ho := h.own _ hm k hk
      rw [granule_eq] at ho
      exact ho ▸ mod_lt _ (by decide)
    have hr := h.range _ hm hg
    rw [tag_eq (hl.addr hg)] at hr
    exact ⟨by omega, hl⟩
  · intro h
    refine ⟨?_, ?_, ?_⟩
    · intro p hp hg
      obtain ⟨i, hi, rfl⟩ := List.mem_mapIdx.mp hp
      obtain ⟨hn, hl⟩ := h i _ (getElem?_eq_getElem hi) hg
      rw [tag_eq (hl.addr hg)]
      omega
    · rw [isChain_iff_getElem]
      intro i hi
      simp only [getElem_mapIdx]
      intro hg hg'
      rw [tag_eq ((h i _ (getElem?_eq_getElem _) hg).2.addr hg),
        tag_eq ((h _ _ (getElem?_eq_getElem _) hg').2.addr hg')]
      omega
    · intro p hp k hk
      obtain ⟨i, hi, rfl⟩ := List.mem_mapIdx.mp hp
      have hg : gs[i].ngranules ≠ 0 := by
        intro h0
        simp [h0] at hk
      rw [granule_eq]
      exact mod_eq_of_lt ((h i _ (getElem?_eq_getElem hi) hg).2 k hk)

/-- The tag of every sixteenth global is zero. -/
theorem tagGlobals_sound_iff (loadBias : BitVec 64) (stream : List UInt8) :
    (∀ ps, tagGlobals loadBias stream = some ps → Sound ps) ↔
      ∀ gs, described loadBias stream = some gs →
        ∀ i g, gs[i]? = some g → g.ngranules ≠ 0 → i % 16 ≠ 15 ∧ Low g := by
  rw [tagGlobals]
  cases described loadBias stream with
  | none => exact ⟨nofun, nofun⟩
  | some gs => simp [sound_iff]

theorem sixteenth_tag_is_zero :
    ∃ p, (tagGlobals 0x1000 (List.replicate 16 1)).bind (·[15]?) = some p ∧
      p.1.ngranules = 1 ∧ tag p.2 = 0 :=
  ⟨_, rfl, by decide, by decide⟩

end LinkerMemtag
