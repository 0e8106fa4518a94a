import Bionic.Multibyte

/-! `mbrtoc16` and `c16rtomb`. A character beyond the first plane is two units of UTF-16; what one
call leaves for the next is in the state that also holds parts of UTF-8 sequences. A reader takes a
unit after each call of `mbrtoc16` that did not ask for more; a writer hands the units to `c16rtomb`
one by one. -/
namespace Utf16

open Multibyte Nat
open BitVec (eq_of_toNat_eq le_def lt_def ofNat toNat_ofNat toNat_or toNat toNat_and toNat_setWidth)
open Nat (mod_eq_of_lt mod_lt)
open List Option

def beginSurrogate (c32 : BitVec 32) (nconv : ℕ) (ps : MbState) :
    Conversion × MbState × Option (BitVec 16) :=
  let c32 := c32 - 0x10000#32
  let trail : BitVec 16 := ((c32 &&& 0x3ff#32) ||| 0xdc00#32).setWidth 16
  let ps := ps.setByte 0 ((trail &&& 0x00ff#16).setWidth 8)
  let ps := ps.setByte 1 (((trail &&& 0xff00#16) >>> 8).setWidth 8)
  let ps := ps.setByte 3 (BitVec.ofNat 8 nconv)
  (.bytes nconv, ps, some ((((c32 &&& 0xffc00#32) >>> 10) ||| 0xd800#32).setWidth 16))

def finishSurrogate (ps : MbState) : Conversion × MbState × Option (BitVec 16) :=
  let trail : BitVec 16 := ((ps.getByte 1).setWidth 16 <<< 8) ||| (ps.getByte 0).setWidth 16
  (.again, .initial, some trail)

/-- The result, the state and the unit stored in `*pc16`, if any. -/
def mbrtoc16 (ps : MbState) (s : List Byte) : Conversion × MbState × Option (BitVec 16) :=
  if ps.getByte 3 ≠ 0#8 then finishSurrogate ps
  else match mbrtoc32 ps s with
    | ⟨.bytes 0, _, _⟩ => (.bytes 0, .initial, none)
    | ⟨.bytes nconv, ps, some c32⟩ =>
      if c32 < 0x10000#32 then (.bytes nconv, .initial, some (c32.setWidth 16))
      else if 0x10ffff#32 < c32 then (.illegal .eilseq, .initial, none)
      else beginSurrogate c32 nconv ps
    | ⟨result, ps, _⟩ => (result, ps, none)

def isHighSurrogate (c16 : BitVec 16) : Bool := 0xd800#16 ≤ c16 && c16 < 0xdc00#16

def isLowSurrogate (c16 : BitVec 16) : Bool := 0xdc00#16 ≤ c16 && c16 < 0xe000#16

def c16rtomb (ps : MbState) (c16 : BitVec 16) : Conversion × MbState × List Byte :=
  if ps.isInitial then
    if isHighSurrogate c16 then
      let c32 : BitVec 32 := (c16.setWidth 32 &&& ~~~0xd800#32) <<< 10
      let ps := ps.setByte 3 (((c32 &&& 0xff0000#32) >>> 16).setWidth 8)
      let ps := ps.setByte 2 (((c32 &&& 0x00ff00#32) >>> 8).setWidth 8)
      (.bytes 0, ps, [])
    else if isLowSurrogate c16 then (.illegal .einval, .initial, [])
    else c32rtomb ps (c16.setWidth 32)
  else if !isLowSurrogate c16 then (.illegal .einval, .initial, [])
  else
    let c32 : BitVec 32 := (((ps.getByte 3).setWidth 32 <<< 16) |||
      ((ps.getByte 2).setWidth 32 <<< 8) ||| (c16.setWidth 32 &&& ~~~0xdc00#32)) + 0x10000#32
    let (result, _, s) := c32rtomb .initial c32
    (result, .initial, s)

structure Reader where
  ps : MbState
  /-- The variable that `pc16` points to. -/
  pc16 : BitVec 16
  rest : List Byte
  units : List (BitVec 16)
  deriving DecidableEq

def Reader.start (pc16 : BitVec 16) (bytes : List Byte) : Reader := ⟨.initial, pc16, bytes, []⟩

/-- A unit is taken from the variable, and `n` bytes are behind the reader. -/
def Reader.take (r : Reader) (ps : MbState) (stored : Option (BitVec 16)) (n : ℕ) : Reader :=
  let pc16 := stored.getD r.pc16
  ⟨ps, pc16, r.rest.drop n, r.units ++ [pc16]⟩

/-- On the next `n` bytes; `none` if it fails. The null character is one byte. -/
def Reader.call (r : Reader) (n : ℕ) : Option Reader :=
  let s := r.rest.take n
  match mbrtoc16 r.ps s with
  | (.illegal _, _, _) => none
  | (.incomplete, ps, _) => some { r with ps, rest := r.rest.drop s.length }
  | (.again, ps, stored) => some (r.take ps stored 0)
  | (.bytes nconv, ps, stored) => some (r.take ps stored (max nconv 1))

def Reader.run (r : Reader) : List ℕ → Option Reader
  | [] => some r
  | n :: ns => do (← r.call n).run ns

def Reader.Done (r : Reader) : Prop := r.rest = [] ∧ r.ps = .initial

/-- The bytes for some units; `none` if a call of `c16rtomb` fails. -/
def write (ps : MbState) : List (BitVec 16) → Option (List Byte)
  | [] => some []
  | c16 :: units =>
    match c16rtomb ps c16 with
    | (.bytes n, ps, s) => (write ps units).map (s.take n ++ ·)
    | _ => none

def unit (c : Char) : BitVec 16 := BitVec.ofNat 16 c.toNat

def high (n : ℕ) : BitVec 16 := BitVec.ofNat 16 (n + 0xd800)

def low (n : ℕ) : BitVec 16 := BitVec.ofNat 16 (n + 0xdc00)

def offset (c : Char) : ℕ := c.toNat - 0x10000

theorem char_lt (c : Char) : c.toNat < 0x110000 := by
  rcases (show c.toNat.isValidChar from c.valid) with h | h <;> omega

theorem offset_lt (c : Char) : offset c < 1024 * 1024 := by
  have := char_lt c
  unfold offset
  omega

variable {c : Char}

theorem toNat_sub_offset (h : 0x10000 ≤ c.toNat) :
    (ofNat 32 c.toNat - 0x10000#32).toNat = offset c := by
  have hl := char_lt c
  rw [BitVec.toNat_sub_of_le, toNat_ofNat, toNat_ofNat,
    mod_eq_of_lt (show c.toNat < 2 ^ 32 by omega)]
  · rfl
  · rw [le_def, toNat_ofNat, toNat_ofNat, mod_eq_of_lt (show c.toNat < 2 ^ 32 by omega)]
    exact h

theorem trail_eq (x) :
    (((x &&& 0x3ff#32) ||| 0xdc00#32).setWidth 16 : BitVec 16) = low (x.toNat % 1024) := by
  have hm : x.toNat &&& 1023 = x.toNat % 1024 := and_two_pow_sub_one_eq_mod _ 10
  have ho := or_eq_add_of_lt (k := 10) 55 (mod_lt x.toNat (by decide))
  apply eq_of_toNat_eq
  simp only [low, toNat_setWidth, toNat_or, toNat_and, toNat_ofNat]
  rw [show 1023 % 2 ^ 32 = 1023 from rfl, hm]
  exact congrArg (· % 2 ^ 16) ho

theorem lead_eq (x) : ((((x &&& 0xffc00#32) >>> 10) ||| 0xd800#32).setWidth 16 : BitVec 16) =
      high (x.toNat / 1024 % 1024) := by
  have hs : (x.toNat &&& 0xffc00) >>> 10 = x.toNat / 1024 % 1024 := by
    rw [shiftRight_and_distrib, show 0xffc00 >>> 10 = 2 ^ 10 - 1 from rfl,
      and_two_pow_sub_one_eq_mod, shiftRight_eq_div_pow]
  have ho := or_eq_add_of_lt (k := 10) 54 (mod_lt (x.toNat / 1024) (by decide))
  apply eq_of_toNat_eq
  simp only [high, toNat_setWidth, toNat_or, BitVec.toNat_ushiftRight, toNat_and, toNat_ofNat]
  rw [show 0xffc00 % 2 ^ 32 = 0xffc00 from rfl, hs]
  exact congrArg (· % 2 ^ 16) ho

def waiting (n nconv : ℕ) : MbState :=
  ⟨((low n &&& 0x00ff#16).setWidth 8), (((low n &&& 0xff00#16) >>> 8).setWidth 8), 0#8,
    BitVec.ofNat 8 nconv⟩

theorem beginSurrogate_eq (h : 0x10000 ≤ c.toNat) (nconv) :
    beginSurrogate (ofNat 32 c.toNat) nconv .initial =
      (.bytes nconv, waiting (offset c % 1024) nconv, some (high (offset c / 1024))) := by
  have hd : offset c / 1024 % 1024 = offset c / 1024 :=
    mod_eq_of_lt (Nat.div_lt_of_lt_mul (offset_lt c))
  simp only [beginSurrogate, trail_eq, lead_eq, toNat_sub_offset h, hd]
  rfl

variable {n : ℕ}

theorem finishSurrogate_waiting (h : n < 1024) (nconv) :
    finishSurrogate (waiting n nconv) = (.again, .initial, some (low n)) := by
  have ha : ∀ n < 1024, (finishSurrogate (waiting n 0)).2.2 = some (low n) := by decide +kernel
  have hs := ha n h
  rw [← hs]
  rfl

theorem waiting_third {nconv} (hp : 0 < nconv) (hl : nconv ≤ 4) (n) :
    (waiting n nconv).getByte 3 ≠ 0#8 := by
  have ha : ∀ k ≤ 4, 0 < k → ofNat 8 k ≠ 0#8 := by decide
  exact ha nconv hl hp

def unitsFrom (pc16 : BitVec 16) : List Char → List (BitVec 16)
  | [] => []
  | c :: cs =>
    if c.toNat = 0 then pc16 :: unitsFrom pc16 cs
    else if c.toNat < 0x10000 then unit c :: unitsFrom (unit c) cs
    else high (offset c / 1024) :: low (offset c % 1024) ::
      unitsFrom (low (offset c % 1024)) cs

theorem unitsFrom_cons (pc16 c cs) :
    unitsFrom pc16 (c :: cs) = if c.toNat = 0 then pc16 :: unitsFrom pc16 cs
      else if c.toNat < 0x10000 then unit c :: unitsFrom (unit c) cs
      else high (offset c / 1024) :: low (offset c % 1024) ::
        unitsFrom (low (offset c % 1024)) cs := rfl

/-- In the middle of some characters, with the units still to come. -/
inductive Reading (r : Reader) : List (BitVec 16) → Prop where
  | done : r.Done → Reading r []
  | inside (c : Char) (cs : List Char) (front last : List Byte) :
      utf8 c = front ++ last → last ≠ [] → r.ps = held front →
      r.rest = last ++ cs.flatMap utf8 → Reading r (unitsFrom r.pc16 (c :: cs))
  | waiting (n nconv : ℕ) (cs : List Char) : n < 1024 → 0 < nconv → nconv ≤ 4 →
      r.ps = waiting n nconv → r.rest = cs.flatMap utf8 →
      Reading r (low n :: unitsFrom (low n) cs)

variable {r : Reader}

theorem Reading.boundary (cs) (hp : r.ps = .initial)
    (hr : r.rest = cs.flatMap utf8) : Reading r (unitsFrom r.pc16 cs) := by
  cases cs with
  | nil => exact .done ⟨hr, hp⟩
  | cons c cs => exact .inside c cs [] (utf8 c) rfl (utf8_ne_nil c) hp hr

variable {c16 : BitVec 16} {front last : List Byte} {cs : List Char} {ps : MbState}

theorem front_third (hs : utf8 c = front ++ last)
    (hla : last ≠ []) : (held front).getByte 3 = 0#8 := by
  apply held_third
  have hl := utf8_length_le c
  have hp := List.length_pos_iff.mpr hla
  rw [hs, length_append] at hl
  omega

theorem mbrtoc16_part {part later} (hs : utf8 c = front ++ part ++ later) (hl : later ≠ []) :
    mbrtoc16 (held front) part = (.incomplete, held (front ++ part), none) := by
  have ht : ¬(held front).getByte 3 ≠ 0#8 := by
    rw [append_assoc] at hs
    rw [not_not]
    exact front_third hs (by simp [hl])
  simp only [mbrtoc16, if_neg ht, mbrtoc32_part hs hl]

theorem mbrtoc16_last (hs : utf8 c = front ++ last) (hl : last ≠ []) (after) :
    mbrtoc16 (held front) (last ++ after) = if c.toNat = 0 then (.bytes 0, .initial, none)
      else if c.toNat < 0x10000 then (.bytes last.length, .initial, some (unit c))
      else (.bytes last.length, waiting (offset c % 1024) last.length,
        some (high (offset c / 1024))) := by
  have ht : ¬(held front).getByte 3 ≠ 0#8 := not_not.mpr (front_third hs hl)
  have hb := char_lt c
  have hn : (ofNat 32 c.toNat).toNat = c.toNat := by
    rw [toNat_ofNat, mod_eq_of_lt (by omega)]
  obtain ⟨k, hk⟩ := exists_eq_succ_of_ne_zero (List.length_pos_iff.mpr hl).ne'
  rw [mbrtoc16, if_neg ht, mbrtoc32_last hs hl after, hk]
  by_cases h0 : c.toNat = 0
  · rw [if_pos h0, if_pos h0]
    rfl
  rw [if_neg h0, if_neg h0]
  by_cases hp : c.toNat < 0x10000
  · have hlt : ofNat 32 c.toNat < 0x10000#32 := by
      rw [lt_def, hn]
      exact hp
    have hu : (ofNat 32 c.toNat).setWidth 16 = unit c :=
      BitVec.setWidth_ofNat_of_le (by decide) _
    simp only [if_pos hlt, if_pos hp, hu]
  have hlt : ¬ofNat 32 c.toNat < 0x10000#32 := by
    rw [lt_def, hn]
    exact hp
  have hsa : ¬0x10ffff#32 < ofNat 32 c.toNat := by
    rw [lt_def, hn]
    exact not_lt.mpr (le_of_lt_succ hb)
  simp only [if_neg hlt, if_neg hsa, if_neg hp, beginSurrogate_eq (not_lt.mp hp)]

variable {units : List (BitVec 16)}

theorem Reading.done_of_nil (h : Reading r []) : r.Done := by
  generalize hu : ([] : List (BitVec 16)) = units at h
  cases h with
  | done hd => exact hd
  | inside c cs front last hs _ _ _ =>
    unfold unitsFrom at hu
    split at hu
    · cases hu
    · split at hu <;> cases hu
  | waiting => cases hu

section
variable (h : Reading r units)
include h

theorem Reading.call (n) :
    ∃ r' new units', r.call n = some r' ∧ r'.units = r.units ++ new ∧ units = new ++ units' ∧
      Reading r' units' ∧ (r.rest.length ≤ n → units ≠ [] → new ≠ []) := by
  cases h with
  | done hd =>
    refine ⟨r, [], [], ?_, (append_nil _).symm, rfl, .done hd, fun _ hne => hne⟩
    have hc : mbrtoc16 .initial [] = (.incomplete, .initial, none) := by decide
    simp only [Reader.call, hd.1, hd.2, take_nil, hc, drop_nil]
    rw [← hd.1, ← hd.2]
  | waiting m nconv cs hm hp hle hps hr =>
    refine ⟨r.take .initial (some (low m)) 0, [low m], unitsFrom (low m) cs, ?_, rfl, rfl,
      .boundary cs rfl hr, fun _ _ => cons_ne_nil _ _⟩
    simp only [Reader.call, mbrtoc16, hps, if_pos (waiting_third hp hle m),
      finishSurrogate_waiting hm]
  | inside c cs front last hs hla hps hr =>
    by_cases hn : n < last.length
    · have ho : r.rest.take n = last.take n := by
        rw [hr, take_append_of_le_length (le_of_lt hn)]
      have hpr : utf8 c = front ++ last.take n ++ last.drop n := by
        rw [append_assoc, take_append_drop, hs]
      have hlt : last.drop n ≠ [] := by
        rw [← length_pos_iff, length_drop]
        omega
      refine ⟨{ r with ps := held (front ++ last.take n), rest := r.rest.drop n }, [], _, ?_,
        (append_nil _).symm, rfl, .inside c cs _ _ hpr hlt rfl ?_, ?_⟩
      · simp only [Reader.call, ho, hps, mbrtoc16_part hpr hlt, length_take,
          min_eq_left (le_of_lt hn)]
      · rw [hr, drop_append_of_le_length (le_of_lt hn)]
      intro ha
      rw [hr, length_append] at ha
      omega
    have ho : ∃ after, r.rest.take n = last ++ after := by
      refine ⟨(cs.flatMap utf8).take (n - last.length), ?_⟩
      rw [hr, take_append, take_of_length_le (not_lt.mp hn)]
    obtain ⟨after, hat⟩ := ho
    have hdr : r.rest.drop last.length = cs.flatMap utf8 := by rw [hr, drop_left]
    have hp := List.length_pos_iff.mpr hla
    have hmx : max last.length 1 = last.length := max_eq_left hp
    have hmr := mbrtoc16_last hs hla after
    rw [← hat, ← hps] at hmr
    rw [unitsFrom_cons]
    by_cases h0 : c.toNat = 0
    · have hoe : last.length = 1 := by
        have hl := congrArg length hs
        rw [utf8_of_lt (by omega), length_singleton, length_append] at hl
        omega
      rw [if_pos h0] at hmr ⊢
      refine ⟨r.take .initial none 1, [r.pc16], unitsFrom r.pc16 cs, ?_, rfl, rfl,
        .boundary cs rfl (hoe ▸ hdr), fun _ _ => cons_ne_nil _ _⟩
      simp only [Reader.call, hmr]
      rfl
    rw [if_neg h0] at hmr ⊢
    by_cases hpn : c.toNat < 0x10000
    · rw [if_pos hpn] at hmr ⊢
      refine ⟨r.take .initial (some (unit c)) last.length, [unit c], unitsFrom (unit c) cs, ?_,
        rfl, rfl, .boundary cs rfl hdr, fun _ _ => cons_ne_nil _ _⟩
      simp only [Reader.call, hmr, hmx]
    rw [if_neg hpn] at hmr ⊢
    have hle : last.length ≤ 4 := by
      have hl := utf8_length_le c
      rw [hs, length_append] at hl
      omega
    refine ⟨r.take (Utf16.waiting (offset c % 1024) last.length)
      (some (high (offset c / 1024))) last.length, [high (offset c / 1024)], _, ?_, rfl, rfl,
      .waiting _ _ cs (mod_lt _ (by decide)) hp hle rfl hdr,
      fun _ _ => cons_ne_nil _ _⟩
    simp only [Reader.call, hmr, hmx]

theorem Reading.run (ns) : ∃ r' units', r.run ns = some r' ∧ r.units ++ units = r'.units ++ units' ∧
      Reading r' units' := by
  induction ns generalizing r units with
  | nil => exact ⟨r, units, rfl, rfl, h⟩
  | cons n ns ih =>
    obtain ⟨r1, new, units1, hc, hn, rfl, h1, -⟩ := h.call n
    obtain ⟨r', units', hr, hu, h'⟩ := ih h1
    refine ⟨r', units', ?_, ?_, h'⟩
    · simp only [Reader.run, hc, bind_eq_bind, bind_some, hr]
    · rw [← hu, hn, append_assoc]

theorem Reading.eq_nil_of_done (hd : r.Done) : units = [] := by
  cases h with
  | done => rfl
  | inside c cs front last _ hl _ hr =>
    have hep := hd.1
    rw [hr, append_eq_nil_iff] at hep
    exact absurd hep.1 hl
  | waiting n nconv cs _ hp hle hps _ =>
    have ht := waiting_third hp hle n
    rw [← hps, hd.2] at ht
    exact absurd rfl ht

theorem Reading.finishes : ∃ ns r', r.run ns = some r' ∧ r'.Done := by
  induction hl : units.length using Nat.strong_induction_on generalizing r units with
  | _ k ih =>
    by_cases hn : units = []
    · subst hn
      exact ⟨[], r, rfl, h.done_of_nil⟩
    obtain ⟨r1, new, units1, hc, -, rfl, h1, hnw⟩ := h.call r.rest.length
    have hp := List.length_pos_iff.mpr (hnw le_rfl hn)
    rw [length_append] at hl
    obtain ⟨ns, r', hr, hd⟩ := ih units1.length (by omega) h1 rfl
    exact ⟨r.rest.length :: ns, r', by
      simp only [Reader.run, hc, bind_eq_bind, bind_some, hr], hd⟩

end

theorem read_units (pc16 cs ns) : ∃ r, (Reader.start pc16 (cs.flatMap utf8)).run ns = some r ∧
      (r.Done → r.units = unitsFrom pc16 cs) ∧ ∃ ms r', r.run ms = some r' ∧ r'.Done := by
  have hs : Reading (Reader.start pc16 (cs.flatMap utf8)) (unitsFrom pc16 cs) :=
    .boundary cs rfl rfl
  obtain ⟨r, units, hrn, hu, hr⟩ := hs.run ns
  refine ⟨r, hrn, ?_, hr.finishes⟩
  intro hd
  rw [hr.eq_nil_of_done hd, append_nil] at hu
  exact hu.symm

def afterHigh (n : ℕ) : MbState := (c16rtomb .initial (high n)).2.1

theorem c16rtomb_high : ∀ n < 1024, c16rtomb .initial (high n) = (.bytes 0, afterHigh n, []) ∧
    ((afterHigh n).isInitial ↔ n = 0) ∧
    ((afterHigh n).getByte 3).setWidth 32 <<< 16 ||| ((afterHigh n).getByte 2).setWidth 32 <<< 8 =
      ofNat 32 (n * 1024) := by
  decide +kernel

theorem low_spec : ∀ n < 1024, isLowSurrogate (low n) ∧ isHighSurrogate (low n) = false ∧
    (low n).setWidth 32 &&& ~~~0xdc00#32 = ofNat 32 n := by
  decide +kernel

theorem c16rtomb_low (h : n < 1024) :
    c16rtomb .initial (low n) = (.illegal .einval, .initial, []) := by
  obtain ⟨hl, hh, -⟩ := low_spec n h
  have hii : MbState.initial.isInitial := by decide
  generalize low n = c16 at *
  rw [c16rtomb, if_pos hii, hh, if_neg nofun, if_pos hl]

theorem c16rtomb_unit (h : c.toNat < 0x10000) :
    c16rtomb .initial (unit c) = (.bytes (utf8 c).length, .initial, utf8 c) := by
  have hv : c.toNat.isValidChar := c.valid
  have hn : (unit c).toNat = c.toNat := by
    rw [unit, toNat_ofNat, mod_eq_of_lt h]
  have hh : isHighSurrogate (unit c) = false := by
    simp only [isHighSurrogate, Bool.and_eq_false_iff, decide_eq_false_iff_not, le_def,
      lt_def, hn, toNat_ofNat]
    rcases hv with hv | hv <;> omega
  have hl : isLowSurrogate (unit c) = false := by
    simp only [isLowSurrogate, Bool.and_eq_false_iff, decide_eq_false_iff_not, le_def,
      lt_def, hn, toNat_ofNat]
    rcases hv with hv | hv <;> omega
  have hw : (unit c).setWidth 32 = ofNat 32 c.toNat := by
    apply eq_of_toNat_eq
    rw [toNat_setWidth, hn, toNat_ofNat]
  have hii : MbState.initial.isInitial := by decide
  generalize unit c = c16 at *
  rw [c16rtomb, if_pos hii, hh, if_neg nofun, hl, if_neg nofun, hw, c32rtomb_spec]

theorem join_offset (h : n < 1024 * 1024) :
    (ofNat 32 (n / 1024 * 1024) ||| ofNat 32 (n % 1024)) + 0x10000#32 = ofNat 32 (n + 0x10000) := by
  have ho : n / 1024 * 1024 ||| n % 1024 = n := by
    have ha := two_pow_add_eq_or_of_lt (i := 10) (mod_lt n (by decide)) (n / 1024)
    rw [mul_comm (n / 1024)]
    exact ha.symm.trans (div_add_mod n 1024)
  have hb : ofNat 32 (n / 1024 * 1024) ||| ofNat 32 (n % 1024) = ofNat 32 n := by
    apply eq_of_toNat_eq
    rw [toNat_or, toNat_ofNat, toNat_ofNat, toNat_ofNat,
      mod_eq_of_lt (show n / 1024 * 1024 < 2 ^ 32 by omega),
      mod_eq_of_lt (show n % 1024 < 2 ^ 32 by omega), mod_eq_of_lt (show n < 2 ^ 32 by omega), ho]
  rw [hb, BitVec.ofNat_add]

theorem c16rtomb_pair (h : 0x10000 ≤ c.toNat) (hn : offset c / 1024 ≠ 0) :
    c16rtomb (afterHigh (offset c / 1024)) (low (offset c % 1024)) =
      (.bytes (utf8 c).length, .initial, utf8 c) := by
  obtain ⟨-, hs, hb⟩ :=
    c16rtomb_high (offset c / 1024) (Nat.div_lt_of_lt_mul (offset_lt c))
  have hm : offset c % 1024 < 1024 := mod_lt _ (by decide)
  obtain ⟨hl, -, ht⟩ := low_spec (offset c % 1024) hm
  have hii : (afterHigh (offset c / 1024)).isInitial = false := by
    rw [Bool.eq_false_iff]
    exact fun hte => hn (hs.mp hte)
  have ho : offset c + 0x10000 = c.toNat := by
    unfold offset
    omega
  have hj := join_offset (offset_lt c)
  rw [ho] at hj
  rw [c16rtomb, hii, if_neg nofun, hl, if_neg (show ¬(!true) = true by decide), hb, ht, hj]
  dsimp only
  rw [c32rtomb_spec]

/-- Characters that come through: not null, and not among those whose high surrogate is the first
one, which leaves no trace. -/
def Kept (c : Char) : Prop := c.toNat ≠ 0 ∧ ¬(0x10000 ≤ c.toNat ∧ c.toNat < 0x10400)

theorem write_cons {ps' bytes} (h : c16rtomb ps c16 = (.bytes bytes.length, ps', bytes)) (units) :
    write ps (c16 :: units) = (write ps' units).map (bytes ++ ·) := by
  simp only [write, h, take_length]

theorem write_high (h : n < 1024) (units) :
    write .initial (high n :: units) = write (afterHigh n) units := by
  have hw : write .initial (high n :: units) = (write (afterHigh n) units).map ([] ++ ·) :=
    write_cons (c16rtomb_high n h).1 units
  rw [hw]
  cases write (afterHigh n) units <;> rfl

theorem write_low (h : n < 1024) (units) : write .initial (low n :: units) = none := by
  have hl := c16rtomb_low h
  generalize low n = c16 at hl ⊢
  simp only [write, hl]

theorem write_kept (h : Kept c) (pc16 cs) : ∃ pc16', write .initial (unitsFrom pc16 (c :: cs)) =
        (write .initial (unitsFrom pc16' cs)).map (utf8 c ++ ·) ∧
      (c.toNat < 0x10000 ∧ pc16' = unit c ∨ ∃ n < 1024, pc16' = low n) := by
  rw [unitsFrom_cons, if_neg h.1]
  by_cases hp : c.toNat < 0x10000
  · rw [if_pos hp]
    exact ⟨unit c, write_cons (c16rtomb_unit hp) _, .inl ⟨hp, rfl⟩⟩
  rw [if_neg hp]
  have hg := not_lt.mp hp
  have hn : offset c / 1024 ≠ 0 := by
    have ho := h.2
    unfold offset
    omega
  refine ⟨low (offset c % 1024), ?_, .inr ⟨offset c % 1024, mod_lt _ (by decide), rfl⟩⟩
  rw [write_high (Nat.div_lt_of_lt_mul (offset_lt c)), write_cons (c16rtomb_pair hg hn)]

theorem write_all_kept (h : ∀ c ∈ cs, Kept c) (pc16 : BitVec 16) :
    write .initial (unitsFrom pc16 cs) = some (cs.flatMap utf8) := by
  induction cs generalizing pc16 with
  | nil => rfl
  | cons c cs ih =>
    obtain ⟨pc16', hw, -⟩ := write_kept (h c mem_cons_self) pc16 cs
    rw [hw, ih fun c' hc' => h c' (mem_cons_of_mem c hc')]
    rfl

/-- What the variable holds at a null character is not a null. -/
def Stale (pc16 : BitVec 16) : Prop :=
  (∃ c : Char, c.toNat ≠ 0 ∧ c.toNat < 0x10000 ∧ pc16 = unit c) ∨ ∃ n < 1024, pc16 = low n

theorem head_utf8_ne_zero (h : c.toNat ≠ 0) : (utf8 c).head? ≠ some 0#8 := by
  by_cases ha : c.toNat < 0x80
  · rw [utf8_of_lt ha]
    intro hh
    have hz := congrArg toNat (Option.some.inj hh)
    rw [toNat_ofNat, mod_eq_of_lt (by omega)] at hz
    exact h hz
  · obtain ⟨first, rest, l, hu8, hs⟩ := utf8_sequence (not_lt.mp ha)
    rw [hu8]
    intro hh
    exact hs.first_ne_zero (Option.some.inj hh)

theorem write_not_kept (h : ∃ c ∈ cs, ¬Kept c) {pc16}
    (hs : Stale pc16) : write .initial (unitsFrom pc16 cs) ≠ some (cs.flatMap utf8) := by
  induction cs generalizing pc16 with
  | nil =>
    obtain ⟨c, hc, -⟩ := h
    cases hc
  | cons c cs ih =>
    by_cases hk : Kept c
    · obtain ⟨pc16', hw, hnx⟩ := write_kept hk pc16 cs
      have hs' : Stale pc16' := by
        rcases hnx with ⟨hp, hu⟩ | hl
        · exact .inl ⟨c, hk.1, hp, hu⟩
        · exact .inr hl
      have hrs : ∃ c' ∈ cs, ¬Kept c' := by
        obtain ⟨c', hc', hb⟩ := h
        rcases List.mem_cons.mp hc' with rfl | hc'
        · exact absurd hk hb
        · exact ⟨c', hc', hb⟩
      rw [hw, flatMap_cons]
      intro heq
      obtain ⟨bytes, hbs, ha⟩ := Option.map_eq_some_iff.mp heq
      exact ih hrs hs' (hbs.trans (congrArg some (append_cancel_left ha)))
    rw [unitsFrom_cons]
    by_cases h0 : c.toNat = 0
    · rw [if_pos h0, flatMap_cons, utf8_of_lt (by omega), h0]
      rcases hs with ⟨c', hne, hp, rfl⟩ | ⟨n, hn, rfl⟩
      · rw [write_cons (c16rtomb_unit hp)]
        intro heq
        obtain ⟨bytes, -, ha⟩ := Option.map_eq_some_iff.mp heq
        apply head_utf8_ne_zero hne
        obtain ⟨first, rest, hu8⟩ := exists_cons_of_ne_nil (utf8_ne_nil c')
        rw [hu8, cons_append, singleton_append, List.cons.injEq] at ha
        rw [hu8, ha.1]
        rfl
      · rw [write_low hn]
        exact (some_ne_none _).symm
    · have hr : 0x10000 ≤ c.toNat ∧ c.toNat < 0x10400 := by
        by_contra ho
        exact hk ⟨h0, ho⟩
      have hz : offset c / 1024 = 0 := by
        unfold offset
        omega
      have hf : afterHigh 0 = .initial := by decide +kernel
      rw [if_neg h0, if_neg (not_lt.mpr hr.1), hz, write_high (by decide), hf,
        write_low (mod_lt _ (by decide))]
      exact (some_ne_none _).symm

/-- Encoding characters, reading them with `mbrtoc16` and writing the units with `c16rtomb` gives
the encoding back, however the bytes are cut, exactly if the characters all come through. -/
theorem round_trip_iff (cs : List Char) : (∀ (pc16 : BitVec 16) (ns : List ℕ),
      ∃ r, (Reader.start pc16 (cs.flatMap utf8)).run ns = some r ∧
        (r.Done → write .initial r.units = some (cs.flatMap utf8)) ∧
        ∃ ms r', r.run ms = some r' ∧ r'.Done) ↔ ∀ c ∈ cs, Kept c := by
  constructor
  · intro h
    by_contra hb
    obtain ⟨c, hc, hk⟩ : ∃ c ∈ cs, ¬Kept c := by simpa using hb
    have hs : Stale (unit 'x') := .inl ⟨'x', by decide, by decide, rfl⟩
    have hst : Reading (Reader.start (unit 'x') (cs.flatMap utf8)) (unitsFrom (unit 'x') cs) :=
      .boundary cs rfl rfl
    obtain ⟨ns, r, hr, hd⟩ := hst.finishes
    obtain ⟨r', hr', hwr, -⟩ := h (unit 'x') ns
    cases hr.symm.trans hr'
    obtain ⟨r'', hr'', hu, -⟩ := read_units (unit 'x') cs ns
    cases hr.symm.trans hr''
    have hw := hwr hd
    rw [hu hd] at hw
    exact write_not_kept ⟨c, hc, hk⟩ hs hw
  · intro h pc16 ns
    obtain ⟨r, hr, hu, hed⟩ := read_units pc16 cs ns
    refine ⟨r, hr, ?_, hed⟩
    intro hd
    rw [hu hd, write_all_kept h]

/-- U+10000 is read as two units, and the second is refused; a null behind an `a` is read as
another `a`. -/
theorem round_trip_fails :
    ((Reader.start 0#16 ([Char.ofNat 0x10000].flatMap utf8)).run [4, 0]).map Reader.units =
        some [0xd800#16, 0xdc00#16] ∧ write .initial [0xd800#16, 0xdc00#16] = none ∧
      ((Reader.start 0#16 (['a', Char.ofNat 0].flatMap utf8)).run [2, 1]).map Reader.units =
        some [0x61#16, 0x61#16] ∧
      write .initial [0x61#16, 0x61#16] = some ([('a' : Char), 'a'].flatMap utf8) := by
  decide +kernel

end Utf16
