import Mathlib

/-! One writer of the mutable properties of an area, and one reader of one of them. The serial of a
property holds the length of its value and a count, odd during a write, while the dirty backup area
has the old value. Every load or store of a serial and every copy of a byte, in any order, is one
step. -/
namespace SystemPropertyUpdate

open Function (update update_of_ne update_self)
open List Nat Bool

def propValueMax : ℕ := 92

abbrev Byte : Type := BitVec 8

def serialDirty (serial : BitVec 32) : Bool := serial &&& 1#32 ≠ 0

def serialValueLen (serial : BitVec 32) : ℕ := (serial >>> 24).toNat

/-- The serial that `Update` stores at its end. -/
def newSerial (isReadOnly : Bool) (len : ℕ) (serial : BitVec 32) : BitVec 32 :=
  BitVec.ofNat 32 len <<< 24 ||| ((if isReadOnly then 0 else serial + 1) &&& 0xffffff#32)

structure PropInfo where
  serial : BitVec 32
  value : ℕ → Byte

structure PropArea (Name : Type) where
  info : Name → PropInfo
  dirtyBackupArea : ℕ → Byte
  serial : BitVec 32

/-- The property, the new value and its length. -/
structure Update (Name : Type) where
  pi : Name
  value : ℕ → Byte
  len : ℕ

/-- Where the writer is. A copy goes on while there are bytes `left`; the store of the serial comes
next. -/
inductive WriterPc (Name : Type) where
  | idle
  | backup (u : Update Name) (serial : BitVec 32) (left : Finset ℕ)
  | write (u : Update Name) (serial : BitVec 32) (left : Finset ℕ)
  | areaLoad
  | areaStore (serial : BitVec 32)

structure Writer (Name : Type) where
  todo : List (Update Name)
  pc : WriterPc Name

inductive ReaderPc where
  | start
  | copy (serial : BitVec 32) (left : Finset ℕ)
  | done (serial : BitVec 32)
  deriving DecidableEq

structure Reader where
  pc : ReaderPc
  value : ℕ → Byte

/-- The area, the writer and the reader. No step reads the ghosts: `seen` is what the property has
held since the read began, newest first, and `loaded` its length at the last load of the serial. -/
structure State (Name : Type) where
  area : PropArea Name
  writer : Writer Name
  reader : Reader
  seen : List (List Byte)
  loaded : ℕ

def bytes (len : ℕ) (buffer : ℕ → Byte) : List Byte := (List.range (len + 1)).map buffer

section
variable {Name : Type} [DecidableEq Name]

def source (a : PropArea Name) (p : Name) (serial : BitVec 32) : ℕ → Byte :=
  if serialDirty serial then a.dirtyBackupArea else (a.info p).value

def held (a : PropArea Name) (p : Name) : List Byte :=
  bytes (serialValueLen (a.info p).serial) (source a p (a.info p).serial)

def PropArea.setSerial (a : PropArea Name) (p : Name) (serial : BitVec 32) : PropArea Name :=
  { a with info := update a.info p { a.info p with serial := serial } }

def PropArea.setByte (a : PropArea Name) (p : Name) (i : ℕ) (b : Byte) : PropArea Name :=
  { a with
    info := update a.info p
      { a.info p with value := update (a.info p).value i b } }

def PropArea.backUp (a : PropArea Name) (p : Name) (i : ℕ) : PropArea Name :=
  { a with dirtyBackupArea := update a.dirtyBackupArea i ((a.info p).value i) }

/-- The last store of an update of `q`; a reader of `p` has seen the value. -/
def State.publish (p : Name) (s : State Name) (q : Name) (serial : BitVec 32) : State Name :=
  let a := s.area.setSerial q serial
  let reading := match s.reader.pc with
    | .copy _ _ => true
    | _ => false
  { s with
    area := a
    seen := if q = p ∧ reading = true then held a p :: s.seen else s.seen }

/-- A step of `Update`, of a mutable property. A copy takes the byte `pick` next. -/
def writerStep (p : Name) (pick : ℕ) (s : State Name) : State Name :=
  match s.writer.pc with
  | .idle =>
    match s.writer.todo with
    | [] => s
    | u :: rest =>
      if u.len ≥ propValueMax then { s with writer := ⟨rest, .idle⟩ }
      else
        let serial := (s.area.info u.pi).serial
        { s with writer := ⟨rest, .backup u serial (Finset.range (serialValueLen serial + 1))⟩ }
  | .backup u serial left =>
    if left = ∅ then
      let serial := serial ||| 1
      { s with
        area := s.area.setSerial u.pi serial
        writer := { s.writer with pc := .write u serial (Finset.range (u.len + 1)) } }
    else if pick ∈ left then
      { s with
        area := s.area.backUp u.pi pick
        writer := { s.writer with pc := .backup u serial (left.erase pick) } }
    else s
  | .write u serial left =>
    if left = ∅ then
      { s.publish p u.pi (newSerial false u.len serial) with
        writer := { s.writer with pc := .areaLoad } }
    else if pick ∈ left then
      { s with
        area := s.area.setByte u.pi pick (u.value pick)
        writer := { s.writer with pc := .write u serial (left.erase pick) } }
    else s
  | .areaLoad => { s with writer := { s.writer with pc := .areaStore s.area.serial } }
  | .areaStore serial =>
    { s with
      area := { s.area with serial := serial + 1 }
      writer := { s.writer with pc := .idle } }

def State.loads (s : State Name) (serial : BitVec 32) : State Name :=
  { s with
    reader := { s.reader with pc := .copy serial (Finset.range (serialValueLen serial + 1)) }
    loaded := s.seen.length }

/-- A step of `ReadMutablePropertyValue`. A copy takes the byte `pick` next. -/
def readerStep (p : Name) (pick : ℕ) (s : State Name) : State Name :=
  match s.reader.pc with
  | .start => { s with seen := [held s.area p] }.loads (s.area.info p).serial
  | .copy serial left =>
    if left = ∅ then
      if serial = (s.area.info p).serial then
        { s with reader := { s.reader with pc := .done serial } }
      else s.loads (s.area.info p).serial
    else if pick ∈ left then
      { s with
        reader := ⟨.copy serial (left.erase pick),
          update s.reader.value pick (source s.area p serial pick)⟩ }
    else s
  | .done _ => s

inductive Move where
  | writer (pick : ℕ)
  | reader (pick : ℕ)

def step (p : Name) (s : State Name) : Move → State Name
  | .writer pick => writerStep p pick s
  | .reader pick => readerStep p pick s

def run (p : Name) (moves : List Move) (s : State Name) : State Name := moves.foldl (step p) s

def initial (a : PropArea Name) (updates : List (Update Name)) : State Name :=
  ⟨a, ⟨updates, .idle⟩, ⟨.start, fun _ => 0⟩, [], 0⟩

end

variable {serial : BitVec 32}

section

def generation (serial : BitVec 32) : ℕ := serial.toNat / 2 % 2 ^ 23

theorem serialDirty_iff : serialDirty serial ↔ serial.toNat % 2 = 1 := by
  have ha : (serial &&& 1#32).toNat = serial.toNat % 2 := by
    rw [BitVec.toNat_and]
    exact and_one_is_mod _
  rw [serialDirty, decide_eq_true_iff, ne_eq, ← BitVec.toNat_inj, ha]
  change ¬serial.toNat % 2 = 0 ↔ _
  omega

theorem serialDirty_eq_false_iff : serialDirty serial = false ↔ serial.toNat % 2 = 0 := by
  rw [← not_eq_true, serialDirty_iff]
  omega

theorem serialValueLen_eq : serialValueLen serial = serial.toNat / 2 ^ 24 := by
  rw [serialValueLen, BitVec.toNat_ushiftRight, shiftRight_eq_div_pow]

section
variable (hcn : serialDirty serial = false)
include hcn

theorem toNat_or_one : (serial ||| 1).toNat = serial.toNat + 1 := by
  rw [serialDirty_eq_false_iff] at hcn
  have ho := two_pow_add_eq_or_of_lt (i := 1) (b := 1) (by decide) (serial.toNat / 2)
  have hen : 2 ^ 1 * (serial.toNat / 2) = serial.toNat := by
    omega
  rw [hen] at ho
  rw [BitVec.toNat_or]
  exact ho.symm

theorem serialDirty_or_one : serialDirty (serial ||| 1) = true := by
  rw [serialDirty_iff, toNat_or_one hcn]
  rw [serialDirty_eq_false_iff] at hcn
  omega

theorem serialValueLen_or_one : serialValueLen (serial ||| 1) = serialValueLen serial := by
  rw [serialValueLen_eq, serialValueLen_eq, toNat_or_one hcn]
  rw [serialDirty_eq_false_iff] at hcn
  omega

theorem generation_or_one : generation (serial ||| 1) = generation serial := by
  rw [generation, generation, toNat_or_one hcn]
  rw [serialDirty_eq_false_iff] at hcn
  omega

end

variable {len : ℕ}

section
variable (hln : len < propValueMax)
include hln

theorem toNat_newSerial :
    (newSerial false len serial).toNat = 2 ^ 24 * len + (serial.toNat + 1) % 2 ^ 24 := by
  have hln : len < 92 := hln
  have hl : (serial.toNat + 1) % 2 ^ 24 < 2 ^ 24 := mod_lt _ (by decide)
  have hh : (BitVec.ofNat 32 len <<< 24).toNat = 2 ^ 24 * len := by
    rw [BitVec.toNat_shiftLeft, BitVec.toNat_ofNat, shiftLeft_eq]
    omega
  have hm : ((serial + 1) &&& 0xffffff#32).toNat = (serial.toNat + 1) % 2 ^ 24 := by
    rw [BitVec.toNat_and, BitVec.toNat_add]
    have ha := and_two_pow_sub_one_eq_mod ((serial.toNat + 1) % 2 ^ 32) 24
    rw [mod_mod_of_dvd _ (by decide : 2 ^ 24 ∣ 2 ^ 32)] at ha
    exact ha
  rw [newSerial, BitVec.toNat_or, hh]
  rw [if_neg nofun, hm, two_pow_add_eq_or_of_lt hl]

theorem serialValueLen_newSerial : serialValueLen (newSerial false len serial) = len := by
  rw [serialValueLen_eq, toNat_newSerial hln]
  omega

theorem serialDirty_newSerial
    (hd : serialDirty serial) : serialDirty (newSerial false len serial) = false := by
  rw [serialDirty_iff] at hd
  rw [serialDirty_eq_false_iff, toNat_newSerial hln]
  omega

theorem generation_newSerial (hd : serialDirty serial) :
    generation (newSerial false len serial) = (generation serial + 1) % 2 ^ 23 := by
  rw [serialDirty_iff] at hd
  rw [generation, generation, toNat_newSerial hln]
  omega

end

end

variable {left : Finset ℕ}

section
variable {Name : Type} [DecidableEq Name] {a : PropArea Name} {p q : Name} {s s' : State Name}

theorem bytes_congr {len b b'} (h : ∀ i ≤ len, b i = b' i) : bytes len b = bytes len b' :=
  map_congr_left fun i hi => h i (Nat.lt_succ_iff.mp (List.mem_range.mp hi))

@[simp] theorem setSerial_self (serial) :
    (a.setSerial p serial).info p = ⟨serial, (a.info p).value⟩ := by
  simp [PropArea.setSerial]

theorem setSerial_of_ne (hq : q ≠ p) (serial) : (a.setSerial p serial).info q = a.info q := by
  simp [PropArea.setSerial, hq]

@[simp] theorem setByte_self (i b) :
    (a.setByte p i b).info p = ⟨(a.info p).serial, update (a.info p).value i b⟩ := by
  simp [PropArea.setByte]

theorem setByte_of_ne (hq : q ≠ p) (i b) : (a.setByte p i b).info q = a.info q := by
  simp [PropArea.setByte, hq]

theorem setByte_serial (i b) (q : Name) :
    ((a.setByte p i b).info q).serial = (a.info q).serial := by
  by_cases hq : q = p
  · subst hq
    simp
  · rw [setByte_of_ne hq]

def WriterPc.quiet : WriterPc Name → Bool
  | .idle | .areaLoad | .areaStore _ => true
  | .backup _ _ _ | .write _ _ _ => false

inductive WriterEffect (p : Name) (s : State Name) : State Name → Prop where
  | stutters : WriterEffect p s s
  | rests (pc : WriterPc Name) (todo : List (Update Name)) (serial : BitVec 32)
      (was : s.writer.pc.quiet) (quiet : pc.quiet)
      (subset : ∀ u ∈ todo, u ∈ s.writer.todo) :
      WriterEffect p s { s with area := { s.area with serial := serial }, writer := ⟨todo, pc⟩ }
  | begins (u : Update Name) (rest : List (Update Name)) (was : s.writer.pc.quiet)
      (todo : s.writer.todo = u :: rest) (len : u.len < propValueMax) :
      WriterEffect p s
        { s with
          writer := ⟨rest, .backup u (s.area.info u.pi).serial
            (Finset.range (serialValueLen (s.area.info u.pi).serial + 1))⟩ }
  | backsUp (u : Update Name) (serial : BitVec 32) (left : Finset ℕ) (i : ℕ)
      (pc : s.writer.pc = .backup u serial left) :
      WriterEffect p s
        { s with
          area := s.area.backUp u.pi i
          writer := { s.writer with pc := .backup u serial (left.erase i) } }
  | dirties (u : Update Name) (serial : BitVec 32) (pc : s.writer.pc = .backup u serial ∅) :
      WriterEffect p s
        { s with
          area := s.area.setSerial u.pi (serial ||| 1)
          writer := { s.writer with pc := .write u (serial ||| 1) (Finset.range (u.len + 1)) } }
  | writes (u : Update Name) (serial : BitVec 32) (left : Finset ℕ) (i : ℕ)
      (pc : s.writer.pc = .write u serial left) :
      WriterEffect p s
        { s with
          area := s.area.setByte u.pi i (u.value i)
          writer := { s.writer with pc := .write u serial (left.erase i) } }
  | publishes (u : Update Name) (serial : BitVec 32) (pc : s.writer.pc = .write u serial ∅) :
      WriterEffect p s
        { s.publish p u.pi (newSerial false u.len serial) with
          writer := { s.writer with pc := .areaLoad } }

theorem writerStep_effect (p : Name) (pick s) : WriterEffect p s (writerStep p pick s) := by
  cases hp : s.writer.pc with
  | idle =>
    have was : s.writer.pc.quiet := by rw [hp]; rfl
    cases ht : s.writer.todo with
    | nil =>
      simp only [writerStep, hp, ht]
      exact .stutters
    | cons u rest =>
      have subset : ∀ v ∈ rest, v ∈ s.writer.todo := by
        intro v hv
        rw [ht]
        exact mem_cons_of_mem u hv
      simp only [writerStep, hp, ht]
      split
      · exact .rests .idle rest s.area.serial was rfl subset
      · rename_i hln
        exact .begins u rest was ht (Nat.lt_of_not_le hln)
  | backup u serial left =>
    simp only [writerStep, hp]
    split
    · rename_i hl
      subst hl
      exact .dirties u serial hp
    · split
      · exact .backsUp u serial left pick hp
      · exact .stutters
  | write u serial left =>
    simp only [writerStep, hp]
    split
    · rename_i hl
      subst hl
      exact .publishes u serial hp
    · split
      · exact .writes u serial left pick hp
      · exact .stutters
  | areaLoad =>
    simp only [writerStep, hp]
    exact .rests (.areaStore s.area.serial) s.writer.todo s.area.serial (by rw [hp]; rfl) rfl
      fun _ hu => hu
  | areaStore serial =>
    simp only [writerStep, hp]
    exact .rests .idle s.writer.todo (serial + 1) (by rw [hp]; rfl) rfl fun _ hu => hu

/-- Values fit, at most the property being written is dirty, with its old value in the backup area,
and what has been copied is a copy. -/
structure Consistent (s : State Name) : Prop where
  lens : ∀ q, serialValueLen (s.area.info q).serial < propValueMax
  dirty : ∀ q, serialDirty (s.area.info q).serial →
    ∃ u serial left, s.writer.pc = .write u serial left ∧ u.pi = q
  backup : ∀ u serial left, s.writer.pc = .backup u serial left → u.len < propValueMax ∧
    (s.area.info u.pi).serial = serial ∧ serialDirty serial = false ∧
    ∀ i ≤ serialValueLen serial, i ∉ left → s.area.dirtyBackupArea i = (s.area.info u.pi).value i
  write : ∀ u serial left, s.writer.pc = .write u serial left → u.len < propValueMax ∧
    (s.area.info u.pi).serial = serial ∧ serialDirty serial ∧
    ∀ i ≤ u.len, i ∉ left → (s.area.info u.pi).value i = u.value i

omit [DecidableEq Name] in
theorem Consistent.clean_of_quiet (h : Consistent s) (hp : s.writer.pc.quiet) (q : Name) :
    serialDirty (s.area.info q).serial = false := by
  rw [eq_false_iff]
  intro hd
  obtain ⟨u, serial, left, hw, -⟩ := h.dirty q hd
  rw [hw] at hp
  cases hp

variable {u : Update Name}

omit [DecidableEq Name] in
theorem Consistent.clean_of_backup
    (h : Consistent s) (hp : s.writer.pc = .backup u serial left) (q : Name) :
    serialDirty (s.area.info q).serial = false := by
  rw [eq_false_iff]
  intro hd
  obtain ⟨v, serial', left', hw, -⟩ := h.dirty q hd
  rw [hw] at hp
  cases hp

omit [DecidableEq Name] in
theorem Consistent.clean_of_write
    (h : Consistent s) (hp : s.writer.pc = .write u serial left) (hq : q ≠ u.pi) :
    serialDirty (s.area.info q).serial = false := by
  rw [eq_false_iff]
  intro hd
  obtain ⟨v, serial', left', hw, hv⟩ := h.dirty q hd
  rw [hp] at hw
  cases hw
  exact hq hv.symm

theorem Consistent.writer (h : Consistent s) (e : WriterEffect p s s') : Consistent s' := by
  cases e with
  | stutters => exact h
  | rests pc todo serial was quiet =>
    refine ⟨h.lens, ?_, ?_, ?_⟩
    · intro q hd
      exact absurd ((h.clean_of_quiet was q).symm.trans hd) nofun
    all_goals
      rintro u serial' left rfl
      cases quiet
  | begins u rest was todo len =>
    refine ⟨h.lens, ?_, ?_, nofun⟩
    · intro q hd
      exact absurd ((h.clean_of_quiet was q).symm.trans hd) nofun
    rintro v serial left hp
    cases hp
    refine ⟨len, rfl, h.clean_of_quiet was u.pi, ?_⟩
    intro i hi hl
    exact absurd (Finset.mem_range.mpr (lt_succ_of_le hi)) hl
  | backsUp u serial left i pc =>
    obtain ⟨hln, hs, hcn, hc⟩ := h.backup u serial left pc
    refine ⟨h.lens, ?_, ?_, nofun⟩
    · intro q hd
      exact absurd ((h.clean_of_backup pc q).symm.trans hd) nofun
    rintro v serial' left' hp
    cases hp
    refine ⟨hln, hs, hcn, ?_⟩
    intro j hj hl
    change update _ i _ j = _
    by_cases hji : j = i
    · rw [hji, update_self]
      rfl
    · rw [update_of_ne hji]
      exact hc j hj fun hm => hl (Finset.mem_erase.mpr ⟨hji, hm⟩)
  | dirties u serial pc =>
    obtain ⟨hln, hs, hcn, hc⟩ := h.backup u serial ∅ pc
    refine ⟨?_, ?_, nofun, ?_⟩
    · intro q
      by_cases hq : q = u.pi
      · rw [hq, setSerial_self, serialValueLen_or_one hcn, ← hs]
        exact h.lens u.pi
      · rw [setSerial_of_ne hq]
        exact h.lens q
    · intro q hd
      by_cases hq : q = u.pi
      · exact ⟨u, _, _, rfl, hq.symm⟩
      · rw [setSerial_of_ne hq, h.clean_of_backup pc q] at hd
        cases hd
    · rintro v serial' left hp
      cases hp
      refine ⟨hln, by simp, serialDirty_or_one hcn, ?_⟩
      intro i hi hl
      exact absurd (Finset.mem_range.mpr (lt_succ_of_le hi)) hl
  | writes u serial left i pc =>
    obtain ⟨hln, hs, hd, hw⟩ := h.write u serial left pc
    refine ⟨?_, ?_, nofun, ?_⟩
    · intro q
      rw [setByte_serial]
      exact h.lens q
    · intro q hq
      rw [setByte_serial] at hq
      obtain ⟨v, serial', left', hp, hv⟩ := h.dirty q hq
      rw [pc] at hp
      cases hp
      exact ⟨u, serial, left.erase i, rfl, hv⟩
    rintro v serial' left' hp
    cases hp
    refine ⟨hln, (setByte_serial ..).trans hs, hd, ?_⟩
    intro j hj hl
    rw [setByte_self]
    by_cases hji : j = i
    · simp [hji]
    · simp only [update_of_ne hji]
      exact hw j hj fun hm => hl (Finset.mem_erase.mpr ⟨hji, hm⟩)
  | publishes u serial pc =>
    obtain ⟨hln, hs, hd, -⟩ := h.write u serial ∅ pc
    refine ⟨?_, ?_, nofun, nofun⟩
    · intro q
      change serialValueLen ((s.area.setSerial u.pi _).info q).serial < _
      by_cases hq : q = u.pi
      · rw [hq, setSerial_self, serialValueLen_newSerial hln]
        exact hln
      · rw [setSerial_of_ne hq]
        exact h.lens q
    · intro q hq
      change serialDirty ((s.area.setSerial u.pi _).info q).serial = true at hq
      by_cases hqu : q = u.pi
      · rw [hqu, setSerial_self, serialDirty_newSerial hln hd] at hq
        cases hq
      · rw [setSerial_of_ne hqu, h.clean_of_write pc hqu] at hq
        cases hq

omit [DecidableEq Name] in
theorem source_of_dirty (h : serialDirty serial) : source a p serial = a.dirtyBackupArea :=
  if_pos h

omit [DecidableEq Name] in
theorem source_of_clean (h : serialDirty serial = false) : source a p serial = (a.info p).value :=
  if_neg (by rw [h]; exact nofun)

theorem WriterEffect.source_eq (e : WriterEffect p s s') (h : Consistent s)
    (hs : (s'.area.info q).serial = (s.area.info q).serial) :
    source s'.area q (s.area.info q).serial = source s.area q (s.area.info q).serial := by
  cases e with
  | stutters | rests | begins => rfl
  | backsUp u serial left i pc =>
    have hcn := h.clean_of_backup pc q
    rw [source_of_clean hcn, source_of_clean hcn]
    rfl
  | dirties u serial pc =>
    have hcn := h.clean_of_backup pc q
    rw [source_of_clean hcn, source_of_clean hcn]
    by_cases hq : q = u.pi
    · rw [hq]
      simp
    · rw [setSerial_of_ne hq]
  | writes u serial left i pc =>
    by_cases hq : q = u.pi
    · obtain ⟨-, hw, hd, -⟩ := h.write u serial left pc
      rw [hq, hw, source_of_dirty hd, source_of_dirty hd]
      rfl
    · rw [source, source]
      rw [setByte_of_ne hq]
      rfl
  | publishes u serial pc =>
    by_cases hq : q = u.pi
    · obtain ⟨hln, hw, hd, -⟩ := h.write u serial ∅ pc
      have hn := serialDirty_newSerial hln hd
      change ((s.area.setSerial u.pi _).info q).serial = _ at hs
      rw [hq, setSerial_self, hw] at hs
      change newSerial false u.len serial = serial at hs
      rw [hs, hd] at hn
      cases hn
    · have hcn := h.clean_of_write pc hq
      rw [source_of_clean hcn, source_of_clean hcn]
      change ((s.area.setSerial u.pi _).info q).value = _
      rw [setSerial_of_ne hq]

theorem WriterEffect.held_eq (e : WriterEffect p s s') (h : Consistent s)
    (hp : ∀ u serial, s.writer.pc = .write u serial ∅ → s'.writer.pc = .areaLoad →
      u.pi ≠ q) : held s'.area q = held s.area q := by
  by_cases hs : (s'.area.info q).serial = (s.area.info q).serial
  · rw [held, held, hs, e.source_eq h hs]
  cases e with
  | stutters | rests | begins | backsUp => exact absurd rfl hs
  | writes u serial left i pc => exact absurd (setByte_serial ..) hs
  | dirties u serial pc =>
    have hq : q = u.pi := by
      by_contra hq
      exact hs (congrArg PropInfo.serial (setSerial_of_ne hq _))
    obtain ⟨-, ho, hcn, hc⟩ := h.backup u serial ∅ pc
    have hd := serialDirty_or_one hcn
    rw [held, held, hq]
    rw [setSerial_self, ho, serialValueLen_or_one hcn, source_of_dirty hd,
      source_of_clean hcn]
    exact bytes_congr fun i hi => hc i hi (Finset.notMem_empty i)
  | publishes u serial pc =>
    have hq : q ≠ u.pi := (hp u serial pc rfl).symm
    exact absurd (congrArg PropInfo.serial (setSerial_of_ne hq _)) hs

theorem held_publish (h : Consistent s) (hp : s.writer.pc = .write u serial ∅) :
    held (s.area.setSerial u.pi (newSerial false u.len serial)) u.pi = bytes u.len u.value := by
  obtain ⟨hln, -, hd, hw⟩ := h.write u serial ∅ hp
  have hcn := serialDirty_newSerial hln hd
  rw [held, setSerial_self, serialValueLen_newSerial hln, source_of_clean hcn, setSerial_self]
  exact bytes_congr fun i hi => hw i hi (Finset.notMem_empty i)

end

section
variable {Name : Type} [DecidableEq Name] {p : Name} {s s' : State Name}

/-- While the reader copies the value with this serial: if no update has ended since the serial was
loaded, and the serial is still the same, what has been copied is the value. -/
structure Reading (p : Name) (s : State Name) (serial : BitVec 32) (left : Finset ℕ) : Prop where
  fits : serialValueLen serial < propValueMax
  current : held s.area p ∈ s.seen
  pos : 1 ≤ s.loaded
  le : s.loaded ≤ s.seen.length
  count : generation (s.area.info p).serial =
    (generation serial + (s.seen.length - s.loaded)) % 2 ^ 23
  same : s.loaded = s.seen.length → (s.area.info p).serial = serial ∨
    serialDirty serial = false ∧ (s.area.info p).serial = serial ||| 1
  copied : s.loaded = s.seen.length → (s.area.info p).serial = serial →
    ∀ i ≤ serialValueLen serial, i ∉ left → s.reader.value i = source s.area p serial i

/-- The bytes of a finished read fit the buffer and are a value of the property, if there were not
too many updates. -/
def ReaderOk (p : Name) (s : State Name) : Prop :=
  match s.reader.pc with
  | .start => True
  | .copy serial left => Reading p s serial left
  | .done serial => serialValueLen serial < propValueMax ∧
    (s.seen.length ≤ 2 ^ 23 → bytes (serialValueLen serial) s.reader.value ∈ s.seen)

theorem WriterEffect.view (e : WriterEffect p s s') (h : Consistent s) :
    (∃ u serial, s.writer.pc = .write u serial ∅ ∧ u.pi = p ∧
      s' = { s.publish p p (newSerial false u.len serial) with
        writer := { s.writer with pc := .areaLoad } }) ∨
    s'.reader = s.reader ∧ s'.seen = s.seen ∧ s'.loaded = s.loaded ∧
      held s'.area p = held s.area p ∧
      ((s'.area.info p).serial = (s.area.info p).serial ∨
        serialDirty (s.area.info p).serial = false ∧
          (s'.area.info p).serial = (s.area.info p).serial ||| 1) := by
  by_cases hpb : ∃ u serial, s.writer.pc = .write u serial ∅ ∧ s'.writer.pc = .areaLoad ∧ u.pi = p
  · obtain ⟨u, serial, hpc, hpc', hu⟩ := hpb
    cases e with
    | publishes v serial' pc =>
      rw [hpc] at pc
      cases pc
      refine .inl ⟨u, serial, hpc, hu, ?_⟩
      rw [hu]
    | stutters =>
      rw [hpc] at hpc'
      cases hpc'
    | rests pc todo serial was =>
      rw [hpc] at was
      cases was
    | begins | backsUp | dirties | writes => cases hpc'
  · have hh := e.held_eq h fun u serial hpc hpc' hu =>
      hpb ⟨u, serial, hpc, hpc', hu⟩
    right
    cases e with
    | stutters | rests | begins | backsUp => exact ⟨rfl, rfl, rfl, hh, .inl rfl⟩
    | writes u serial left i pc => exact ⟨rfl, rfl, rfl, hh, .inl (setByte_serial ..)⟩
    | dirties u serial pc =>
      refine ⟨rfl, rfl, rfl, hh, ?_⟩
      obtain ⟨-, ho, hcn, -⟩ := h.backup u serial ∅ pc
      by_cases hp : p = u.pi
      · right
        rw [hp, ho]
        exact ⟨hcn, by simp⟩
      · left
        exact congrArg PropInfo.serial (setSerial_of_ne hp _)
    | publishes u serial pc =>
      have hp : u.pi ≠ p := fun hu => hpb ⟨u, serial, pc, rfl, hu⟩
      refine ⟨rfl, ?_, rfl, hh, .inl (congrArg PropInfo.serial (setSerial_of_ne hp.symm _))⟩
      exact if_neg fun hu => hp hu.1

theorem publish_seen (hp : s.reader.pc = .copy serial left) (new) :
    (s.publish p p new).seen = held (s.area.setSerial p new) p :: s.seen := by
  simp [State.publish, hp]

theorem generation_lt (serial) : generation serial < 2 ^ 23 :=
  mod_lt _ (by decide)

theorem Reading.writer (hr : Reading p s serial left) (hp : s.reader.pc = .copy serial left)
    (e : WriterEffect p s s') (h : Consistent s) : Reading p s' serial left := by
  have hc := hr.count
  have hle := hr.le
  rcases e.view h with ⟨u, serial', hw, rfl, rfl⟩ | ⟨hra, hse, hl, hh, hs⟩
  · obtain ⟨hln, ho, hd, -⟩ := h.write u serial' ∅ hw
    have hse := publish_seen (p := u.pi) hp (newSerial false u.len serial')
    have hne : ¬s.loaded = (s.publish u.pi u.pi (newSerial false u.len serial')).seen.length := by
      rw [hse, length_cons]
      omega
    refine ⟨hr.fits, ?_, hr.pos, ?_, ?_, fun hl => absurd hl hne, fun hl => absurd hl hne⟩
    · rw [hse]
      exact mem_cons_self
    · rw [hse, length_cons]
      exact le_succ_of_le hle
    change generation ((s.area.setSerial u.pi _).info u.pi).serial =
      (_ + ((s.publish u.pi u.pi (newSerial false u.len serial')).seen.length - s.loaded)) % _
    rw [setSerial_self, generation_newSerial hln hd, hse, length_cons,
      succ_sub hle, ← ho, hc, mod_add_mod]
    rfl
  have hg : generation (s'.area.info p).serial = generation (s.area.info p).serial := by
    rcases hs with hs | ⟨hcn, hs⟩
    · rw [hs]
    · rw [hs, generation_or_one hcn]
  constructor
  · exact hr.fits
  · rw [hh, hse]
    exact hr.current
  · rw [hl]
    exact hr.pos
  · rw [hl, hse]
    exact hle
  · rw [hg, hl, hse]
    exact hc
  · rw [hl, hse]
    intro heq
    rcases hr.same heq with hsm | ⟨hcn, hsm⟩
    · rcases hs with hs | ⟨hcn, hs⟩
      · exact .inl (hs.trans hsm)
      · rw [hsm] at hcn hs
        exact .inr ⟨hcn, hs⟩
    · rcases hs with hs | ⟨hc', hs⟩
      · exact .inr ⟨hcn, hs.trans hsm⟩
      · rw [hsm, serialDirty_or_one hcn] at hc'
        cases hc'
  · rw [hl, hse, hra]
    intro heq hn i hi hlf
    have hb : (s'.area.info p).serial = (s.area.info p).serial := by
      rcases hs with hs | ⟨hcn, hs⟩
      · exact hs
      rcases hr.same heq with hsm | ⟨hc', hsm⟩
      · rw [hn, hsm] at hs
        have hd := serialDirty_or_one hcn
        rw [hsm, ← hs, ← hsm, hcn] at hd
        cases hd
      · rw [hsm, serialDirty_or_one hc'] at hcn
        cases hcn
    have hsu := e.source_eq h hb
    rw [← hb, hn] at hsu
    rw [hsu]
    exact hr.copied heq (hb.symm.trans hn) i hi hlf

theorem ReaderOk.writer (hr : ReaderOk p s) (e : WriterEffect p s s') (h : Consistent s) :
    ReaderOk p s' := by
  cases hp : s.reader.pc with
  | copy serial left =>
    have hp' : s'.reader.pc = .copy serial left := by
      cases e <;> exact hp
    rw [ReaderOk, hp] at hr
    rw [ReaderOk, hp']
    exact hr.writer hp e h
  | start =>
    have hp' : s'.reader.pc = .start := by
      cases e <;> exact hp
    rw [ReaderOk, hp']
    trivial
  | done serial =>
    have hs : s'.reader = s.reader ∧ s'.seen = s.seen := by
      cases e with
      | publishes => exact ⟨rfl, by simp [State.publish, hp]⟩
      | stutters | rests | begins | backsUp | dirties | writes => exact ⟨rfl, rfl⟩
    rw [ReaderOk, hp] at hr
    rw [ReaderOk, hs.1, hs.2, hp]
    exact hr

omit [DecidableEq Name] in
theorem reading_loads (hc : held s.area p ∈ s.seen) (h : Consistent s) :
    ReaderOk p (s.loads (s.area.info p).serial) where
  fits := h.lens p
  current := hc
  pos := length_pos_of_mem hc
  le := le_rfl
  count := by
    change _ = (_ + (s.seen.length - s.seen.length)) % _
    rw [Nat.sub_self, add_zero, mod_eq_of_lt (generation_lt _)]
    rfl
  same _ := .inl rfl
  copied _ _ i hi hl := absurd (Finset.mem_range.mpr (lt_succ_of_le hi)) hl

omit [DecidableEq Name] in
theorem Reading.done (hr : Reading p s (s.area.info p).serial ∅) (hf : s.seen.length ≤ 2 ^ 23) :
    bytes (serialValueLen (s.area.info p).serial) s.reader.value = held s.area p := by
  have hl : s.loaded = s.seen.length := by
    have hc := hr.count
    have hlt := generation_lt (s.area.info p).serial
    have hle := hr.le
    have hp := hr.pos
    omega
  exact bytes_congr fun i hi => hr.copied hl rfl i hi (Finset.notMem_empty i)

omit [DecidableEq Name] in
theorem ReaderOk.reader (hr : ReaderOk p s) (h : Consistent s) (pick : ℕ) :
    ReaderOk p (readerStep p pick s) := by
  cases hp : s.reader.pc with
  | start =>
    simp only [readerStep, hp]
    exact reading_loads mem_cons_self ⟨h.lens, h.dirty, h.backup, h.write⟩
  | copy serial left =>
    rw [ReaderOk, hp] at hr
    simp only [readerStep, hp]
    split
    · rename_i hl
      subst hl
      split
      · rename_i hs
        subst hs
        refine ⟨hr.fits, ?_⟩
        intro hf
        rw [hr.done hf]
        exact hr.current
      · exact reading_loads hr.current h
    · split
      · refine ⟨hr.fits, hr.current, hr.pos, hr.le, hr.count, hr.same, ?_⟩
        intro heq hn i hi hl
        dsimp only
        by_cases hip : i = pick
        · rw [hip, update_self]
        · rw [update_of_ne hip]
          exact hr.copied heq hn i hi fun hm => hl (Finset.mem_erase.mpr ⟨hip, hm⟩)
      · rw [ReaderOk, hp]
        exact hr
  | done serial =>
    simp only [readerStep, hp]
    exact hr

omit [DecidableEq Name] in
theorem readerStep_same (pick) : (readerStep p pick s).area = s.area ∧
    (readerStep p pick s).writer = s.writer := by
  cases hp : s.reader.pc with
  | start =>
    simp only [readerStep, hp]
    exact ⟨rfl, rfl⟩
  | copy serial left =>
    simp only [readerStep, hp]
    split
    all_goals split <;> exact ⟨rfl, rfl⟩
  | done serial => simp [readerStep, hp]

omit [DecidableEq Name] in
theorem Consistent.reader (h : Consistent s) (pick) : Consistent (readerStep p pick s) := by
  obtain ⟨ha, hw⟩ := readerStep_same pick
  constructor
  · rw [ha]
    exact h.lens
  · rw [ha, hw]
    exact h.dirty
  · rw [ha, hw]
    exact h.backup
  · rw [ha, hw]
    exact h.write

end

variable {Name : Type} [DecidableEq Name] {p q : Name} {a : PropArea Name}
  {updates : List (Update Name)} {s s' : State Name}

/-- Before the first update every value fits and no property is dirty. -/
def Settled (a : PropArea Name) : Prop :=
  ∀ q, serialValueLen (a.info q).serial < propValueMax ∧ serialDirty (a.info q).serial = false

/-- A value from the start or from one of the updates. -/
def Given (a : PropArea Name) (updates : List (Update Name)) (p : Name) (v : List Byte) : Prop :=
  v = held a p ∨ ∃ u ∈ updates, u.pi = p ∧ u.len < propValueMax ∧ v = bytes u.len u.value

structure Sourced (a : PropArea Name) (updates : List (Update Name)) (p : Name)
    (s : State Name) : Prop where
  todo : ∀ u ∈ s.writer.todo, u ∈ updates
  backup : ∀ u serial left, s.writer.pc = .backup u serial left → u ∈ updates
  write : ∀ u serial left, s.writer.pc = .write u serial left → u ∈ updates
  current : Given a updates p (held s.area p)
  seen : ∀ v ∈ s.seen, Given a updates p v

theorem Sourced.writer (hs : Sourced a updates p s) (e : WriterEffect p s s')
    (h : Consistent s) : Sourced a updates p s' := by
  have hh : Given a updates p (held s'.area p) ∧ ∀ v ∈ s'.seen, Given a updates p v := by
    rcases e.view h with ⟨u, serial, hp, rfl, rfl⟩ | ⟨-, hse, -, hh, -⟩
    · have hn : Given a updates u.pi (held (s.area.setSerial u.pi
          (newSerial false u.len serial)) u.pi) :=
        .inr ⟨u, hs.write u serial ∅ hp, rfl, (h.write u serial ∅ hp).1, held_publish h hp⟩
      refine ⟨hn, ?_⟩
      intro v hv
      simp only [State.publish] at hv
      split at hv
      · rcases List.mem_cons.mp hv with rfl | hv
        · exact hn
        · exact hs.seen v hv
      · exact hs.seen v hv
    · rw [hh, hse]
      exact ⟨hs.current, hs.seen⟩
  have hc := hh.1
  have hse := hh.2
  cases e with
  | stutters => exact hs
  | rests pc todo serial was quiet subset =>
    refine ⟨fun u hu => hs.todo u (subset u hu), ?_, ?_, hc, hse⟩
    all_goals
      rintro u serial left rfl
      cases quiet
  | begins u rest was todo =>
    have hm : ∀ v ∈ u :: rest, v ∈ updates := by
      rw [← todo]
      exact hs.todo
    refine ⟨fun v hv => hm v (mem_cons_of_mem u hv), ?_, nofun, hc, hse⟩
    intro v serial left hp
    cases hp
    exact hm u mem_cons_self
  | backsUp u serial left i pc =>
    refine ⟨hs.todo, ?_, nofun, hc, hse⟩
    intro v serial' left' hp
    cases hp
    exact hs.backup u serial left pc
  | dirties u serial pc =>
    refine ⟨hs.todo, nofun, ?_, hc, hse⟩
    intro v serial' left hp
    cases hp
    exact hs.backup u serial ∅ pc
  | writes u serial left i pc =>
    refine ⟨hs.todo, nofun, ?_, hc, hse⟩
    intro v serial' left' hp
    cases hp
    exact hs.write u serial left pc
  | publishes u serial pc => exact ⟨hs.todo, nofun, nofun, hc, hse⟩

omit [DecidableEq Name] in
theorem Sourced.reader (hs : Sourced a updates p s) (pick) :
    Sourced a updates p (readerStep p pick s) := by
  obtain ⟨ha, hw⟩ := readerStep_same pick
  have hse : ∀ v ∈ (readerStep p pick s).seen, Given a updates p v := by
    intro v hv
    cases hp : s.reader.pc with
    | start =>
      simp only [readerStep, hp, State.loads, mem_singleton] at hv
      rw [hv]
      exact hs.current
    | copy serial left =>
      have hsm : (readerStep p pick s).seen = s.seen := by
        simp only [readerStep, hp]
        split
        all_goals split <;> rfl
      exact hs.seen v (hsm ▸ hv)
    | done serial =>
      simp only [readerStep, hp] at hv
      exact hs.seen v hv
  refine ⟨?_, ?_, ?_, ?_, hse⟩
  · rw [hw]
    exact hs.todo
  · rw [hw]
    exact hs.backup
  · rw [hw]
    exact hs.write
  · rw [ha]
    exact hs.current

structure Kept (a : PropArea Name) (updates : List (Update Name)) (p : Name) (s : State Name) :
    Prop where
  consistent : Consistent s
  reader : ReaderOk p s
  sourced : Sourced a updates p s

omit [DecidableEq Name] in
theorem kept_initial (settled : Settled a) : Kept a updates p (initial a updates) where
  consistent := by
    refine ⟨fun q => (settled q).1, ?_, nofun, nofun⟩
    intro q hd
    exact absurd ((settled q).2.symm.trans hd) nofun
  reader := trivial
  sourced := ⟨fun _ hu => hu, nofun, nofun, .inl rfl, nofun⟩

theorem Kept.step (h : Kept a updates p s) (move) : Kept a updates p (step p s move) := by
  cases move with
  | writer pick =>
    have e := writerStep_effect p pick s
    exact ⟨h.consistent.writer e, h.reader.writer e h.consistent, h.sourced.writer e h.consistent⟩
  | reader pick =>
    exact ⟨h.consistent.reader pick, h.reader.reader h.consistent pick, h.sourced.reader pick⟩

theorem Kept.run (moves) (h : Kept a updates p s) : Kept a updates p (run p moves s) := by
  induction moves generalizing s with
  | nil => exact h
  | cons move moves ih => exact ih (h.step move)

/-- However the updates of the area and a read interleave, with fewer than 2^23 updates of the
property during the read, the bytes read are a value it has held since the read began. -/
theorem read_eq_held (settled : Settled a) (moves : List Move) (serial : BitVec 32)
    (done : (run p moves (initial a updates)).reader.pc = .done serial)
    (few : (run p moves (initial a updates)).seen.length - 1 < 2 ^ 23) :
    bytes (serialValueLen serial) (run p moves (initial a updates)).reader.value ∈
        (run p moves (initial a updates)).seen ∧ serialValueLen serial < propValueMax ∧
      ∀ v ∈ (run p moves (initial a updates)).seen, Given a updates p v := by
  have hk : Kept a updates p (run p moves (initial a updates)) :=
    (kept_initial settled).run moves
  have hr := hk.reader
  rw [ReaderOk, done] at hr
  exact ⟨hr.2 (by omega), hr.1, hk.sourced.seen⟩

def emptyArea : PropArea Bool := ⟨fun _ => ⟨0, fun _ => 0⟩, fun _ => 0, 0⟩

/-- The reader loads the serial while the property is dirty and copies the backup between the stores
of the new value. -/
def readWhileDirty : List Move :=
  [.writer 0, .writer 0, .writer 0, .reader 0, .writer 1, .reader 0, .writer 0, .reader 0]

theorem read_eq_held_while_dirty :
    (run false readWhileDirty (initial emptyArea [⟨false, fun i => if i = 0 then 65 else 0, 1⟩])
      ).reader.pc = .done 1 ∧ bytes 0 (run false readWhileDirty
        (initial emptyArea [⟨false, fun i => if i = 0 then 65 else 0, 1⟩])).reader.value ∈
      (run false readWhileDirty
        (initial emptyArea [⟨false, fun i => if i = 0 then 65 else 0, 1⟩])).seen := by
  have settled : Settled emptyArea := by
    intro q
    change serialValueLen 0 < propValueMax ∧ serialDirty 0 = false
    decide
  exact ⟨by decide +kernel,
    (read_eq_held settled readWhileDirty 1 (by decide +kernel) (by decide +kernel)).1⟩

/-- The reader is left alone for a number of steps. -/
def readAlone (p : Name) (picks : ℕ → ℕ) (s : State Name) : ℕ → State Name
  | 0 => s
  | n + 1 => readerStep p (picks n) (readAlone p picks s n)

section
omit [DecidableEq Name]
variable {picks : ℕ → ℕ}

theorem readAlone_area (n) : (readAlone p picks s n).area = s.area := by
  induction n with
  | zero => rfl
  | succ n ih => exact (readerStep_same _).1.trans ih

variable (hf : ∀ i n, ∃ m ≥ n, picks m = i)
include hf

theorem readAlone_copies (serial left n)
    (hpc : (readAlone p picks s n).reader.pc = .copy serial left) :
    ∃ m, (readAlone p picks s m).reader.pc = .copy serial ∅ := by
  induction left using Finset.strongInduction generalizing n with
  | H left ih =>
    rcases left.eq_empty_or_nonempty with rfl | ⟨i, hi⟩
    · exact ⟨n, hpc⟩
    have hne := Finset.ne_empty_of_mem hi
    have hcopy : ∀ n, (readAlone p picks s n).reader.pc = .copy serial left → picks n ∈ left →
        ∃ m, (readAlone p picks s m).reader.pc = .copy serial ∅ := by
      intro n hpc hn
      exact ih _ (Finset.erase_ssubset hn) (n + 1) (by simp [readAlone, readerStep, hpc, hn, hne])
    obtain ⟨m, hm, rfl⟩ := hf i n
    obtain ⟨d, rfl⟩ := Nat.exists_eq_add_of_le hm
    clear hm
    induction d generalizing n with
    | zero => exact hcopy n hpc hi
    | succ d ihd =>
      by_cases hn : picks n ∈ left
      · exact hcopy n hpc hn
      · refine ihd (n + 1) (by simp [readAlone, readerStep, hpc, hn, hne]) ?_
        rwa [add_assoc, add_comm 1]

theorem readAlone_done (left n)
    (hpc : (readAlone p picks s n).reader.pc = .copy (s.area.info p).serial left) :
    ∃ m serial, (readAlone p picks s m).reader.pc = .done serial := by
  obtain ⟨m, hm⟩ := readAlone_copies hf _ left n hpc
  exact ⟨m + 1, (s.area.info p).serial, by simp [readAlone, readerStep, hm, readAlone_area]⟩

/-- In whatever order the bytes are copied, if each has its turn. -/
theorem readAlone_returns (s) :
    ∃ n serial, (readAlone p picks s n).reader.pc = .done serial := by
  let all := Finset.range (serialValueLen (s.area.info p).serial + 1)
  cases hpc : s.reader.pc with
  | start => exact readAlone_done hf all 1 (by simp [readAlone, readerStep, hpc, State.loads, all])
  | copy serial left =>
    obtain ⟨m, hm⟩ := readAlone_copies hf serial left 0 hpc
    by_cases hs : serial = (s.area.info p).serial
    · exact readAlone_done hf ∅ m (hs ▸ hm)
    · refine readAlone_done hf all (m + 1) ?_
      simp [readAlone, readerStep, hm, readAlone_area, State.loads, hs, all]
  | done serial => exact ⟨0, serial, hpc⟩

end

theorem readAlone_returns_unpair : ∃ n serial, (readAlone false (fun n => n.unpair.1)
    (initial emptyArea []) n).reader.pc = .done serial :=
  readAlone_returns (fun i n => ⟨Nat.pair i n, Nat.right_le_pair i n, by simp⟩) _

end SystemPropertyUpdate
