import Mathlib

/-! Conversions between UTF-8 and code points: `mbrtoc32` and `c32rtomb` with the four bytes of
state they carry from call to call. A pointer with its byte count is the list of the bytes it
offers. -/
namespace Multibyte

open BitVec (eq_of_toNat_eq le_def lt_def ofNat toNat_and toNat_ofNat toNat_or toNat_setWidth toNat
  toNat_inj)
open List Nat
open Nat (mod_eq_of_lt mod_lt)

abbrev Byte : Type := BitVec 8

structure MbState where
  b0 : Byte
  b1 : Byte
  b2 : Byte
  b3 : Byte
  deriving DecidableEq

def MbState.initial : MbState := ⟨0#8, 0#8, 0#8, 0#8⟩

def MbState.isInitial (ps : MbState) : Bool := ps == .initial

def MbState.bytesSoFar (ps : MbState) : ℕ :=
  if ps.b2 ≠ 0#8 then 3 else if ps.b1 ≠ 0#8 then 2 else if ps.b0 ≠ 0#8 then 1 else 0

def MbState.setByte (ps : MbState) (i : ℕ) (byte : Byte) : MbState :=
  match i with
  | 0 => { ps with b0 := byte }
  | 1 => { ps with b1 := byte }
  | 2 => { ps with b2 := byte }
  | 3 => { ps with b3 := byte }
  | _ => ps

def MbState.getByte (ps : MbState) (i : ℕ) : Byte :=
  match i with
  | 0 => ps.b0
  | 1 => ps.b1
  | 2 => ps.b2
  | 3 => ps.b3
  | _ => 0#8

inductive Errno where
  | eilseq
  | einval
  deriving DecidableEq

inductive Conversion where
  | bytes (n : ℕ)
  /-- `(size_t)-1`. -/
  | illegal (errno : Errno)
  /-- `(size_t)-2`. -/
  | incomplete
  /-- `(size_t)-3`: a character from an earlier call. -/
  | again
  deriving DecidableEq

structure Lead where
  mask : Byte
  length : ℕ
  lowerBound : BitVec 32
  deriving DecidableEq

def lead (ch : Byte) : Option Lead :=
  if ch &&& 0xe0#8 = 0xc0#8 then some ⟨0x1f#8, 2, 0x80#32⟩
  else if ch &&& 0xf0#8 = 0xe0#8 then some ⟨0x0f#8, 3, 0x800#32⟩
  else if ch &&& 0xf8#8 = 0xf0#8 then some ⟨0x07#8, 4, 0x10000#32⟩
  else none

/-- The loop that fills the state from byte `i` on; `none` is a bad character in the middle of a
character. -/
def fill (ps : MbState) (i : ℕ) : List Byte → Option MbState
  | [] => some ps
  | byte :: s =>
    if !ps.isInitial && byte &&& 0xc0#8 != 0x80#8 then none
    else fill (ps.setByte i byte) (i + 1) s

def decode (ps : MbState) (l : Lead) : BitVec 32 :=
  (List.range' 1 (l.length - 1)).foldl
    (fun c32 i => (c32 <<< 6) ||| (ps.getByte i &&& 0x3f#8).setWidth 32)
    ((ps.getByte 0 &&& l.mask).setWidth 32)

structure Converted where
  result : Conversion
  ps : MbState
  c32 : Option (BitVec 32)
  deriving DecidableEq

def Converted.illegal (errno : Errno) : Converted := ⟨.illegal errno, .initial, none⟩

/-- The end of `mbrtoc32`, with all octets in the state. -/
def check (l : Lead) (bytesWanted : ℕ) (c32 : BitVec 32) : Converted :=
  if c32 < l.lowerBound then .illegal .eilseq
  else if (0xd800#32 ≤ c32 ∧ c32 ≤ 0xdfff#32) ∨ 0x10ffff#32 < c32 then .illegal .eilseq
  else ⟨.bytes (if c32 = 0#32 then 0 else bytesWanted), .initial, some c32⟩

def mbrtoc32 (ps : MbState) (s : List Byte) : Converted :=
  if ps.getByte 3 ≠ 0#8 then .illegal .einval
  else match s with
    | [] => ⟨.incomplete, ps, none⟩
    | ch :: _ =>
      if ps.isInitial && ch &&& 0x80#8 == 0#8 then
        ⟨.bytes (if ch ≠ 0#8 then 1 else 0), ps, some (ch.setWidth 32)⟩
      else
        let bytesSoFar := ps.bytesSoFar
        match lead (if 0 < bytesSoFar then ps.getByte 0 else ch) with
        | none => .illegal .eilseq
        | some l =>
          let bytesWanted := l.length - bytesSoFar
          match fill ps bytesSoFar (s.take bytesWanted) with
          | none => .illegal .eilseq
          | some ps =>
            if s.length < bytesWanted then ⟨.incomplete, ps, none⟩
            else check l bytesWanted (decode ps l)

/-- The loop that stores the octets behind the first one, last octet first; what is left of the
character, and the octets. -/
def storeOctets : ℕ → BitVec 32 → List Byte → BitVec 32 × List Byte
  | 0, c32, s => (c32, s)
  | i + 1, c32, s => storeOctets i (c32 >>> 6) (((c32 &&& 0x3f#32) ||| 0x80#32).setWidth 8 :: s)

def octets (lead : BitVec 32) (length : ℕ) (c32 : BitVec 32) : List Byte :=
  let (c32, s) := storeOctets (length - 1) c32 []
  ((c32 &&& 0xff#32) ||| lead).setWidth 8 :: s

def c32rtomb (ps : MbState) (c32 : BitVec 32) : Conversion × MbState × List Byte :=
  if c32 = 0#32 then (.bytes 1, .initial, [0#8])
  else if !ps.isInitial then (.illegal .eilseq, .initial, [])
  else if c32 &&& ~~~0x7f#32 = 0#32 then (.bytes 1, ps, [c32.setWidth 8])
  else if c32 &&& ~~~0x7ff#32 = 0#32 then (.bytes 2, ps, octets 0xc0#32 2 c32)
  else if c32 &&& ~~~0xffff#32 = 0#32 then (.bytes 3, ps, octets 0xe0#32 3 c32)
  else if c32 &&& ~~~0x1fffff#32 = 0#32 then (.bytes 4, ps, octets 0xf0#32 4 c32)
  else (.illegal .eilseq, ps, [])

def utf8 (c : Char) : List Byte := (String.utf8EncodeChar c).map UInt8.toBitVec

def held (bytes : List Byte) : MbState :=
  ⟨bytes.getD 0 0#8, bytes.getD 1 0#8, bytes.getD 2 0#8, bytes.getD 3 0#8⟩

def Continuation (byte : Byte) : Prop := byte &&& 0xc0#8 = 0x80#8

variable {byte : Byte} {front last later part : List Byte} {k : ℕ}

theorem Continuation.ne_zero (h : Continuation byte) : byte ≠ 0#8 := by
  rintro rfl
  revert h
  unfold Continuation
  decide

variable {bytes : List Byte}

theorem held_isInitial (h : byte ≠ 0#8) : (held (byte :: bytes)).isInitial = false := by
  simp only [MbState.isInitial, held, MbState.initial, beq_eq_false_iff_ne, ne_eq,
    MbState.mk.injEq, not_and]
  intro h0
  exact absurd h0 h

theorem held_third (h : bytes.length < 4) : (held bytes).getByte 3 = 0#8 := by
  have hg : bytes[3]? = none := List.getElem?_eq_none (le_of_lt_succ h)
  simp [held, MbState.getByte, getD_eq_getElem?_getD, hg]

theorem held_setByte (byte) (h : bytes.length < 4) :
    (held bytes).setByte bytes.length byte = held (bytes ++ [byte]) := by
  match bytes, h with
  | [], _ => rfl
  | [_], _ => rfl
  | [_, _], _ => rfl
  | [_, _, _], _ => rfl

theorem fill_held {rest} (hf : ∀ byte ∈ front, byte ≠ 0#8)
    (hr : ∀ byte ∈ rest, Continuation byte) (hne : front ≠ []) (hl : (front ++ rest).length ≤ 4) :
    fill (held front) front.length rest = some (held (front ++ rest)) := by
  induction rest generalizing front with
  | nil => rw [append_nil]; rfl
  | cons byte rest ih =>
    have hby := hr byte mem_cons_self
    obtain ⟨first, front', rfl⟩ := exists_cons_of_ne_nil hne
    have hl' : (first :: front').length < 4 := by
      simp only [length_append, length_cons] at hl ⊢
      omega
    have hc : (byte &&& 0xc0#8 != 0x80#8) = false := by
      rw [bne_eq_false_iff_eq]
      exact hby
    rw [fill, hc, Bool.and_false, held_setByte byte hl']
    have hf' : ∀ b ∈ (first :: front') ++ [byte], b ≠ 0#8 := by
      intro b hb
      rcases List.mem_append.mp hb with hb | hb
      · exact hf b hb
      · rw [List.mem_singleton.mp hb]
        exact hby.ne_zero
    have hn := ih hf' (fun b hb => hr b (mem_cons_of_mem _ hb)) (by simp) (by simpa using hl)
    rw [length_append, length_singleton, append_assoc] at hn
    exact hn

theorem held_bytesSoFar (h : ∀ byte ∈ bytes, byte ≠ 0#8)
    (hl : bytes.length < 4) : (held bytes).bytesSoFar = bytes.length := by
  match bytes, hl with
  | [], _ => rfl
  | [a], _ =>
    have ha : a ≠ 0#8 := h a (by simp)
    simp [held, MbState.bytesSoFar, ha]
  | [a, b], _ =>
    have hb : b ≠ 0#8 := h b (by simp)
    simp [held, MbState.bytesSoFar, hb]
  | [a, b, c], _ =>
    have hc : c ≠ 0#8 := h c (by simp)
    simp [held, MbState.bytesSoFar, hc]

/-- The sequence of `c32` is `first :: rest`, longer than one octet. -/
structure Sequence (c32 : BitVec 32) (first : Byte) (rest : List Byte) (l : Lead) : Prop where
  lead_first : lead first = some l
  high : first &&& 0x80#8 ≠ 0#8
  length : l.length = rest.length + 1
  pos : 0 < rest.length
  le_three : rest.length ≤ 3
  continuation : ∀ byte ∈ rest, Continuation byte
  decoded : decode (held (first :: rest)) l = c32
  lower : ¬c32 < l.lowerBound
  scalar : ¬((0xd800#32 ≤ c32 ∧ c32 ≤ 0xdfff#32) ∨ 0x10ffff#32 < c32)
  ne_zero : c32 ≠ 0#32

variable {c32 : BitVec 32} {l : Lead} {rest : List Byte} {first : Byte}

section
variable (h : Sequence c32 first rest l)
include h

theorem Sequence.first_ne_zero : first ≠ 0#8 := by
  rintro rfl
  exact h.high (by decide)

theorem Sequence.byte_ne_zero : ∀ byte ∈ first :: rest, byte ≠ 0#8 := by
  intro byte hb
  rcases mem_cons.mp hb with rfl | hb
  · exact h.first_ne_zero
  · exact (h.continuation byte hb).ne_zero

section
variable (hsl : first :: rest = front ++ part ++ later)
include hsl

theorem Sequence.fill :
    Multibyte.fill (held front) front.length part = some (held (front ++ part)) := by
  have hle := h.le_three
  have hl := congrArg List.length hsl
  cases front with
  | cons a front =>
    rw [cons_append, cons_append, List.cons.injEq] at hsl
    obtain ⟨rfl, hr⟩ := hsl
    apply fill_held
    · intro byte hb
      apply h.byte_ne_zero
      rw [hr, ← cons_append, ← cons_append]
      exact mem_append_left _ (mem_append_left _ hb)
    · intro byte hb
      apply h.continuation
      rw [hr]
      exact mem_append_left _ (mem_append_right _ hb)
    · exact cons_ne_nil _ _
    · simp only [length_append, length_cons] at hl ⊢
      omega
  | nil =>
    cases part with
    | nil => rfl
    | cons a part =>
      rw [nil_append, cons_append, List.cons.injEq] at hsl
      obtain ⟨rfl, hr⟩ := hsl
      have hs : Multibyte.fill (held []) 0 (first :: part) =
          Multibyte.fill (held [first]) 1 part := rfl
      rw [length_nil, hs]
      apply fill_held
      · intro byte hb
        rw [List.mem_singleton.mp hb]
        exact h.first_ne_zero
      · intro byte hb
        apply h.continuation
        rw [hr]
        exact mem_append_left _ hb
      · exact cons_ne_nil _ _
      · simp only [length_append, length_cons, length_nil] at hl ⊢
        omega

theorem Sequence.mbrtoc32_eq {s} (hpt : part ≠ [])
    (hs : s.take (part ++ later).length = part) : mbrtoc32 (held front) s =
      if s.length < (part ++ later).length then ⟨.incomplete, held (front ++ part), none⟩
      else check l (part ++ later).length (decode (held (front ++ part)) l) := by
  have hle := h.le_three
  have hl := congrArg List.length hsl
  simp only [length_append, length_cons] at hl
  have hp := length_pos_iff.mpr hpt
  obtain ⟨ch, part', rfl⟩ := exists_cons_of_ne_nil hpt
  obtain ⟨s', rfl⟩ : ∃ s', s = ch :: s' := by
    cases s with
    | nil => simp at hs
    | cons a s' =>
      rw [cons_append, length_cons, take_succ_cons, List.cons.injEq] at hs
      exact ⟨s', by rw [hs.1]⟩
  have hf : ∀ byte ∈ front, byte ≠ 0#8 := by
    intro byte hb
    apply h.byte_ne_zero
    rw [hsl]
    exact mem_append_left _ (mem_append_left _ hb)
  have hfr : front.length < 4 := by
    simp only [length_cons] at hl
    omega
  have ht := held_third hfr
  have hsoFar := held_bytesSoFar hf hfr
  have ha : ((held front).isInitial && ch &&& 0x80#8 == 0#8) = false := by
    cases front with
    | nil =>
      rw [nil_append, cons_append, List.cons.injEq] at hsl
      rw [← hsl.1, Bool.and_eq_false_iff]
      exact .inr (beq_eq_false_iff_ne.mpr h.high)
    | cons a front => rw [held_isInitial (hf a mem_cons_self), Bool.false_and]
  have hld : lead (if 0 < front.length then (held front).getByte 0 else ch) = some l := by
    rw [← h.lead_first]
    cases front with
    | nil =>
      rw [nil_append, cons_append, List.cons.injEq] at hsl
      rw [hsl.1]
      rfl
    | cons a front =>
      rw [cons_append, cons_append, List.cons.injEq] at hsl
      rw [hsl.1]
      rfl
  have hw : l.length - front.length = (ch :: part' ++ later).length := by
    rw [h.length]
    simp only [length_append, length_cons] at hl ⊢
    omega
  unfold mbrtoc32
  simp only [ht, ha, hsoFar, hld, hw, hs, h.fill hsl, ne_eq, not_true_eq_false,
    if_false, Bool.false_eq_true]

end

end

theorem or_eq_add_of_lt {a} (b) (ha : a < 2 ^ k) : (a ||| 2 ^ k * b) = a + 2 ^ k * b := by
  rw [lor_comm, ← two_pow_add_eq_or_of_lt ha, add_comm]

theorem toNat_chunk (chunk) (hc : c32.toNat < 2 ^ 26) :
    ((c32 <<< 6) ||| (chunk &&& 0x3f#8).setWidth 32).toNat = c32.toNat * 64 + chunk.toNat % 64 := by
  have hs : c32.toNat <<< 6 < 2 ^ 32 := by
    rw [shiftLeft_eq]
    omega
  have hm : chunk.toNat &&& 63 = chunk.toNat % 64 := and_two_pow_sub_one_eq_mod _ 6
  have hl : chunk.toNat % 64 < 2 ^ 6 := mod_lt _ (by decide)
  have hsa : chunk.toNat % 64 % 2 ^ 32 = chunk.toNat % 64 := by omega
  simp only [toNat_or, BitVec.toNat_shiftLeft, mod_eq_of_lt hs,
    toNat_setWidth, toNat_and, toNat_ofNat]
  rw [show 63 % 2 ^ 8 = 63 from rfl, hm, hsa, ← shiftLeft_add_eq_or_of_lt hl, shiftLeft_eq]

theorem octet_eq (c32) : (((c32 &&& 0x3f#32) ||| 0x80#32).setWidth 8 : Byte) =
      ofNat 8 (c32.toNat % 64 + 128) := by
  have hm : c32.toNat &&& 63 = c32.toNat % 64 := and_two_pow_sub_one_eq_mod _ 6
  have hl : c32.toNat % 64 < 2 ^ 7 := by omega
  have ho := or_eq_add_of_lt 1 hl
  apply eq_of_toNat_eq
  simp only [toNat_setWidth, toNat_or, toNat_and, toNat_ofNat]
  rw [show 63 % 2 ^ 32 = 63 from rfl, show 128 % 2 ^ 32 = 128 from rfl, hm]
  exact congrArg (· % 2 ^ 8) ho

theorem lead_two : ∀ n < 32, lead (ofNat 8 (n + 192)) = some ⟨0x1f#8, 2, 0x80#32⟩ ∧
    ofNat 8 (n + 192) &&& 0x80#8 ≠ 0#8 ∧ (ofNat 8 (n + 192) &&& 0x1f#8).toNat = n := by
  decide +kernel

theorem lead_three : ∀ n < 16, lead (ofNat 8 (n + 224)) = some ⟨0x0f#8, 3, 0x800#32⟩ ∧
    ofNat 8 (n + 224) &&& 0x80#8 ≠ 0#8 ∧ (ofNat 8 (n + 224) &&& 0x0f#8).toNat = n := by
  decide +kernel

theorem lead_four : ∀ n < 8, lead (ofNat 8 (n + 240)) = some ⟨0x07#8, 4, 0x10000#32⟩ ∧
    ofNat 8 (n + 240) &&& 0x80#8 ≠ 0#8 ∧ (ofNat 8 (n + 240) &&& 0x07#8).toNat = n := by
  decide +kernel

def spelled (start : ℕ) (rest : List Byte) : ℕ :=
  rest.foldl (fun v byte => v * 64 + byte.toNat % 64) start

theorem toNat_foldl_chunks (h : (c32.toNat + 1) * 64 ^ rest.length ≤ 2 ^ 32) :
    (rest.foldl (fun (c32 : BitVec 32) byte => (c32 <<< 6) ||| (byte &&& 0x3f#8).setWidth 32)
        c32).toNat = spelled c32.toNat rest := by
  induction rest generalizing c32 with
  | nil => rfl
  | cons byte rest ih =>
    have hp : 0 < 64 ^ rest.length := Nat.pow_pos (by decide)
    have hs : (c32.toNat + 1) * 64 ≤ 2 ^ 32 := by
      have hl : (c32.toNat + 1) * 64 ≤ (c32.toNat + 1) * (64 ^ rest.length * 64) :=
        Nat.mul_le_mul_left _ (Nat.le_mul_of_pos_left 64 hp)
      exact hl.trans h
    have hc := toNat_chunk byte (show c32.toNat < 2 ^ 26 by omega)
    have hm : byte.toNat % 64 < 64 := mod_lt _ (by decide)
    rw [foldl_cons, ih, hc]
    · rfl
    rw [hc]
    calc (c32.toNat * 64 + byte.toNat % 64 + 1) * 64 ^ rest.length
        ≤ ((c32.toNat + 1) * 64) * 64 ^ rest.length := mul_le_mul_right _ (by omega)
      _ = (c32.toNat + 1) * (64 ^ rest.length * 64) := by ring
      _ ≤ 2 ^ 32 := h

theorem map_getByte_held (first) (hl : rest.length ≤ 3) :
    (List.range' 1 rest.length).map (held (first :: rest)).getByte = rest := by
  match rest, hl with
  | [], _ => rfl
  | [_], _ => rfl
  | [_, _], _ => rfl
  | [_, _, _], _ => rfl

theorem toNat_decode_held (hl : l.length = rest.length + 1) (hle : rest.length ≤ 3)
    (hf : (first &&& l.mask).toNat < 32) :
    (decode (held (first :: rest)) l).toNat = spelled (first &&& l.mask).toNat rest := by
  have hs : ((first &&& l.mask).setWidth 32).toNat = (first &&& l.mask).toNat := by
    rw [toNat_setWidth, mod_eq_of_lt (by omega)]
  have hb : ((first &&& l.mask).toNat + 1) * 64 ^ rest.length ≤ 2 ^ 32 :=
    calc ((first &&& l.mask).toNat + 1) * 64 ^ rest.length
        ≤ 32 * 64 ^ 3 := Nat.mul_le_mul hf (Nat.pow_le_pow_right (by decide) hle)
      _ ≤ 2 ^ 32 := by decide
  rw [← hs] at hb
  rw [← hs, ← toNat_foldl_chunks hb, decode, hl, Nat.add_sub_cancel]
  nth_rewrite 4 [← map_getByte_held first hle]
  rw [foldl_map]
  rfl

variable {c : Char}

theorem utf8_of_lt (h : c.toNat < 0x80) : utf8 c = [ofNat 8 c.toNat] := by
  have hl : c.val.toNat ≤ 127 := le_of_lt_succ h
  simp only [utf8, String.utf8EncodeChar, if_pos hl, map_cons, map_nil, UInt8.toBitVec_ofNat']
  rfl

def octet (n : ℕ) : Byte := BitVec.ofNat 8 (n % 64 + 128)

theorem octet_spec (n) : Continuation (octet n) ∧ (octet n).toNat % 64 = n % 64 := by
  have ha : ∀ n < 64, (ofNat 8 (n + 128) &&& 0xc0#8 = 0x80#8) ∧
      (ofNat 8 (n + 128)).toNat % 64 = n := by decide +kernel
  exact ha (n % 64) (mod_lt _ (by decide))

theorem Sequence.of_octets {v} {o : List ℕ} (hld : lead first = some l)
    (hh : first &&& 0x80#8 ≠ 0#8) (hl : l.length = o.length + 1) (hp : 0 < o.length)
    (hle : o.length ≤ 3) (hf : (first &&& l.mask).toNat < 32)
    (hs : o.foldl (fun v n => v * 64 + n % 64) (first &&& l.mask).toNat = v)
    (hlw : l.lowerBound.toNat ≤ v) (hvl : v.isValidChar) (hne : v ≠ 0) :
    Sequence (ofNat 32 v) first (o.map octet) l := by
  have hv : v < 0x110000 := by
    rcases hvl with h | h <;> omega
  have hn : (ofNat 32 v).toNat = v := by
    rw [toNat_ofNat, mod_eq_of_lt (by omega)]
  rw [← length_map octet] at hl hp hle
  refine ⟨hld, hh, hl, hp, hle, ?_, ?_, ?_, ?_, ?_⟩
  · intro byte hb
    obtain ⟨n, -, rfl⟩ := mem_map.mp hb
    exact (octet_spec n).1
  · apply eq_of_toNat_eq
    rw [toNat_decode_held hl hle hf, spelled, foldl_map, hn, ← hs]
    simp only [(octet_spec _).2]
  · rw [lt_def, hn]
    omega
  · rw [le_def, le_def, lt_def, hn]
    simp only [toNat_ofNat]
    rcases hvl with h | h <;> omega
  intro h0
  have := congrArg toNat h0
  rw [hn] at this
  exact hne this

theorem utf8_of_ge (h : 0x80 ≤ c.toNat) : utf8 c =
    if c.toNat ≤ 0x7ff then ofNat 8 (c.toNat / 64 % 32 + 192) :: [octet c.toNat]
    else if c.toNat ≤ 0xffff then ofNat 8 (c.toNat / 4096 % 16 + 224) ::
      [octet (c.toNat / 64), octet c.toNat] else ofNat 8 (c.toNat / 262144 % 8 + 240) ::
      [octet (c.toNat / 4096), octet (c.toNat / 64), octet c.toNat] := by
  have hg : ¬c.val.toNat ≤ 127 := not_le.mpr h
  simp only [utf8, String.utf8EncodeChar, if_neg hg, Char.toNat]
  split_ifs <;> rfl

theorem utf8_sequence (h : 0x80 ≤ c.toNat) : ∃ first rest l, utf8 c = first :: rest ∧
      Sequence (ofNat 32 c.toNat) first rest l := by
  have hv : c.toNat.isValidChar := c.valid
  have hb : c.toNat < 0x110000 := by
    rcases hv with h | h <;> omega
  have hn : c.toNat ≠ 0 := by omega
  rw [utf8_of_ge h]
  by_cases h2 : c.toNat ≤ 0x7ff
  · obtain ⟨hl, hh, hm⟩ := lead_two (c.toNat / 64 % 32) (mod_lt _ (by decide))
    refine ⟨_, _, _, if_pos h2, .of_octets (o := [_]) hl hh rfl (by simp) (by simp) ?_ ?_
      h hv hn⟩
    all_goals
      simp only [foldl_cons, foldl_nil, hm]
      omega
  rw [if_neg h2]
  by_cases h3 : c.toNat ≤ 0xffff
  · obtain ⟨hl, hh, hm⟩ := lead_three (c.toNat / 4096 % 16) (mod_lt _ (by decide))
    refine ⟨_, _, _, if_pos h3, .of_octets (o := [_, _]) hl hh rfl (by simp) (by simp) ?_
      ?_ (not_le.mp h2) hv hn⟩
    all_goals
      simp only [foldl_cons, foldl_nil, hm]
      omega
  obtain ⟨hl, hh, hm⟩ := lead_four (c.toNat / 262144 % 8) (mod_lt _ (by decide))
  refine ⟨_, _, _, if_neg h3, .of_octets (o := [_, _, _]) hl hh rfl (by simp) (by simp)
    ?_ ?_ (not_le.mp h3) hv hn⟩
  all_goals
    simp only [foldl_cons, foldl_nil, hm]
    omega

theorem and_not_eq_zero_iff (c32) (hk : k < 32) :
    c32 &&& ~~~(ofNat 32 (2 ^ k - 1)) = 0#32 ↔ c32.toNat < 2 ^ k := by
  have hp : 2 ^ k < 2 ^ 32 := Nat.pow_lt_pow_right (by decide) hk
  have hm : (c32 &&& ofNat 32 (2 ^ k - 1)).toNat = c32.toNat % 2 ^ k := by
    rw [toNat_and, toNat_ofNat, mod_eq_of_lt (by omega), and_two_pow_sub_one_eq_mod]
  have hsl : c32 &&& ~~~(ofNat 32 (2 ^ k - 1)) = 0#32 ↔ c32 &&& ofNat 32 (2 ^ k - 1) = c32 := by
    generalize ofNat 32 (2 ^ k - 1) = m
    constructor <;> intro h
    all_goals
      ext i hi
      have hb := congrArg (fun x => x[i]) h
      simp only [BitVec.getElem_and, BitVec.getElem_not, BitVec.getElem_zero] at hb ⊢
      revert hb
      cases c32[i] <;> cases m[i] <;> simp
  rw [hsl, ← toNat_inj, hm]
  exact mod_eq_iff_lt (by positivity)

theorem firstOctet_eq {lead m} (hc : c32.toNat < 2 ^ k)
    (hl : lead.toNat = 2 ^ k * m) (hk : 2 ^ k * m + 2 ^ k ≤ 256) :
    (((c32 &&& 0xff#32) ||| lead).setWidth 8 : Byte) = ofNat 8 (c32.toNat + lead.toNat) := by
  have hm : c32.toNat &&& 255 = c32.toNat := by
    rw [show 255 = 2 ^ 8 - 1 from rfl, and_two_pow_sub_one_eq_mod]
    exact mod_eq_of_lt (by omega)
  apply eq_of_toNat_eq
  simp only [toNat_setWidth, toNat_or, toNat_and, toNat_ofNat]
  rw [show 255 % 2 ^ 32 = 255 from rfl, hm, hl, or_eq_add_of_lt m hc]

theorem toNat_shift_six (c32 : BitVec 32) : (c32 >>> 6).toNat = c32.toNat / 64 := by
  rw [BitVec.toNat_ushiftRight, shiftRight_eq_div_pow]

theorem octets_two (h : c32.toNat < 2 ^ 11) :
    octets 0xc0#32 2 c32 = ofNat 8 (c32.toNat / 64 % 32 + 192) :: [octet c32.toNat] := by
  have hf : (c32 >>> 6).toNat < 2 ^ 5 := by
    rw [toNat_shift_six]
    omega
  simp only [octets, storeOctets, Nat.add_one_sub_one, octet_eq]
  rw [firstOctet_eq hf (m := 6) rfl (by decide), toNat_shift_six,
    mod_eq_of_lt (show c32.toNat / 64 < 32 by omega)]
  rfl

theorem octets_three (h : c32.toNat < 2 ^ 16) :
    octets 0xe0#32 3 c32 = ofNat 8 (c32.toNat / 4096 % 16 + 224) ::
      [octet (c32.toNat / 64), octet c32.toNat] := by
  have hf : (c32 >>> 6 >>> 6).toNat < 2 ^ 4 := by
    simp only [toNat_shift_six]
    omega
  simp only [octets, storeOctets, Nat.add_one_sub_one, octet_eq]
  rw [firstOctet_eq hf (m := 14) rfl (by decide),
    mod_eq_of_lt (show c32.toNat / 4096 < 16 by omega)]
  simp only [toNat_shift_six, Nat.div_div_eq_div_mul]
  rfl

theorem octets_four (h : c32.toNat < 2 ^ 21) :
    octets 0xf0#32 4 c32 = ofNat 8 (c32.toNat / 262144 % 8 + 240) ::
      [octet (c32.toNat / 4096), octet (c32.toNat / 64), octet c32.toNat] := by
  have hf : (c32 >>> 6 >>> 6 >>> 6).toNat < 2 ^ 3 := by
    simp only [toNat_shift_six]
    omega
  simp only [octets, storeOctets, Nat.add_one_sub_one, octet_eq]
  rw [firstOctet_eq hf (m := 30) rfl (by decide),
    mod_eq_of_lt (show c32.toNat / 262144 < 8 by omega)]
  simp only [toNat_shift_six, Nat.div_div_eq_div_mul]
  rfl

theorem c32rtomb_eq (c32) : c32rtomb .initial c32 =
    if c32.toNat = 0 then (.bytes 1, .initial, [0#8])
    else if c32.toNat < 2 ^ 7 then (.bytes 1, .initial, [c32.setWidth 8])
    else if c32.toNat < 2 ^ 11 then (.bytes 2, .initial, octets 0xc0#32 2 c32)
    else if c32.toNat < 2 ^ 16 then (.bytes 3, .initial, octets 0xe0#32 3 c32)
    else if c32.toNat < 2 ^ 21 then (.bytes 4, .initial, octets 0xf0#32 4 c32)
    else (.illegal .eilseq, .initial, []) := by
  have h0 : c32 = 0#32 ↔ c32.toNat = 0 := BitVec.toNat_inj.symm
  have h7 := and_not_eq_zero_iff c32 (k := 7) (by decide)
  have h11 := and_not_eq_zero_iff c32 (k := 11) (by decide)
  have h16 := and_not_eq_zero_iff c32 (k := 16) (by decide)
  have h21 := and_not_eq_zero_iff c32 (k := 21) (by decide)
  have hii : (!MbState.initial.isInitial) = false := by decide
  simp only [← h0, ← h7, ← h11, ← h16, ← h21]
  rw [c32rtomb, hii, if_neg Bool.false_ne_true]
  rfl

theorem c32rtomb_spec (c) : c32rtomb .initial (ofNat 32 c.toNat) =
      (.bytes (utf8 c).length, .initial, utf8 c) := by
  have hv : c.toNat.isValidChar := c.valid
  have hb : c.toNat < 2 ^ 21 := by
    rcases hv with h | h <;> omega
  obtain ⟨c32, hc32⟩ : ∃ c32, c32 = ofNat 32 c.toNat := ⟨_, rfl⟩
  have hn : c32.toNat = c.toNat := by
    rw [hc32, toNat_ofNat, mod_eq_of_lt (by omega)]
  rw [← hc32, c32rtomb_eq, hn]
  by_cases h7 : c.toNat < 2 ^ 7
  · rw [utf8_of_lt h7, if_pos h7, hc32, BitVec.setWidth_ofNat_of_le (by decide)]
    split_ifs with h0
    · rw [h0]
      rfl
    · rfl
  rw [if_neg (by omega), if_neg h7, utf8_of_ge (not_lt.mp h7)]
  split_ifs with h11 _ _ h16 <;> try omega
  · rw [octets_two (hn ▸ h11), hn]
    rfl
  · rw [octets_three (hn ▸ h16), hn]
    rfl
  · rw [octets_four (hn ▸ hb), hn]
    rfl

theorem mbrtoc32_ascii (ch) (h : ch.toNat < 0x80) (after) : mbrtoc32 .initial (ch :: after) =
      ⟨.bytes (if ch ≠ 0#8 then 1 else 0), .initial, some (ch.setWidth 32)⟩ := by
  have ha : ∀ ch, ch.toNat < 0x80 → (ch &&& 0x80#8 == 0#8) = true := by decide +kernel
  have hac : (MbState.initial.isInitial && ch &&& 0x80#8 == 0#8) = true := by
    rw [ha ch h]
    decide
  have ht : ¬MbState.initial.getByte 3 ≠ 0#8 := by decide
  simp only [mbrtoc32, if_neg ht, hac, if_true]

theorem utf8_ne_nil (c) : utf8 c ≠ [] := by
  by_cases h : c.toNat < 0x80
  · rw [utf8_of_lt h]
    exact cons_ne_nil _ _
  obtain ⟨first, rest, -, hu8, -⟩ := utf8_sequence (not_lt.mp h)
  rw [hu8]
  exact cons_ne_nil _ _

theorem utf8_length_le (c) : (utf8 c).length ≤ 4 := by
  by_cases h : c.toNat < 0x80
  · rw [utf8_of_lt h]
    simp
  obtain ⟨first, rest, l, hu8, hs⟩ := utf8_sequence (not_lt.mp h)
  rw [hu8, length_cons]
  exact succ_le_succ hs.le_three

theorem mbrtoc32_part (hsl : utf8 c = front ++ part ++ later) (hlt : later ≠ []) :
    mbrtoc32 (held front) part = ⟨.incomplete, held (front ++ part), none⟩ := by
  by_cases h : c.toNat < 0x80
  · rw [utf8_of_lt h] at hsl
    have hl := congrArg List.length hsl
    have hp := length_pos_iff.mpr hlt
    simp only [length_append, length_singleton] at hl
    have hf : front = [] := List.length_eq_zero_iff.mp (by omega)
    have hpt : part = [] := List.length_eq_zero_iff.mp (by omega)
    subst hf hpt
    rfl
  · obtain ⟨first, rest, l, hu8, hs⟩ := utf8_sequence (not_lt.mp h)
    rw [hu8] at hsl
    have hp := length_pos_iff.mpr hlt
    by_cases hpt : part = []
    · subst hpt
      have hle := hs.le_three
      have hl := congrArg List.length hsl
      simp only [length_append, length_cons, length_nil] at hl
      have ht := held_third (show front.length < 4 by omega)
      simp only [mbrtoc32, ht, ne_eq, not_true_eq_false, if_false, append_nil]
    · rw [hs.mbrtoc32_eq hsl hpt (take_of_length_le (by simp)), if_pos]
      rw [length_append]
      omega

theorem mbrtoc32_last (hsl : utf8 c = front ++ last) (hla : last ≠ []) (after) :
    mbrtoc32 (held front) (last ++ after) =
      ⟨.bytes (if c.toNat = 0 then 0 else last.length), .initial, some (ofNat 32 c.toNat)⟩ := by
  by_cases h : c.toNat < 0x80
  · rw [utf8_of_lt h] at hsl
    have hl := congrArg List.length hsl
    have hp := length_pos_iff.mpr hla
    simp only [length_append, length_singleton] at hl
    have hf : front = [] := List.length_eq_zero_iff.mp (by omega)
    subst hf
    rw [nil_append] at hsl
    subst hsl
    have hn : (ofNat 8 c.toNat).toNat = c.toNat := by
      rw [toNat_ofNat, mod_eq_of_lt (by omega)]
    have hz : ofNat 8 c.toNat ≠ 0#8 ↔ ¬c.toNat = 0 := by
      rw [ne_eq, ← toNat_inj, hn]
      rfl
    rw [singleton_append]
    have hw : (ofNat 8 c.toNat).setWidth 32 = ofNat 32 c.toNat := by
      apply eq_of_toNat_eq
      rw [toNat_setWidth, hn, toNat_ofNat]
    refine (mbrtoc32_ascii _ (by rw [hn]; exact h) after).trans ?_
    simp only [hz, ite_not, length_singleton, hw]
  · obtain ⟨first, rest, l, hu8, hs⟩ := utf8_sequence (not_lt.mp h)
    rw [hu8] at hsl
    rw [if_neg (by omega)]
    have hwo : first :: rest = front ++ last ++ [] := by rw [hsl, append_nil]
    rw [hs.mbrtoc32_eq hwo hla (by rw [append_nil, take_left]), if_neg (by simp),
      ← hsl, hs.decoded]
    simp only [check, if_neg hs.lower, if_neg hs.scalar, if_neg hs.ne_zero, append_nil]

/-- What `c32rtomb` writes for `c32` is decoded back; `mbrtoc32` returns 0 for the one octet of the
NUL character. -/
def RoundTrip (c32 : BitVec 32) : Prop :=
  let (result, ps, s) := c32rtomb .initial c32
  ps = .initial ∧ (result = .illegal .eilseq ∨ s.length ≤ 4 ∧ result = .bytes s.length ∧
    mbrtoc32 .initial s = ⟨.bytes (if c32 = 0#32 then 0 else s.length), .initial, some c32⟩)

theorem mbrtoc32_scalar {ps s} (h : (mbrtoc32 ps s).c32 = some c32) :
    ¬((0xd800#32 ≤ c32 ∧ c32 ≤ 0xdfff#32) ∨ 0x10ffff#32 < c32) := by
  unfold mbrtoc32 at h
  split at h
  · cases h
  split at h
  · cases h
  split at h
  · cases h
    simp only [le_def, lt_def, toNat_setWidth, toNat_ofNat]
    omega
  dsimp only at h
  split at h
  · cases h
  split at h
  · cases h
  split at h
  · cases h
  unfold check at h
  split at h
  · cases h
  split at h
  · cases h
  next hs =>
  cases h
  exact hs

theorem c32rtomb_cases (c32) : (c32rtomb .initial c32).2.1 = .initial ∧
    ((c32rtomb .initial c32).1 = .illegal .eilseq ↔ 2 ^ 21 ≤ c32.toNat) := by
  rw [c32rtomb_eq]
  split_ifs <;> simp <;> omega

theorem c32rtomb_roundTrip_iff (c32 : BitVec 32) : RoundTrip c32 ↔
    ¬(0xd800#32 ≤ c32 ∧ c32 ≤ 0xdfff#32) ∧ ¬(0x10ffff#32 < c32 ∧ c32 ≤ 0x1fffff#32) := by
  obtain ⟨hp, hil⟩ := c32rtomb_cases c32
  simp only [le_def, lt_def, toNat_ofNat]
  constructor
  · rintro ⟨-, h | ⟨-, -, h⟩⟩
    · have := hil.mp h
      omega
    · have := mbrtoc32_scalar (congrArg Converted.c32 h)
      simp only [le_def, lt_def, toNat_ofNat] at this
      omega
  rintro ⟨hsr, hl⟩
  by_cases h21 : 2 ^ 21 ≤ c32.toNat
  · exact ⟨hp, .inl (hil.mpr h21)⟩
  have hv : c32.toNat.isValidChar := by
    omega
  obtain ⟨c, hc⟩ : ∃ c : Char, c.toNat = c32.toNat := ⟨.ofNatAux _ hv, rfl⟩
  have hc32 : ofNat 32 c.toNat = c32 := by rw [hc, BitVec.ofNat_toNat, BitVec.setWidth_eq]
  have hs := c32rtomb_spec c
  have hb := mbrtoc32_last (nil_append (utf8 c)).symm (utf8_ne_nil c) []
  have h0 : c32 = 0#32 ↔ c.toNat = 0 := by rw [hc, ← toNat_inj]; rfl
  rw [hc32] at hs hb
  rw [append_nil] at hb
  simp only [RoundTrip, hs, h0]
  exact ⟨trivial, .inr ⟨utf8_length_le c, trivial, hb⟩⟩

theorem not_roundTrip_surrogate : ¬RoundTrip 0xd800#32 := by
  unfold RoundTrip
  decide

end Multibyte
