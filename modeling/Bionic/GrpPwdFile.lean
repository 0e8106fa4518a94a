import Bionic.DecimalText

/-! Lines of the files /vendor/etc/passwd and the like, grp_pwd_file.cpp, and the reading of
numbers, strtol.cpp. A pointer into a text is the rest of the text from there; a character behind
the end of a mapped file is the null character of the last page. -/
namespace GrpPwdFile

open Nat (ofDigitChars zero_le)
open List

abbrev Text : Type := List Char

def isspace (c : Char) : Bool := c == ' ' || ('\t' ≤ c && c ≤ '\r')

def isxdigit (c : Char) : Bool := c.isDigit || ('a' ≤ c.toLower && c.toLower ≤ 'f')

inductive Any where
  | nothing
  | digits
  | overflow
  deriving DecidableEq

def digitOf (c : Char) : Option ℕ :=
  if c.isDigit then some (c.toNat - 48)
  else if c.isAlpha then some (10 + (c.toLower.toNat - 97))
  else none

/-- The loop of `StrToI` over the digits. -/
def accumulate (base max : ℕ) : Text → ℕ → Any → ℕ × Any × Text
  | [], acc, any => (acc, any, [])
  | c :: p, acc, any =>
    match digitOf c with
    | none => (acc, any, c :: p)
    | some d =>
      if base ≤ d then (acc, any, c :: p)
      else if any = .overflow then accumulate base max p acc any
      else if max < acc * base + d then accumulate base max p acc .overflow
      else accumulate base max p (acc * base + d) .digits

structure Strtoul where
  value : ℕ
  stop : Text
  erange : Bool

def sign : Text → Bool × Text
  | '-' :: p => (true, p)
  | '+' :: p => (false, p)
  | p => (false, p)

def baseOf (base : ℕ) (p : Text) : ℕ × Text :=
  let hex : ℕ × Text :=
    match p with
    | '0' :: x :: d :: rest =>
      if (base = 0 ∨ base = 16) ∧ (x = 'x' ∨ x = 'X') ∧ isxdigit d then (16, d :: rest)
      else (base, p)
    | _ => (base, p)
  let binary : ℕ × Text :=
    match hex.2 with
    | '0' :: b :: d :: rest =>
      if (hex.1 = 0 ∨ hex.1 = 2) ∧ (b = 'b' ∨ b = 'B') ∧ d.isDigit then (2, d :: rest)
      else hex
    | _ => hex
  if binary.1 = 0 then (if binary.2.head? = some '0' then 8 else 10, binary.2) else binary

def strtoul (bits : ℕ) (s : Text) (base : ℕ) : Strtoul :=
  let max := 2 ^ bits - 1
  let (neg, p) := sign (s.dropWhile isspace)
  let (base, p) := baseOf base p
  match accumulate base max p 0 .nothing with
  | (_, .nothing, _) => ⟨0, s, false⟩
  | (_, .overflow, stop) => ⟨max, stop, true⟩
  | (acc, .digits, stop) => ⟨if neg then (2 ^ bits - acc) % 2 ^ bits else acc, stop, false⟩

def copyFieldToString (source : Text) (max : ℕ) : Text :=
  (source.takeWhile fun c => c ≠ ':' ∧ c ≠ '\n').take (max - 1)

def cString (buffer : Text) : Text := buffer.takeWhile (· ≠ '\x00')

/-- `unsigned long` has `bits` bits, an id 32. -/
def fieldToUid (bits : ℕ) (field : Option Text) : Option ℕ :=
  match field with
  | none => none
  | some field =>
    let result := strtoul bits field 0
    if result.erange ∨ result.stop = field ∨ result.stop.head? ≠ some ':' then none
    else some (result.value % 2 ^ 32)

/-- The fields behind the first, at most `room`. -/
def fieldsAfter (room : ℕ) : Text → List Text
  | c :: d :: rest =>
    if room = 0 ∨ c = '\n' then []
    else if c = ':' then (d :: rest) :: fieldsAfter (room - 1) (d :: rest)
    else fieldsAfter room (d :: rest)
  | _ => []

def parseLine (numFields : ℕ) (s : Text) : List Text := s :: fieldsAfter (numFields - 1) s

def laterLines : Text → List Text
  | [] => []
  | c :: rest => if c = '\n' then rest :: laterLines rest else laterLines rest

def lineBeginnings (s : Text) : List Text := (s :: laterLines s).filter (1 < ·.length)

structure MmapFile where
  contents : Text
  requiredPrefix : Text

/-- `DoMmap`: the file can be mapped and ends with a newline. -/
def MmapFile.getFile (f : MmapFile) : Option Text :=
  if f.contents.getLast? = some '\n' then some f.contents else none

/-- Fields that a line does not have keep an earlier value. -/
def findLoop (numFields : ℕ) (requiredPrefix : Text) (predicate : List Text → Bool) :
    List Text → List Text → Option (List Text)
  | [], _ => none
  | s :: later, fields =>
    let parsed := parseLine numFields s
    let fields := parsed ++ fields.drop parsed.length
    if ¬ requiredPrefix <+: s then findLoop numFields requiredPrefix predicate later fields
    else if predicate fields then some fields
    else findLoop numFields requiredPrefix predicate later fields

def MmapFile.find (f : MmapFile) (numFields : ℕ) (predicate : List Text → Bool) :
    Option (List Text) :=
  match f.getFile with
  | none => none
  | some s => findLoop numFields f.requiredPrefix predicate (lineBeginnings s) []

def nameMatches : Text → Text → Bool
  | l :: lineName, m :: name =>
    if l = '\n' ∨ l = ':' then false else if l ≠ m then false else nameMatches lineName name
  | l :: _, [] => l == ':'
  | [], _ => false

def hasId (bits id : ℕ) (fields : List Text) : Bool :=
  fieldToUid bits (fields[2]?) = some id

def hasName (name : Text) (fields : List Text) : Bool :=
  match fields with
  | [] => false
  | lineName :: _ => nameMatches lineName name

section
open DecimalText

variable {ds rest : Text} {m acc : ℕ} {any : Any}

def NoDigit (rest : Text) : Prop := ∀ c, rest.head? = some c → c.isDigit = false

theorem accumulate_stop (h : NoDigit rest) : accumulate 10 m rest acc any = (acc, any, rest) := by
  cases rest with
  | nil => rfl
  | cons c p =>
    have hc : c.isDigit = false := h c rfl
    rw [accumulate, digitOf, if_neg (by rw [hc]; exact nofun)]
    by_cases ha : c.isAlpha
    · rw [if_pos ha]
      exact if_pos (Nat.le_add_right _ _)
    · rw [if_neg ha]

theorem digitOf_digitChar {d} (hd : d < 10) : digitOf (Nat.digitChar d) = some d := by
  rw [digitOf, Nat.isDigit_digitChar, if_pos (decide_eq_true hd),
    Nat.toNat_digitChar_sub_48_of_lt_ten hd]

theorem accumulate_overflow (hd : ∀ c ∈ ds, c.isDigit) (h : NoDigit rest) :
    accumulate 10 m (ds ++ rest) acc .overflow = (acc, .overflow, rest) := by
  induction ds with
  | nil => exact accumulate_stop h
  | cons c ds ih =>
    obtain ⟨d, hl, rfl⟩ := exists_digitChar (hd c mem_cons_self)
    rw [cons_append, accumulate, digitOf_digitChar hl]
    simp only [not_le.2 hl, if_false, if_true]
    exact ih fun c hc => hd c (mem_cons_of_mem _ hc)

theorem le_ofDigitChars : acc ≤ ofDigitChars 10 ds acc := by
  induction ds generalizing acc with
  | nil => exact le_rfl
  | cons c ds ih =>
    rw [Nat.ofDigitChars_cons]
    exact le_trans (by omega) ih

theorem accumulate_digits (hd : ∀ c ∈ ds, c.isDigit) (h : NoDigit rest) (hac : acc ≤ m)
    (ha : any = .digits ∨ (any = .nothing ∧ ds ≠ [])) :
    (ofDigitChars 10 ds acc ≤ m ∧ accumulate 10 m (ds ++ rest) acc any =
        (ofDigitChars 10 ds acc, .digits, rest)) ∨ (m < ofDigitChars 10 ds acc ∧
        ∃ n, accumulate 10 m (ds ++ rest) acc any = (n, .overflow, rest)) := by
  induction ds generalizing acc any with
  | nil =>
    obtain rfl : any = .digits := ha.resolve_right fun h => h.2 rfl
    exact .inl ⟨hac, accumulate_stop h⟩
  | cons c ds ih =>
    have hd' : ∀ c ∈ ds, c.isDigit := fun c hc => hd c (mem_cons_of_mem _ hc)
    have hr : any ≠ .overflow := by
      rcases ha with rfl | ⟨rfl, -⟩ <;> decide
    obtain ⟨d, hl, rfl⟩ := exists_digitChar (hd c mem_cons_self)
    have hv : ofDigitChars 10 (Nat.digitChar d :: ds) acc = ofDigitChars 10 ds (acc * 10 + d) := by
      rw [Nat.ofDigitChars_cons, show '0'.toNat = 48 from rfl,
        Nat.toNat_digitChar_sub_48_of_lt_ten hl, Nat.mul_comm]
    rw [hv, cons_append, accumulate, digitOf_digitChar hl]
    simp only [not_le.2 hl, hr, if_false]
    by_cases hm : m < acc * 10 + d
    · rw [if_pos hm]
      exact .inr ⟨lt_of_lt_of_le hm le_ofDigitChars, _, accumulate_overflow hd' h⟩
    · rw [if_neg hm]
      exact ih hd' (Nat.le_of_not_lt hm) (.inl rfl)

theorem baseOf_ten (p) : baseOf 10 p = (10, p) := by
  unfold baseOf
  split
  · simp
  · dsimp only
    split <;> simp

theorem strtoul_digits (bits) (hn : ds ≠ []) (hd : ∀ c ∈ ds, c.isDigit)
    (h : NoDigit rest) : (strtoul bits (ds ++ rest) 10).value = min (value ds) (2 ^ bits - 1) ∧
      (strtoul bits (ds ++ rest) 10).stop = rest := by
  have hs : sign ((ds ++ rest).dropWhile isspace) = (false, ds ++ rest) := by
    obtain ⟨c, ds, rfl⟩ := exists_cons_of_ne_nil hn
    obtain ⟨d, hl, rfl⟩ := exists_digitChar (hd c mem_cons_self)
    interval_cases d <;> rfl
  have ha := accumulate_digits (m := 2 ^ bits - 1) hd h (zero_le _) (.inr ⟨rfl, hn⟩)
  rcases ha with ⟨hle, hr⟩ | ⟨hl, n, hr⟩ <;> simp only [strtoul, hs, baseOf_ten, hr]
  · exact ⟨(Nat.min_eq_left hle).symm, trivial⟩
  · exact ⟨(Nat.min_eq_right (le_of_lt hl)).symm, trivial⟩

end

variable {s n : Text} {k : ℕ} {predicate : List Text → Bool}

theorem nameMatches_iff :
    nameMatches s n ↔ (∃ rest, s = n ++ ':' :: rest) ∧ ∀ c ∈ n, c ≠ ':' ∧ c ≠ '\n' := by
  induction n generalizing s with
  | nil =>
    cases s with
    | nil => simp [nameMatches]
    | cons l s => simp [nameMatches]
  | cons m n ih =>
    cases s with
    | nil => simp [nameMatches]
    | cons l s =>
      rw [nameMatches]
      by_cases hs : l = '\n' ∨ l = ':'
      · rw [if_pos hs]
        refine iff_of_false nofun ?_
        rintro ⟨⟨rest, hr⟩, hc⟩
        cases hr
        have := hc _ mem_cons_self
        tauto
      rw [if_neg hs]
      by_cases hl : l = m
      · subst hl
        rw [if_neg (not_not_intro rfl), ih]
        simp only [cons_append, List.cons.injEq, true_and, forall_mem_cons]
        tauto
      · rw [if_pos hl]
        refine iff_of_false nofun ?_
        rintro ⟨⟨rest, hr⟩, -⟩
        cases hr
        exact hl rfl

theorem length_fieldsAfter (room) : (fieldsAfter room s).length ≤ room := by
  fun_induction fieldsAfter room s with
  | case1 => exact zero_le _
  | case2 room rest d h ih =>
    rw [length_cons]
    omega
  | case3 room c d rest h hc ih => exact ih
  | case4 => exact zero_le _

def MmapFile.lines (f : MmapFile) : List Text :=
  match f.getFile with
  | none => []
  | some s => (lineBeginnings s).filter (f.requiredPrefix <+: ·)

def MmapFile.Formed (f : MmapFile) (numFields : ℕ) : Prop :=
  ∀ s ∈ f.lines, (parseLine numFields s).length = numFields

theorem findLoop_formed {pre starts old} (hk : 1 ≤ k) (ho : old.length ≤ k)
    (hf : ∀ s ∈ starts.filter (pre <+: ·), (parseLine k s).length = k) :
    findLoop k pre predicate starts old =
      ((starts.filter (pre <+: ·)).find? fun s => predicate (parseLine k s)).map (parseLine k) := by
  induction starts generalizing old with
  | nil => rfl
  | cons s later ih =>
    have hpr : (parseLine k s).length ≤ k := by
      have := length_fieldsAfter (s := s) (k - 1)
      rw [parseLine, length_cons]
      omega
    have hl : (parseLine k s ++ old.drop (parseLine k s).length).length ≤ k := by
      rw [length_append, length_drop]
      omega
    rw [findLoop]
    by_cases hp : pre <+: s
    · have hkp : (s :: later).filter (pre <+: ·) = s :: later.filter (pre <+: ·) :=
        filter_cons_of_pos (by simpa using hp)
      rw [hkp] at hf ⊢
      have ha : parseLine k s ++ old.drop (parseLine k s).length = parseLine k s := by
        rw [hf s mem_cons_self, drop_eq_nil_of_le ho, append_nil]
      rw [if_neg (not_not_intro hp), find?_cons]
      simp only [ha] at hl ⊢
      cases hpd : predicate (parseLine k s) with
      | true => simp
      | false =>
        simp only [Bool.false_eq_true, if_false]
        exact ih hl fun s hs => hf s (mem_cons_of_mem _ hs)
    · rw [if_pos hp]
      have hsp : (s :: later).filter (pre <+: ·) = later.filter (pre <+: ·) :=
        filter_cons_of_neg (by simpa using hp)
      rw [hsp] at hf ⊢
      exact ih hl hf

theorem MmapFile.find_formed {f : MmapFile} (hk : 1 ≤ k) (hf : f.Formed k) :
    f.find k predicate = (f.lines.find? fun s => predicate (parseLine k s)).map (parseLine k) := by
  unfold MmapFile.Formed MmapFile.lines at hf
  rw [MmapFile.find, MmapFile.lines]
  cases hfi : f.getFile with
  | none => rfl
  | some s =>
    rw [hfi] at hf
    exact findLoop_formed hk (zero_le _) hf

end GrpPwdFile
