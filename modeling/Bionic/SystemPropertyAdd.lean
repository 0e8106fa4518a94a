import Bionic.PropAreaRuns

/-! Adding properties while override contexts are loaded. Every property is written to its area and
to that of the override contexts, where `ro.appcompat_override.N` goes by the name `N`; if `N` is
there already its value is overwritten, without a new serial. Reads are those of a process that has
the override contexts as its own. -/
namespace SystemPropertyAdd

open PropArea PropAreaRuns
open SystemPropertyUpdate (Byte propValueMax serialDirty serialValueLen)
open List Nat Function

def appcompatPrefix : List Byte :=
  "ro.appcompat_override.".toList.map fun c => BitVec.ofNat 8 c.toNat

def readOnlyPrefix : List Byte := "ro.".toList.map fun c => BitVec.ofNat 8 c.toNat

def propNameMax : ℕ := 32

def isAppcompatOverride (name : List Byte) : Bool := appcompatPrefix.isPrefixOf name

def isReadOnly (name : List Byte) : Bool := readOnlyPrefix.isPrefixOf name

def overrideName (name : List Byte) : List Byte :=
  if isAppcompatOverride name then name.drop appcompatPrefix.length else name

structure Contexts (κ : Type) where
  getPropAreaForName : List Byte → Option κ
  getSerialPropArea : Bool

structure Areas (κ : Type) where
  pas : κ → Area
  serial : BitVec 32

structure State (κ : Type) where
  main : Areas κ
  other : Areas κ

structure SystemProperties (κ : Type) where
  paDataSize : ℕ
  initialized : Bool
  contexts : Contexts κ
  appcompatOverrideContexts : Option (Contexts κ)
  /-- The process is init or belongs to root. -/
  privileged : Bool
  small : paDataSize < 2 ^ 32

/-- Where `Add` returns -1. -/
inductive Failure where
  | nameLengthZero
  | valueTooLong
  | notInitialized
  | areaNotFound
  | accessDenied
  | addFailed
  deriving DecidableEq

inductive Fault where
  | check
  | copy (e : PropArea.Fault)
  deriving DecidableEq

def copyValue (pi : PropInfo) (value : ℕ → Byte) (n : ℕ) : Except Fault PropInfo :=
  if n > propValueMax then .error (.copy .overrun)
  else .ok { pi with value := fun i => if i < n then value i else pi.value i }

section
variable {κ : Type} [DecidableEq κ]

def Areas.setArea (s : Areas κ) (k : κ) (a : Area) : Areas κ :=
  { s with pas := update s.pas k a }

def setInfo (a : Area) (p : ℕ) (pi : PropInfo) : Area :=
  { a with infos := update a.infos p pi }

variable (sys : SystemProperties κ)

def addOverride (contexts : Contexts κ) (other : Areas κ) (c : Call) : Except Fault (Areas κ) :=
  match contexts.getPropAreaForName (overrideName c.name), contexts.getSerialPropArea with
  | some k, true =>
    match PropArea.find sys.paDataSize (other.pas k) (overrideName c.name) with
    | .error e => .error (.copy e)
    | .ok none =>
      match PropArea.add sys.paDataSize (other.pas k) (overrideName c.name) c.value c.valuelen with
      | .error e => .error (.copy e)
      | .ok (a, none) => .ok (other.setArea k a)
      | .ok (a, some _) => .ok { other.setArea k a with serial := other.serial + 1 }
    | .ok (some otherPi) =>
      if isAppcompatOverride c.name then
        if sys.privileged then
          match copyValue ((other.pas k).infos otherPi) c.value (c.valuelen + 1).toNat with
          | .error e => .error e
          | .ok pi => .ok (other.setArea k (setInfo (other.pas k) otherPi pi))
        else .error .check
      else .ok other
  | _, _ => .error .check

def add (s : State κ) (c : Call) : Except Fault (State κ × Except Failure Unit) :=
  if c.name.length < 1 then .ok (s, .error .nameLengthZero)
  else if c.valuelen.toNat ≥ propValueMax ∧ isReadOnly c.name = false then
    .ok (s, .error .valueTooLong)
  else if sys.initialized = false then .ok (s, .error .notInitialized)
  else if sys.contexts.getSerialPropArea = false then .ok (s, .error .areaNotFound)
  else
    match sys.contexts.getPropAreaForName c.name with
    | none => .ok (s, .error .accessDenied)
    | some k =>
      match PropArea.add sys.paDataSize (s.main.pas k) c.name c.value c.valuelen with
      | .error e => .error (.copy e)
      | .ok (a, none) => .ok ({ s with main := s.main.setArea k a }, .error .addFailed)
      | .ok (a, some _) =>
        let main := { s.main.setArea k a with serial := s.main.serial + 1 }
        match sys.appcompatOverrideContexts with
        | none => .ok ({ s with main := main }, .ok ())
        | some contexts =>
          match addOverride sys contexts s.other c with
          | .error e => .error e
          | .ok other => .ok (⟨main, other⟩, .ok ())

end

def isLong (pi : PropInfo) : Bool := pi.serial &&& kLongFlag ≠ 0

def longOffset (pi : PropInfo) : ℕ :=
  (List.range 4).foldr (fun i n => (pi.value (kLongLegacyErrorBufferSize + i)).toNat + 256 * n) 0

def longValue (a : Area) (p : ℕ) : ℕ → Byte := fun i => a.chars (p + longOffset (a.infos p) + i)

def readMutablePropertyValue (dirtyBackupArea : ℕ → Byte) (pi : PropInfo) (value : ℕ → Byte) :
    Except Fault (BitVec 32 × (ℕ → Byte)) :=
  let len := serialValueLen pi.serial
  let source := if serialDirty pi.serial then dirtyBackupArea else pi.value
  if len + 1 > propValueMax then .error (.copy .overrun)
  else .ok (pi.serial, fun i => if i < len + 1 then source i else value i)

/-- What `Read` returns and what is then in the buffers of the caller. -/
structure ReadResult where
  len : ℕ
  name : List Byte
  value : ℕ → Byte

def read (dirtyBackupArea : ℕ → Byte) (pi : PropInfo) (value : ℕ → Byte) :
    Except Fault ReadResult :=
  match readMutablePropertyValue dirtyBackupArea pi value with
  | .error e => .error e
  | .ok (serial, value) => .ok ⟨serialValueLen serial, pi.name.take (propNameMax - 1), value⟩

structure CallbackArgs where
  name : List Byte
  value : ℕ → Byte
  serial : BitVec 32

/-- `valueBuf` is what happens to be in the buffer on the stack. -/
def readCallback (dirtyBackupArea : ℕ → Byte) (a : Area) (p : ℕ) (valueBuf : ℕ → Byte) :
    Except Fault CallbackArgs :=
  let pi := a.infos p
  if isReadOnly pi.name then
    if isLong pi then .ok ⟨pi.name, longValue a p, pi.serial⟩
    else .ok ⟨pi.name, pi.value, pi.serial⟩
  else
    match readMutablePropertyValue dirtyBackupArea pi valueBuf with
    | .error e => .error e
    | .ok (serial, value) => .ok ⟨pi.name, value, serial⟩

variable {a : Area} {name : List Byte} {value : ℕ → Byte} {valuelen : BitVec 32}

section
variable {p : ℕ}

def Gives (bytes : ℕ → Byte) (text : (ℕ → Byte) × ℕ) : Prop :=
  (∀ i < text.2, bytes i = text.1 i) ∧ bytes text.2 = 0

def legacyText (value : ℕ → Byte) (valuelen : BitVec 32) : (ℕ → Byte) × ℕ :=
  if valuelen.toNat < propValueMax then (value, valuelen.toNat)
  else (fun i => kLongLegacyError.getD i 0, kLongLegacyError.length)

theorem serialValueLen_short (h : valuelen.toNat < propValueMax) :
    serialValueLen (valuelen <<< 24) = valuelen.toNat := by
  have hl : valuelen.toNat < 92 := h
  rw [serialValueLen, BitVec.toNat_ushiftRight, BitVec.toNat_shiftLeft, shiftLeft_eq,
    shiftRight_eq_div_pow]
  omega

theorem serialDirty_short : serialDirty (valuelen <<< 24) = false := by
  have had : valuelen <<< 24 &&& 1#32 = 0#32 := by
    ext i hi
    simp only [BitVec.getElem_and, BitVec.getElem_shiftLeft, BitVec.getElem_one,
      BitVec.getElem_zero]
    by_cases h0 : i = 0
    · subst h0
      simp
    · simp [h0]
  simp [serialDirty, had]

theorem isLong_short : isLong (PropInfo.ofShort name value valuelen) = false := by
  have had : valuelen <<< 24 &&& kLongFlag = 0#32 := by
    ext i hi
    simp only [kLongFlag, BitVec.getElem_and, BitVec.getElem_shiftLeft, BitVec.getElem_one,
      BitVec.getElem_zero]
    by_cases h24 : i < 24
    · simp [h24]
    · have hn : ¬i - 16 = 0 := by omega
      simp [hn]
  simp [isLong, PropInfo.ofShort, had]

theorem isLong_long (d) : isLong (PropInfo.ofLong name d) := by
  have had : (BitVec.ofNat 32 kLongLegacyError.length <<< 24 ||| kLongFlag) &&& kLongFlag ≠ 0 := by
    decide +kernel
  exact decide_eq_true had

theorem longOffset_long {d} (h : d < 2 ^ 32) : longOffset (PropInfo.ofLong name d) = d := by
  have hb : ∀ i < 4, ((PropInfo.ofLong name d).value (kLongLegacyErrorBufferSize + i)).toNat =
      d / 256 ^ i % 256 := by
    intro i hi
    have hl : 56 + i < 60 := by omega
    simp [PropInfo.ofLong, kLongLegacyErrorBufferSize, hl]
  simp only [longOffset, range, List.range.loop, foldr]
  rw [hb 0 (by omega), hb 1 (by omega), hb 2 (by omega), hb 3 (by omega)]
  omega

section
variable (h : Recorded a p name value valuelen)
include h

theorem readMutablePropertyValue_recorded (dirtyBackupArea buf : ℕ → Byte) :
    ∃ r, readMutablePropertyValue dirtyBackupArea (a.infos p) buf = .ok r ∧
      serialValueLen r.1 = (legacyText value valuelen).2 ∧
      Gives r.2 (legacyText value valuelen) := by
  obtain ⟨-, h⟩ := h
  rw [legacyText]
  by_cases hs : valuelen.toNat < propValueMax
  · rw [if_pos hs] at h ⊢
    have hl : serialValueLen (a.infos p).serial = valuelen.toNat := by
      rw [h]
      exact serialValueLen_short hs
    have hd : serialDirty (a.infos p).serial = false := by
      rw [h]
      exact serialDirty_short
    have hr : ¬valuelen.toNat + 1 > propValueMax := by omega
    simp only [readMutablePropertyValue, hl, hd, hr, if_false]
    refine ⟨_, rfl, hl, ?_, ?_⟩
    · intro i hi
      have hi : i < valuelen.toNat := hi
      simp [h, PropInfo.ofShort, hi, lt_succ_of_lt hi]
    · simp [h, PropInfo.ofShort]
  rw [if_neg hs] at h ⊢
  obtain ⟨long, -, -, hif, -⟩ := h
  have hsr : (a.infos p).serial = BitVec.ofNat 32 kLongLegacyError.length <<< 24 |||
      kLongFlag := by
    rw [hif]
    rfl
  have hl : serialValueLen (a.infos p).serial = kLongLegacyError.length := by
    rw [hsr]
    decide +kernel
  have hd : serialDirty (a.infos p).serial = false := by
    rw [hsr]
    decide +kernel
  have hsz : kLongLegacyError.length = 50 := by decide +kernel
  have hr : ¬kLongLegacyError.length + 1 > propValueMax := by
    rw [hsz]
    decide
  simp only [readMutablePropertyValue, hl, hd, hr, if_false]
  refine ⟨_, rfl, hl, ?_, ?_⟩
  · intro i hi
    have hi : i < kLongLegacyError.length := hi
    have hb : ¬(kLongLegacyErrorBufferSize ≤ i ∧ i < kLongLegacyErrorBufferSize + 4) := by
      rw [kLongLegacyErrorBufferSize]
      omega
    simp [hif, PropInfo.ofLong, hb, lt_succ_of_lt hi]
  · have hb : ¬(kLongLegacyErrorBufferSize ≤ kLongLegacyError.length ∧
        kLongLegacyError.length < kLongLegacyErrorBufferSize + 4) := by
      rw [kLongLegacyErrorBufferSize]
      omega
    simp [hif, PropInfo.ofLong, hb]

theorem readCallback_recorded (hu : a.bytesUsed ≤ 2 ^ 32) (dirtyBackupArea buf : ℕ → Byte) :
    ∃ args, readCallback dirtyBackupArea a p buf = .ok args ∧ args.name = name ∧ Gives args.value
        (if isReadOnly name then (value, valuelen.toNat) else legacyText value valuelen) := by
  have hnm := h.name_eq
  rw [readCallback, hnm]
  by_cases hr : isReadOnly name
  · rw [if_pos hr, if_pos hr]
    obtain ⟨-, h⟩ := h
    by_cases hs : valuelen.toNat < propValueMax
    · rw [if_pos hs] at h
      rw [h, isLong_short, if_neg nofun]
      refine ⟨_, rfl, rfl, ?_, ?_⟩
      · intro i hi
        have hi : i < valuelen.toNat := hi
        simp [PropInfo.ofShort, hi]
      · simp [PropInfo.ofShort]
    · rw [if_neg hs] at h
      obtain ⟨long, hl, hed, hif, hca, hn⟩ := h
      have hv : ∀ i, longValue a p i = a.chars (long + i) := by
        intro i
        rw [longValue, hif, longOffset_long (by omega)]
        congr 1
        omega
      rw [hif, isLong_long, if_pos rfl]
      refine ⟨_, rfl, rfl, ?_, ?_⟩
      · intro i hi
        exact (hv i).trans (hca i hi)
      · exact (hv valuelen.toNat).trans hn
  · rw [if_neg hr, if_neg hr]
    obtain ⟨r, hrd, -, hg⟩ := readMutablePropertyValue_recorded h dirtyBackupArea buf
    rw [hrd]
    exact ⟨_, rfl, rfl, hg⟩

end

end

variable {n : ℕ} {a' : Area}

/-- Only the value of one property has changed, and new objects. -/
structure OnlyNamed (n : ℕ) (name : List Byte) (a a' : Area) : Prop where
  used : a.bytesUsed ≤ a'.bytesUsed
  chars : ∀ x < a.bytesUsed, a'.chars x = a.chars x
  infos : ∀ x < a.bytesUsed, find n a name ≠ .ok (some x) → a'.infos x = a.infos x
  named : ∀ x < a.bytesUsed, find n a name = .ok (some x) →
    (a'.infos x).serial = (a.infos x).serial ∧ (a'.infos x).name = (a.infos x).name ∧
      ∀ i, propValueMax ≤ i → (a'.infos x).value i = (a.infos x).value i
  finds : ∀ m, Short m → m ≠ name → find n a' m = find n a m

theorem OnlyNamed.refl (n name a) : OnlyNamed n name a a :=
  ⟨le_rfl, fun _ _ => rfl, fun _ _ _ => rfl, fun _ _ _ => ⟨rfl, rfl, fun _ _ => rfl⟩,
    fun _ _ _ => rfl⟩

theorem OnlyNamed.of_extends (h : Extends a a')
    (hf : ∀ m, Short m → m ≠ name → find n a' m = find n a m) : OnlyNamed n name a a' where
  used := h.used
  chars := h.chars
  infos x hx _ := h.infos x hx
  named x hx _ := by
    rw [h.infos x hx]
    exact ⟨rfl, rfl, fun _ _ => rfl⟩
  finds := hf

/-- An area built by calls, in which a property has the name by which it is found. -/
structure Named (n : ℕ) (a : Area) : Prop where
  built : ∃ t, Built n a t
  names : ∀ m p, Short m → find n a m = .ok (some p) → p < a.bytesUsed ∧ (a.infos p).name = m

theorem find_emptyArea (n m p) : find n emptyArea m ≠ .ok (some p) := by
  rw [built_emptyArea.find]
  split <;> nofun

theorem named_emptyArea : Named n emptyArea where
  built := ⟨_, built_emptyArea⟩
  names m p _ h := absurd h (find_emptyArea n m p)

theorem Named.find_ok (h : Named n a) (m) : ∃ r, find n a m = .ok r := by
  obtain ⟨t, ht⟩ := h.built
  exact ⟨_, ht.find m⟩

/-- What a call of `add` does to the searches in an area. -/
inductive AddEffect (n : ℕ) (name : List Byte) (value : ℕ → Byte) (valuelen : BitVec 32)
    (a a' : Area) : Option ℕ → Prop
  | same {r} (finds : ∀ m, find n a' m = find n a m) (result : r = none ∨ find n a name = .ok r) :
      AddEffect n name value valuelen a a' r
  | new {p} (absent : find n a name = .ok none) (self : find n a' name = .ok (some p))
      (finds : ∀ m, Short m → m ≠ name → find n a' m = find n a m)
      (recorded : Recorded a' p name value valuelen) : AddEffect n name value valuelen a a' (some p)

theorem Named.add (h : Named n a) (hnm : Short name) (value : ℕ → Byte)
    (hl : valuelen ≠ BitVec.allOnes 32) :
    ∃ a' r, PropArea.add n a name value valuelen = .ok (a', r) ∧ Named n a' ∧ Extends a a' ∧
      AddEffect n name value valuelen a a' r := by
  obtain ⟨t, ht⟩ := h.built
  obtain ⟨a', r, t', had, ht', het, hcs⟩ := ht.add name value hl
  have hef : AddEffect n name value valuelen a a' r := by
    rcases hcs with hsm | ⟨p, rfl, hin, hrc⟩
    · refine .same ?_ ?_
      · intro m
        rw [ht.find, ht'.find, hsm.lookup]
      · rw [ht.find]
        rcases hsm.result with hr | ⟨hw, hr⟩
        · exact .inl hr
        · rw [if_pos hw, hr]
          exact .inr rfl
    · refine .new ?_ ?_ ?_ hrc
      · rw [ht.find, if_pos hin.wellFormed, hin.absent]
      · rw [ht'.find, if_pos hin.wellFormed, hin.self]
      · intro m hm hne
        have hs : substrs m ≠ substrs name := fun heq => hne (eq_of_substrs_eq hm hnm heq)
        rw [ht.find, ht'.find, hin.others _ hs]
  refine ⟨a', r, had, ⟨⟨t', ht'⟩, ?_⟩, het, hef⟩
  intro m p hm hf
  have ho : find n a m = .ok (some p) → p < a'.bytesUsed ∧ (a'.infos p).name = m := by
    intro hf
    obtain ⟨hlt, hn⟩ := h.names m p hm hf
    rw [het.infos p hlt]
    exact ⟨lt_of_lt_of_le hlt het.used, hn⟩
  cases hef with
  | same finds _ => exact ho ((finds m).symm.trans hf)
  | new _ self finds recorded =>
    by_cases hne : m = name
    · rw [hne] at hf ⊢
      cases self.symm.trans hf
      exact ⟨recorded.1, recorded.name_eq⟩
    · exact ho ((finds m hm hne).symm.trans hf)

theorem AddEffect.onlyNamed {r} (h : AddEffect n name value valuelen a a' r)
    (het : Extends a a') : OnlyNamed n name a a' := by
  cases h with
  | same finds _ => exact .of_extends het fun m _ _ => finds m
  | new _ _ finds _ => exact .of_extends het finds

theorem find_setInfo (h : Named n a) (p pi m) : find n (setInfo a p pi) m = find n a m := by
  obtain ⟨t, ht⟩ := h.built
  have ht' : Built n (setInfo a p pi) t :=
    ⟨ht.represents, ht.root, ht.placed, ht.pos, ht.used, ht.items⟩
  rw [ht.find, ht'.find]

theorem setInfo_of_ne {p x} (h : x ≠ p) (pi) :
    (setInfo a p pi).infos x = a.infos x := update_of_ne h _ _

theorem setInfo_self (p pi) : (setInfo a p pi).infos p = pi :=
  update_self ..

theorem Named.setInfo {p} {pi : PropInfo} (h : Named n a)
    (hn : pi.name = (a.infos p).name) : Named n (setInfo a p pi) where
  built := by
    obtain ⟨t, ht⟩ := h.built
    exact ⟨t, ht.represents, ht.root, ht.placed, ht.pos, ht.used, ht.items⟩
  names m x hm hf := by
    rw [find_setInfo h] at hf
    obtain ⟨hl, hx⟩ := h.names m x hm hf
    refine ⟨hl, ?_⟩
    by_cases hxp : x = p
    · subst hxp
      rw [setInfo_self, hn, hx]
    · rw [setInfo_of_ne hxp, hx]

theorem OnlyNamed.copyValue {p k} (h : Named n a) (hf : find n a name = .ok (some p))
    (hk : k ≤ propValueMax) : OnlyNamed n name a (SystemPropertyAdd.setInfo a p
      { a.infos p with value := fun i => if i < k then value i else (a.infos p).value i }) where
  used := le_rfl
  chars _ _ := rfl
  infos x _ hx := by
    refine setInfo_of_ne ?_ _
    rintro rfl
    exact hx hf
  named x _ hx := by
    cases hx.symm.trans hf
    rw [setInfo_self]
    refine ⟨rfl, rfl, ?_⟩
    intro i hi
    exact if_neg (not_lt.mpr (le_trans hk hi))
  finds m _ _ := find_setInfo h _ _ m

variable {c : Call}

section
variable {κ : Type} [DecidableEq κ] {sys : SystemProperties κ} {contexts : Contexts κ}
  {s s' : State κ}

/-- The property at `p` of `k` is the one found in the override contexts. -/
def FoundAt (sys : SystemProperties κ) (contexts : Contexts κ) (s : State κ) (c : Call) (k : κ)
    (p : ℕ) : Prop :=
  contexts.getPropAreaForName (overrideName c.name) = some k ∧
    find sys.paDataSize (s.other.pas k) (overrideName c.name) = .ok (some p)

/-- No value written to the override contexts is too long there. -/
structure Contained (sys : SystemProperties κ) (contexts : Contexts κ) (s : State κ) (c : Call) :
    Prop where
  careful : c.Careful
  fits : isAppcompatOverride c.name → ∀ k p, FoundAt sys contexts s c k p →
    c.valuelen.toNat < propValueMax

/-- The value is a C string, and one that it replaces in the override contexts is as long and not a
long value. -/
structure Matches (sys : SystemProperties κ) (contexts : Contexts κ) (s : State κ) (c : Call) :
    Prop extends Contained sys contexts s c where
  terminated : c.value c.valuelen.toNat = 0
  same : isAppcompatOverride c.name → ∀ k p, FoundAt sys contexts s c k p →
    isLong ((s.other.pas k).infos p) = false ∧
      serialValueLen ((s.other.pas k).infos p).serial = c.valuelen.toNat

structure Valid (sys : SystemProperties κ) (s : State κ) : Prop where
  main : ∀ k, Named sys.paDataSize (s.main.pas k)
  other : ∀ k, Named sys.paDataSize (s.other.pas k)

structure Frame (sys : SystemProperties κ) (c : Call) (s s' : State κ) : Prop where
  main : ∀ k, OnlyNamed sys.paDataSize c.name (s.main.pas k) (s'.main.pas k)
  other : ∀ k, OnlyNamed sys.paDataSize (overrideName c.name) (s.other.pas k) (s'.other.pas k)

inductive OverrideEffect (n : ℕ) (c : Call) (a : Area) : Area → Prop
  | added {a' r} (absent : find n a (overrideName c.name) = .ok none)
      (result : PropArea.add n a (overrideName c.name) c.value c.valuelen = .ok (a', r)) :
      OverrideEffect n c a a'
  | kept {p} (found : find n a (overrideName c.name) = .ok (some p))
      (plain : isAppcompatOverride c.name = false) : OverrideEffect n c a a
  | patched {p} (found : find n a (overrideName c.name) = .ok (some p))
      (isOverride : isAppcompatOverride c.name)
      (fits : (c.valuelen + 1).toNat ≤ propValueMax) :
      OverrideEffect n c a (setInfo a p { a.infos p with
        value := fun i => if i < (c.valuelen + 1).toNat then c.value i else (a.infos p).value i })

theorem short_overrideName (h : Short c.name) : Short (overrideName c.name) := by
  rw [overrideName]
  split
  · rename_i ho
    obtain ⟨rest, hr⟩ := List.isPrefixOf_iff_prefix.mp ho
    rw [← hr, drop_left]
    intro part hp
    refine h part ?_
    have hd : appcompatPrefix = appcompatPrefix.dropLast ++ [46] := by decide +kernel
    rw [← hr, hd, append_assoc, singleton_append, splitOn_append_cons_self]
    exact mem_append_right _ hp
  · exact h

theorem addOverride_cases {other} (ho : ∀ k, Named sys.paDataSize (other.pas k))
    (hc : c.Careful) (hft : isAppcompatOverride c.name → ∀ k p,
      contexts.getPropAreaForName (overrideName c.name) = some k →
      find sys.paDataSize (other.pas k) (overrideName c.name) = .ok (some p) →
      c.valuelen.toNat < propValueMax) : addOverride sys contexts other c = .error .check ∨
    ∃ k a' serial, contexts.getPropAreaForName (overrideName c.name) = some k ∧
      addOverride sys contexts other c = .ok ⟨update other.pas k a', serial⟩ ∧
      OverrideEffect sys.paDataSize c (other.pas k) a' := by
  rw [addOverride]
  cases har : contexts.getPropAreaForName (overrideName c.name) with
  | none => exact .inl rfl
  | some k =>
    cases contexts.getSerialPropArea with
    | false => exact .inl rfl
    | true =>
      dsimp only
      obtain ⟨r, hf⟩ := (ho k).find_ok (overrideName c.name)
      rw [hf]
      cases r with
      | none =>
        obtain ⟨a', r, had, -⟩ := (ho k).add (short_overrideName hc.1) c.value hc.2
        rw [had]
        cases r with
        | none | some p => exact .inr ⟨k, a', _, rfl, rfl, .added hf had⟩
      | some p =>
        dsimp only
        by_cases hov : isAppcompatOverride c.name
        · rw [if_pos hov]
          cases sys.privileged with
          | false => exact .inl rfl
          | true =>
            have hr : (c.valuelen + 1).toNat ≤ propValueMax := by
              have hl := hft hov k p har hf
              rw [toNat_add_one_of_ne hc.2]
              exact hl
            rw [if_pos rfl, copyValue, if_neg (not_lt.mpr hr)]
            exact .inr ⟨k, _, _, rfl, rfl, .patched hf hov hr⟩
        · rw [if_neg hov]
          refine .inr ⟨k, other.pas k, other.serial, rfl, ?_, .kept hf (by simpa using hov)⟩
          rw [update_eq_self]

variable {pas : κ → Area}

section
variable (h : OverrideEffect n c a a') (ha : Named n a) (hc : c.Careful)
include h ha hc

theorem OverrideEffect.named : Named n a' := by
  cases h with
  | added _ result =>
    obtain ⟨a'', r, had, hn, -⟩ := ha.add (short_overrideName hc.1) c.value hc.2
    cases had.symm.trans result
    exact hn
  | kept => exact ha
  | patched => exact ha.setInfo rfl

theorem OverrideEffect.onlyNamed : OnlyNamed n (overrideName c.name) a a' := by
  cases h with
  | added _ result =>
    obtain ⟨a'', r, had, -, het, hef⟩ :=
      ha.add (short_overrideName hc.1) c.value hc.2
    cases had.symm.trans result
    exact hef.onlyNamed het
  | kept => exact .refl n _ a
  | patched found _ fits => exact .copyValue ha found fits

end

theorem named_update {k} (h : ∀ k, Named n (pas k))
    (ha : Named n a') (k' : κ) : Named n (update pas k a' k') := by
  by_cases hk : k' = k
  · subst hk
    rw [update_self]
    exact ha
  · rw [update_of_ne hk]
    exact h k'

theorem onlyNamed_update {k} (h : OnlyNamed n name (pas k) a') (k' : κ) :
    OnlyNamed n name (pas k') (update pas k a' k') := by
  by_cases hk : k' = k
  · subst hk
    rw [update_self]
    exact h
  · rw [update_of_ne hk]
    exact .refl n name (pas k')

/-- A call that does not stop at a CHECK changes nothing but what it names, and if it is successful
has gone to the override contexts. -/
theorem add_cases (hs : Valid sys s) (hss : sys.appcompatOverrideContexts = some contexts)
    (hc : Contained sys contexts s c) : add sys s c = .error .check ∨
    ∃ s' r, add sys s c = .ok (s', r) ∧ Valid sys s' ∧ Frame sys c s s' ∧
      (r = .ok () → ∃ k a', contexts.getPropAreaForName (overrideName c.name) = some k ∧
        s'.other.pas = update s.other.pas k a' ∧
        OverrideEffect sys.paDataSize c (s.other.pas k) a') := by
  have hsm : Frame sys c s s := ⟨fun _ => .refl _ _ _, fun _ => .refl _ _ _⟩
  rw [add]
  split
  · exact .inr ⟨s, _, rfl, hs, hsm, nofun⟩
  split
  · exact .inr ⟨s, _, rfl, hs, hsm, nofun⟩
  split
  · exact .inr ⟨s, _, rfl, hs, hsm, nofun⟩
  split
  · exact .inr ⟨s, _, rfl, hs, hsm, nofun⟩
  cases sys.contexts.getPropAreaForName c.name with
  | none => exact .inr ⟨s, _, rfl, hs, hsm, nofun⟩
  | some k =>
    obtain ⟨a, r, had, hn, het, hef⟩ :=
      (hs.main k).add hc.careful.1 c.value hc.careful.2
    have hm := fun k' => named_update (k := k) hs.main hn k'
    have hf := onlyNamed_update (k := k) (hef.onlyNamed het)
    dsimp only
    rw [had]
    cases r with
    | none =>
      exact .inr ⟨_, _, rfl, ⟨hm, hs.other⟩, ⟨hf, fun _ => .refl _ _ _⟩, nofun⟩
    | some p =>
      rw [hss]
      dsimp only
      rcases addOverride_cases hs.other hc.careful
        (fun hov k p hk hp => hc.fits hov k p ⟨hk, hp⟩) with
        hck | ⟨k', a', serial, hk', ho, hef'⟩
      · rw [hck]
        exact .inl rfl
      rw [ho]
      refine .inr ⟨_, _, rfl, ⟨hm, ?_⟩, ⟨hf, ?_⟩, fun _ => ⟨k', a', hk', rfl, hef'⟩⟩
      · exact named_update hs.other (hef'.named (hs.other k') hc.careful)
      · exact onlyNamed_update (hef'.onlyNamed (hs.other k') hc.careful)

end

section
variable {κ : Type} {sys : SystemProperties κ} {contexts : Contexts κ} {s s' : State κ}
  {cs : List Call}

def start : State κ := ⟨⟨fun _ => emptyArea, 0⟩, ⟨fun _ => emptyArea, 0⟩⟩

theorem valid_start : Valid sys start := ⟨fun _ => named_emptyArea, fun _ => named_emptyArea⟩

/-- The override contexts are not full for the call. -/
def room (sys : SystemProperties κ) (contexts : Contexts κ) (s : State κ) (c : Call) : Bool :=
  match contexts.getPropAreaForName (overrideName c.name) with
  | none => true
  | some k =>
    match PropArea.add sys.paDataSize (s.other.pas k) (overrideName c.name) c.value c.valuelen with
    | .ok (_, none) => false
    | _ => true

def overrideOf (name : List Byte) (cs : List Call) : Option Call :=
  cs.find? fun c => c.name = appcompatPrefix ++ name

/-- Every property of the override contexts was recorded by a call, and one with an override by the
newest call for that. -/
structure Held (sys : SystemProperties κ) (contexts : Contexts κ) (s : State κ) (cs : List Call) :
    Prop where
  recorded : ∀ k m p, Short m → find sys.paDataSize (s.other.pas k) m = .ok (some p) →
    ∃ value valuelen, Recorded (s.other.pas k) p m value valuelen
  overrides : ∀ m c, overrideOf m cs = some c → Short m ∧ ∃ k p,
    contexts.getPropAreaForName m = some k ∧ find sys.paDataSize (s.other.pas k) m = .ok (some p) ∧
      Recorded (s.other.pas k) p m c.value c.valuelen

variable {m : List Byte} {k : κ} {p : ℕ}

theorem recorded_patched {old oldlen} (h : Recorded a p name old oldlen)
    (hlg : isLong (a.infos p) = false)
    (hl : serialValueLen (a.infos p).serial = c.valuelen.toNat)
    (hf : (c.valuelen + 1).toNat ≤ propValueMax) (hc : c.Careful)
    (hn : c.value c.valuelen.toNat = 0) : Recorded (setInfo a p { a.infos p with
      value := fun i => if i < (c.valuelen + 1).toNat then c.value i else (a.infos p).value i })
      p name c.value c.valuelen := by
  obtain ⟨hp, h⟩ := h
  rw [toNat_add_one_of_ne hc.2] at hf ⊢
  have hs : c.valuelen.toNat < propValueMax := hf
  by_cases ho : oldlen.toNat < propValueMax
  · rw [if_pos ho] at h
    have hsm : oldlen = c.valuelen := by
      rw [h] at hl
      exact BitVec.eq_of_toNat_eq ((serialValueLen_short ho).symm.trans hl)
    subst hsm
    refine ⟨hp, ?_⟩
    rw [if_pos hs, setInfo_self, h]
    simp only [PropInfo.ofShort, PropInfo.mk.injEq, true_and, and_true]
    funext i
    by_cases hi : i < c.valuelen.toNat
    · simp [hi, lt_succ_of_lt hi]
    by_cases heq : i = c.valuelen.toNat
    · simp [heq, hn]
    · have hg : ¬i < c.valuelen.toNat + 1 := by omega
      simp [hi, hg]
  · rw [if_neg ho] at h
    obtain ⟨long, -, -, hif, -⟩ := h
    rw [hif, isLong_long] at hlg
    cases hlg

theorem OverrideEffect.found (h : OverrideEffect sys.paDataSize c (s.other.pas k) a')
    (hs : Valid sys s) (hc : c.Careful)
    (hk : contexts.getPropAreaForName (overrideName c.name) = some k)
    (hr : room sys contexts s c) :
    ∃ p, find sys.paDataSize a' (overrideName c.name) = .ok (some p) := by
  cases h with
  | added absent result =>
    obtain ⟨a'', r, had, -, -, hef⟩ := (hs.other k).add (short_overrideName hc.1) c.value hc.2
    cases had.symm.trans result
    simp only [room, hk, had] at hr
    cases hef with
    | same _ hres =>
      rcases hres with rfl | hf
      · cases hr
      · cases absent.symm.trans hf
        cases hr
    | new _ self => exact ⟨_, self⟩
  | kept found => exact ⟨_, found⟩
  | patched found => exact ⟨_, (find_setInfo (hs.other k) _ _ _).trans found⟩

theorem OverrideEffect.self
    (h : OverrideEffect sys.paDataSize c (s.other.pas k) a') (hs : Valid sys s)
    (hh : Held sys contexts s cs) (hc : Matches sys contexts s c)
    (hk : contexts.getPropAreaForName (overrideName c.name) = some k)
    (hp : find sys.paDataSize a' (overrideName c.name) = .ok (some p)) :
    Recorded a' p (overrideName c.name) c.value c.valuelen ∨
      isAppcompatOverride c.name = false ∧ a' = s.other.pas k := by
  have hst := short_overrideName hc.careful.1
  cases h with
  | added absent result =>
    obtain ⟨a'', r, had, -, -, hef⟩ := (hs.other k).add hst c.value hc.careful.2
    cases had.symm.trans result
    cases hef with
    | same finds _ => cases (absent.symm.trans (finds _).symm).trans hp
    | new _ self _ recorded =>
      cases self.symm.trans hp
      exact .inl recorded
  | kept _ plain => exact .inr ⟨plain, rfl⟩
  | patched found isOverride fits =>
    rw [find_setInfo (hs.other k)] at hp
    cases found.symm.trans hp
    obtain ⟨old, oldlen, ho⟩ := hh.recorded k _ _ hst found
    obtain ⟨hlg, hl⟩ := hc.same isOverride k _ ⟨hk, found⟩
    exact .inl (recorded_patched ho hlg hl fits hc.careful hc.terminated)

theorem recorded_of_ne (h : OnlyNamed n name a a') (ha : Named n a) (hn : Short name)
    (hne : m ≠ name) (hr : Recorded a p m value valuelen) : Recorded a' p m value valuelen := by
  refine hr.congr h.used (h.infos p hr.1 ?_) h.chars
  intro hf
  exact hne (hr.name_eq.symm.trans (ha.names name p hn hf).2)

theorem eq_of_isAppcompatOverride (h : isAppcompatOverride name) :
    name = appcompatPrefix ++ overrideName name := by
  obtain ⟨rest, hr⟩ := List.isPrefixOf_iff_prefix.mp h
  rw [overrideName, if_pos h, ← hr, drop_left]

theorem overrideName_append (name) : isAppcompatOverride (appcompatPrefix ++ name) ∧
      overrideName (appcompatPrefix ++ name) = name := by
  have ho : isAppcompatOverride (appcompatPrefix ++ name) :=
    List.isPrefixOf_iff_prefix.mpr (prefix_append _ _)
  exact ⟨ho, by rw [overrideName, if_pos ho, drop_left]⟩

theorem OverrideEffect.others {d : Call} (hs : Valid sys s) (hc : c.Careful)
    (hef : OverrideEffect sys.paDataSize c (s.other.pas k) a')
    (hm : Short m) (hoh : c.name ≠ appcompatPrefix ++ m)
    (hp : find sys.paDataSize (s.other.pas k) m = .ok (some p))
    (hr : Recorded (s.other.pas k) p m d.value d.valuelen) :
    find sys.paDataSize a' m = .ok (some p) ∧ Recorded a' p m d.value d.valuelen := by
  have ho := hef.onlyNamed (hs.other k) hc
  by_cases hn : m = overrideName c.name
  · subst hn
    cases hef with
    | added absent _ => cases absent.symm.trans hp
    | kept => exact ⟨hp, hr⟩
    | patched _ isOverride _ => exact absurd (eq_of_isAppcompatOverride isOverride) hoh
  · refine ⟨(ho.finds m hm hn).trans hp, ?_⟩
    exact recorded_of_ne ho (hs.other k) (short_overrideName hc.1) hn hr

theorem held_start : Held sys contexts start [] where
  recorded _ m p _ hp := absurd hp (find_emptyArea _ m p)
  overrides _ _ hd := by cases hd

variable [DecidableEq κ]

/-- After successful calls that meet a condition, the newest first. -/
inductive Reaches (sys : SystemProperties κ) (P : State κ → Call → Prop) :
    State κ → List Call → Prop
  | start : Reaches sys P start []
  | add {s s' : State κ} {c : Call} {cs : List Call} (reaches : Reaches sys P s cs)
      (meets : P s c) (result : SystemPropertyAdd.add sys s c = .ok (s', .ok ())) :
      Reaches sys P s' (c :: cs)

theorem Reaches.valid {P} (hP : ∀ s c, P s c → Contained sys contexts s c)
    (hs : sys.appcompatOverrideContexts = some contexts) (h : Reaches sys P s cs) :
    Valid sys s := by
  induction h with
  | start => exact valid_start
  | add _ meets result ih =>
    rcases add_cases ih hs (hP _ _ meets) with hck | ⟨s', r, had, hv, -⟩
    · cases hck.symm.trans result
    · cases had.symm.trans result
      exact hv

theorem Held.step (hh : Held sys contexts s cs) (hs : Valid sys s)
    (hc : Matches sys contexts s c) (hrm : room sys contexts s c)
    (hk : contexts.getPropAreaForName (overrideName c.name) = some k)
    (hps : s'.other.pas = update s.other.pas k a')
    (hef : OverrideEffect sys.paDataSize c (s.other.pas k) a') :
    Held sys contexts s' (c :: cs) := by
  have hsf : s'.other.pas k = a' := by rw [hps, update_self]
  have ho : ∀ k' ≠ k, s'.other.pas k' = s.other.pas k' := by
    intro k' hk'
    rw [hps, update_of_ne hk']
  refine ⟨?_, ?_⟩
  · intro k' m p hm hp
    by_cases hk' : k' = k
    · subst hk'
      rw [hsf] at hp ⊢
      have hoy := hef.onlyNamed (hs.other k') hc.careful
      by_cases hn : m = overrideName c.name
      · subst hn
        rcases hef.self hs hh hc hk hp with hr | ⟨-, rfl⟩
        · exact ⟨_, _, hr⟩
        · exact hh.recorded k' _ p hm hp
      · rw [hoy.finds m hm hn] at hp
        obtain ⟨value, valuelen, hr⟩ := hh.recorded k' m p hm hp
        exact ⟨value, valuelen,
          recorded_of_ne hoy (hs.other k') (short_overrideName hc.careful.1) hn hr⟩
    · rw [ho k' hk'] at hp ⊢
      exact hh.recorded k' m p hm hp
  intro m d hd
  rw [overrideOf, find?_cons] at hd
  by_cases hn : c.name = appcompatPrefix ++ m
  · simp only [hn, decide_true, Option.some.injEq] at hd
    subst hd
    have hm : overrideName c.name = m := by
      rw [hn]
      exact (overrideName_append m).2
    obtain ⟨p, hp⟩ := hef.found hs hc.careful hk hrm
    rcases hef.self hs hh hc hk hp with hr | ⟨hpn, -⟩
    · rw [hm] at hk hp hr
      refine ⟨?_, k, p, hk, ?_, ?_⟩
      · rw [← hm]
        exact short_overrideName hc.careful.1
      · rw [hsf]
        exact hp
      · rw [hsf]
        exact hr
    · rw [hn, (overrideName_append m).1] at hpn
      cases hpn
  · simp only [hn, decide_false] at hd
    obtain ⟨hm, k', p, hk', hp, hr⟩ := hh.overrides m d hd
    by_cases hkk : k' = k
    · subst hkk
      obtain ⟨hp', hr'⟩ := OverrideEffect.others hs hc.careful hef hm hn hp hr
      refine ⟨hm, k', p, hk', ?_, ?_⟩
      · rw [hsf]
        exact hp'
      · rw [hsf]
        exact hr'
    · refine ⟨hm, k', p, hk', ?_, ?_⟩
      · rw [ho k' hkk]
        exact hp
      · rw [ho k' hkk]
        exact hr

theorem Reaches.held (hs : sys.appcompatOverrideContexts = some contexts)
    (h : Reaches sys (fun s c => Matches sys contexts s c ∧ room sys contexts s c) s cs) :
    Held sys contexts s cs := by
  induction h with
  | start => exact held_start
  | add reaches meets result ih =>
    have hv := reaches.valid (fun _ _ h => h.1.toContained) hs
    rcases add_cases hv hs meets.1.toContained with hck | ⟨s', r, had, -, -, hef⟩
    · cases hck.symm.trans result
    cases had.symm.trans result
    obtain ⟨k, a', hk, hp, hef⟩ := hef rfl
    exact ih.step hv meets.1 meets.2 hk hp hef

def passes (sys : SystemProperties κ) (test : State κ → Bool) : List Call → State κ → Bool
  | [], s => test s
  | c :: cs, s =>
    match add sys s c with
    | .ok (s', .ok ()) => passes sys test cs s'
    | _ => false

theorem exists_of_passes {test} (h : passes sys test (c :: cs) s) :
    ∃ s', add sys s c = .ok (s', .ok ()) ∧ passes sys test cs s' := by
  rw [passes] at h
  split at h
  · rename_i s' had
    exact ⟨s', had, h⟩
  · cases h

def oneArea : SystemProperties Unit where
  paDataSize := 130944
  initialized := true
  contexts := ⟨fun _ => some (), true⟩
  appcompatOverrideContexts := some ⟨fun _ => some (), true⟩
  privileged := true
  small := by decide

def roA : List Byte := [114, 111, 46, 97]

/-- What the calls leave in the override contexts. -/
theorem override_reads_back (hsys : sys.appcompatOverrideContexts = some contexts) :
    (∀ s cs, Reaches sys (Contained sys contexts) s cs →
      ∀ c, Contained sys contexts s c → add sys s c = .error .check ∨
        ∃ s' r, add sys s c = .ok (s', r) ∧ Frame sys c s s') ∧
    ∀ s cs, Reaches sys (fun s c => Matches sys contexts s c ∧ room sys contexts s c) s cs →
      ∀ m c, overrideOf m cs = some c → ∃ k p, contexts.getPropAreaForName m = some k ∧
          find sys.paDataSize (s.other.pas k) m = .ok (some p) ∧
          ∀ dirtyBackupArea buf, (∃ r, read dirtyBackupArea ((s.other.pas k).infos p) buf = .ok r ∧
              r.len = (legacyText c.value c.valuelen).2 ∧
              Gives r.value (legacyText c.value c.valuelen)) ∧
            ∃ args, readCallback dirtyBackupArea (s.other.pas k) p buf = .ok args ∧ args.name = m ∧
              Gives args.value (if isReadOnly m then (c.value, c.valuelen.toNat)
                else legacyText c.value c.valuelen) := by
  constructor
  · intro s cs h c hc
    have hv := h.valid (fun _ _ h => h) hsys
    rcases add_cases hv hsys hc with hck | ⟨s', r, had, -, hf, -⟩
    · exact .inl hck
    · exact .inr ⟨s', r, had, hf⟩
  intro s cs h m c hm
  have hv := h.valid (fun _ _ h => h.1.toContained) hsys
  obtain ⟨-, k, p, hk, hp, hr⟩ := (h.held hsys).overrides m c hm
  have hu : (s.other.pas k).bytesUsed ≤ 2 ^ 32 := by
    obtain ⟨t, ht⟩ := (hv.other k).built
    refine le_trans ht.used (Nat.max_le.mpr ⟨by decide, le_of_lt sys.small⟩)
  refine ⟨k, p, hk, hp, fun dirtyBackupArea buf => ⟨?_, ?_⟩⟩
  · obtain ⟨r, hrd, hl, hg⟩ := readMutablePropertyValue_recorded hr dirtyBackupArea buf
    rw [read, hrd]
    exact ⟨_, rfl, hl, hg⟩
  · exact readCallback_recorded hr hu dirtyBackupArea buf

/-- `ro.a`, then its override with another value of the same length. -/
theorem override_reads_back_same_length :
    ∃ s cs c p, Reaches oneArea (fun s c => Matches oneArea ⟨fun _ => some (), true⟩ s c ∧
        room oneArea ⟨fun _ => some (), true⟩ s c) s cs ∧ overrideOf roA cs = some c ∧
      find 130944 (s.other.pas ()) roA = .ok (some p) ∧
      ∃ r, read (fun _ => 0) ((s.other.pas ()).infos p) (fun _ => 0) = .ok r ∧
        r.len = 1 ∧ Gives r.value (c.value, 1) := by
  let one : Call := ⟨roA, fun i => if i < 1 then 120 else 0, 1⟩
  let two : Call := ⟨appcompatPrefix ++ roA, fun i => if i < 1 then 121 else 0, 1⟩
  have hcs : passes oneArea (fun s => find 130944 (s.other.pas ()) roA = .ok (some 160) &&
      !isLong ((s.other.pas ()).infos 160) &&
      serialValueLen ((s.other.pas ()).infos 160).serial = 1 &&
      room oneArea ⟨fun _ => some (), true⟩ s two && passes oneArea (fun _ => true) [two] s)
      [one] start := by
    decide +kernel
  obtain ⟨s, ho, h⟩ := exists_of_passes hcs
  rw [passes] at h
  simp only [Bool.and_eq_true, decide_eq_true_eq, Bool.not_eq_true'] at h
  obtain ⟨⟨⟨⟨hf, hlg⟩, hl⟩, hrm⟩, ht⟩ := h
  obtain ⟨s', ht, -⟩ := exists_of_passes ht
  have hn : overrideName two.name = roA := (overrideName_append roA).2
  have hpn : ¬isAppcompatOverride one.name := by decide +kernel
  have hat : ∀ k p, FoundAt oneArea ⟨fun _ => some (), true⟩ s two k p → p = 160 := by
    rintro k p ⟨-, hp⟩
    rw [hn] at hp
    cases hp.symm.trans hf
    rfl
  have hra : Reaches oneArea (fun s c => Matches oneArea ⟨fun _ => some (), true⟩ s c ∧
      room oneArea ⟨fun _ => some (), true⟩ s c) s' [two, one] := by
    refine .add (.add .start ⟨⟨⟨by decide, ?_⟩, rfl, ?_⟩, by decide +kernel⟩ ho)
      ⟨⟨⟨by decide +kernel, ?_⟩, rfl, ?_⟩, hrm⟩ ht
    · exact fun hov => absurd hov hpn
    · exact fun hov => absurd hov hpn
    · exact fun _ _ _ _ => by decide
    intro _ k p hp
    rw [hat k p hp]
    exact ⟨hlg, hl⟩
  have hs : oneArea.appcompatOverrideContexts = some ⟨fun _ => some (), true⟩ := rfl
  have hov : overrideOf roA [two, one] = some two :=
    find?_cons_of_pos (decide_eq_true (rfl : two.name = appcompatPrefix ++ roA))
  obtain ⟨-, hrs⟩ := override_reads_back hs
  obtain ⟨k, p, -, hp, hrd⟩ := hrs s' [two, one] hra roA two hov
  obtain ⟨r, hr, hl', hg⟩ := (hrd (fun _ => 0) (fun _ => 0)).1
  exact ⟨s', [two, one], two, p, hra, hov, hp, r, hr, hl', hg⟩

end

def readLen (n : ℕ) (a : Area) : Option ℕ :=
  match find n a roA with
  | .ok (some p) =>
    match read (fun _ => 0) (a.infos p) (fun _ => 0) with
    | .ok r => some r.len
    | .error _ => none
  | _ => none

/-- An area for `ro.appcompat_override.ro.a` and one for the other names, with space for one such
name. -/
def twoAreas : SystemProperties Bool where
  paDataSize := 360
  initialized := true
  contexts := ⟨fun name => some (name = appcompatPrefix ++ roA), true⟩
  appcompatOverrideContexts := some ⟨fun name => some (name = appcompatPrefix ++ roA), true⟩
  privileged := true
  small := by decide

/-- An override of 92 bytes is read as the message, of 50; one of one byte over a value of two is
read with the length of that; and one without space is not there. -/
theorem override_not_read_back : passes oneArea (fun s => readLen 130944 (s.other.pas ()) = some 50)
      [⟨appcompatPrefix ++ roA, fun i => if i < 92 then 120 else 0, 92⟩] start ∧
    passes oneArea (fun s => readLen 130944 (s.other.pas ()) = some 2)
      [⟨roA, fun i => if i < 2 then 120 else 0, 2⟩,
        ⟨appcompatPrefix ++ roA, fun i => if i < 1 then 121 else 0, 1⟩] start ∧
    passes twoAreas (fun s => readLen 360 (s.other.pas false) = none)
      [⟨appcompatPrefix ++ [114, 111, 46, 98], fun i => if i < 1 then 120 else 0, 1⟩,
        ⟨appcompatPrefix ++ roA, fun i => if i < 1 then 121 else 0, 1⟩] start := by
  decide +kernel

section

open SystemPropertyUpdate (newSerial)

inductive UpdateFault where
  | nullPropInfo
  | fault (e : Fault)

/-- Both copies get the serial of the primary one. -/
def store (serial : BitVec 32) (value : ℕ → Byte) (len : ℕ) (pi : PropInfo) : PropInfo :=
  { pi with serial := serial, value := fun i => if i < len + 1 then value i else pi.value i }

variable {κ : Type} [DecidableEq κ]

def Areas.store (s : Areas κ) (k : κ) (p : ℕ) (f : PropInfo → PropInfo) (serial : BitVec 32) :
    Areas κ :=
  ⟨update s.pas k (setInfo (s.pas k) p (f ((s.pas k).infos p))), serial⟩

/-- `Update` of the property at `p` of the area `k`, and whether it returns 0. Copies to the backup
areas only have to fit. -/
def updateProp (sys : SystemProperties κ) (s : State κ) (k : κ) (p : ℕ) (value : ℕ → Byte)
    (len : ℕ) : Except UpdateFault (State κ × Bool) :=
  let pi := (s.main.pas k).infos p
  if len ≥ propValueMax ∨ sys.initialized = false ∨ sys.contexts.getSerialPropArea = false ∨
      sys.contexts.getPropAreaForName pi.name = none then .ok (s, false)
  else
    let backUp (r : Except UpdateFault (State κ × Bool)) :=
      if serialValueLen pi.serial + 1 > propValueMax then .error (.fault (.copy .overrun)) else r
    let stored := store (newSerial (isReadOnly pi.name) len (pi.serial ||| 1)) value len
    let main := s.main.store k p stored (s.main.serial + 1)
    match sys.appcompatOverrideContexts with
    | none => backUp (.ok ({ s with main := main }, true))
    | some contexts =>
      match contexts.getPropAreaForName pi.name, contexts.getSerialPropArea with
      | some k', true =>
        match find sys.paDataSize (s.other.pas k') pi.name with
        | .error e => .error (.fault (.copy e))
        | .ok none => backUp (.error .nullPropInfo)
        | .ok (some q) => backUp (.ok (⟨main, s.other.store k' q stored (main.serial + 1)⟩, true))
      | _, _ => .error (.fault .check)

def Stored (s : State κ) (k k' : κ) (p q : ℕ) (value : ℕ → Byte) (len : ℕ) : Prop :=
  ((s.main.pas k).infos p).serial = ((s.other.pas k').infos q).serial ∧
    ∀ i ≤ len, ((s.main.pas k).infos p).value i = value i ∧
      ((s.other.pas k').infos q).value i = value i

theorem stored_store (s : State κ) (k k' : κ) (p q) (value : ℕ → Byte) (len : ℕ)
    (serial n n') : Stored ⟨s.main.store k p (store serial value len) n,
      s.other.store k' q (store serial value len) n'⟩ k k' p q value len := by
  refine ⟨by simp [Areas.store, setInfo, store], fun i hi => ?_⟩
  simp [Areas.store, setInfo, store, Nat.not_lt_of_le hi]

variable {sys : SystemProperties κ} {contexts : Contexts κ} {s s' : State κ} {c : Call}
  {cs : List Call} {k : κ} {p len : ℕ} {value : ℕ → Byte}

/-- What `Update` of a property can do. -/
inductive Updated (n : ℕ) (contexts : Contexts κ) (s : State κ) (k : κ) (p : ℕ) (value : ℕ → Byte)
    (len : ℕ) : Except UpdateFault (State κ × Bool) → Prop
  | refused : Updated n contexts s k p value len (.ok (s, false))
  | stopped (e) : Updated n contexts s k p value len (.error (.fault e))
  | null {k'} (area : contexts.getPropAreaForName ((s.main.pas k).infos p).name = some k')
      (absent : find n (s.other.pas k') ((s.main.pas k).infos p).name = .ok none) :
      Updated n contexts s k p value len (.error .nullPropInfo)
  | stored {k' q} (serial m m')
      (area : contexts.getPropAreaForName ((s.main.pas k).infos p).name = some k')
      (found : find n (s.other.pas k') ((s.main.pas k).infos p).name = .ok (some q)) :
      Updated n contexts s k p value len (.ok (⟨s.main.store k p (store serial value len) m,
        s.other.store k' q (store serial value len) m'⟩, true))

theorem updated_updateProp (hs : sys.appcompatOverrideContexts = some contexts) (s k p value len) :
    Updated sys.paDataSize contexts s k p value len (updateProp sys s k p value len) := by
  rw [updateProp]
  split
  · exact .refused
  rw [hs]
  dsimp only
  split
  · rename_i k' hk' _
    split
    · exact .stopped _
    · rename_i hf
      split
      · exact .stopped _
      · exact .null hk' hf
    · rename_i q hf
      split
      · exact .stopped _
      · exact .stored _ _ _ hk' hf
  · exact .stopped _

theorem named_store {n} {s : Areas κ} (h : ∀ k, Named n (s.pas k)) (k p serial value len m k') :
    Named n ((s.store k p (store serial value len) m).pas k') :=
  have hn : (store serial value len ((s.pas k).infos p)).name = ((s.pas k).infos p).name := rfl
  named_update h ((h k).setInfo hn) k'

theorem find_store {n} {s : Areas κ} (h : ∀ k, Named n (s.pas k)) (k p f m k' name) :
    find n ((s.store k p f m).pas k') name = find n (s.pas k') name := by
  simp only [Areas.store]
  by_cases hk : k' = k
  · subst hk
    rw [update_self, find_setInfo (h k')]
  · rw [update_of_ne hk]

theorem other_of_error {e} (h : add sys s c = .ok (s', .error e)) : s'.other = s.other := by
  simp only [add] at h
  repeat' split at h
  all_goals cases h
  all_goals rfl

/-- After calls of `Add` that meet a condition and calls of `Update`, with the successful calls of
`Add`. -/
inductive History (sys : SystemProperties κ) (P : State κ → Call → Prop) :
    State κ → List Call → Prop
  | start : History sys P start []
  | add {s s' : State κ} {c : Call} {cs : List Call} {r} (history : History sys P s cs)
      (meets : P s c) (result : SystemPropertyAdd.add sys s c = .ok (s', r)) :
      History sys P s' (if r.isOk then c :: cs else cs)
  | update {s s' : State κ} {cs : List Call} {k p value len b} (history : History sys P s cs)
      (result : updateProp sys s k p value len = .ok (s', b)) : History sys P s' cs

/-- What was added successfully is in the override contexts. -/
structure Mirrored (sys : SystemProperties κ) (contexts : Contexts κ) (s : State κ)
    (cs : List Call) : Prop extends Valid sys s where
  short : ∀ c ∈ cs, Short c.name
  found : ∀ c ∈ cs, ∃ k p, FoundAt sys contexts s c k p

theorem Mirrored.add {r} (h : Mirrored sys contexts s cs)
    (hs : sys.appcompatOverrideContexts = some contexts) (hc : Contained sys contexts s c)
    (hrm : room sys contexts s c) (hr : SystemPropertyAdd.add sys s c = .ok (s', r)) :
    Mirrored sys contexts s' (if r.isOk then c :: cs else cs) := by
  rcases add_cases h.toValid hs hc with hck | ⟨s'', r', had, hv, hf, hef⟩
  · cases hck.symm.trans hr
  cases had.symm.trans hr
  cases r with
  | error e =>
    refine ⟨hv, h.short, fun d hd => ?_⟩
    simp only [FoundAt, other_of_error hr]
    exact h.found d hd
  | ok _ =>
    obtain ⟨k, a', hk, hp, hef⟩ := hef rfl
    obtain ⟨p, hfd⟩ := hef.found h.toValid hc.careful hk hrm
    have hself : FoundAt sys contexts s' c k p := ⟨hk, by rw [hp, update_self, hfd]⟩
    refine ⟨hv, forall_mem_cons.mpr ⟨hc.careful.1, h.short⟩,
      forall_mem_cons.mpr ⟨⟨k, p, hself⟩, fun d hd => ?_⟩⟩
    by_cases hn : overrideName d.name = overrideName c.name
    · rw [FoundAt, ← hn] at hself
      exact ⟨k, p, hself⟩
    obtain ⟨k', p', hk', hp'⟩ := h.found d hd
    have hsh := short_overrideName (h.short d hd)
    exact ⟨k', p', hk', ((hf.other k').finds _ hsh hn).trans hp'⟩

theorem Mirrored.update {b} (h : Mirrored sys contexts s cs)
    (hs : sys.appcompatOverrideContexts = some contexts)
    (hr : updateProp sys s k p value len = .ok (s', b)) : Mirrored sys contexts s' cs := by
  have hu := updated_updateProp hs s k p value len
  rw [hr] at hu
  cases hu with
  | refused => exact h
  | stored =>
    refine ⟨⟨fun _ => named_store h.main .., fun _ => named_store h.other ..⟩, h.short,
      fun d hd => ?_⟩
    simp only [FoundAt, find_store h.other]
    exact h.found d hd

theorem History.mirrored (hs : sys.appcompatOverrideContexts = some contexts)
    (h : History sys (fun s c => Contained sys contexts s c ∧ room sys contexts s c) s cs) :
    Mirrored sys contexts s cs := by
  induction h with
  | start => exact ⟨valid_start, by simp, by simp⟩
  | add _ meets result ih => exact ih.add hs meets.1 meets.2 result
  | update _ result ih => exact ih.update hs result

end

end SystemPropertyAdd
