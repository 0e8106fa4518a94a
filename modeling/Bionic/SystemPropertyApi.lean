import Bionic.SystemPropertyAdd

/-! The property functions an app calls, with the interception of `custom_rom_hide.cpp`: some
properties are hidden, some have their value replaced. Properties do not change here and are listed
in the order of `ForEach`. Compared is what an app sees of two processes whose hidden and replaced
properties differ. -/
namespace SystemPropertyApi

open Prod (fst snd)
open SystemPropertyUpdate (Byte propValueMax serialDirty serialValueLen)
open PropArea (kLongFlag)
open SystemPropertyAdd (appcompatPrefix isReadOnly propNameMax)
open List

def ascii (s : String) : List Byte := s.toList.map fun c => BitVec.ofNat 8 c.toNat

structure PropInfo where
  name : List Byte
  /-- Where `name` is mapped. -/
  nameAddress : ℕ
  serial : BitVec 32
  value : List Byte
  /-- The backup of the area while this property is dirty. -/
  dirtyBackup : List Byte
  longValue : List Byte
  deriving DecidableEq

structure Process where
  isAppProcess : Bool
  initialized : Bool
  useAppcompatOverride : Bool
  /-- The context of a name has an area that this process may open. -/
  accessible : List Byte → Bool
  /-- The properties of those areas. -/
  props : List PropInfo

structure Buffer where
  address : ℕ
  bytes : List Byte
  deriving DecidableEq

def cstr (bytes : List Byte) : List Byte := bytes.takeWhile (· != 0)

def overwrite (buffer bytes : List Byte) : List Byte := bytes ++ buffer.drop bytes.length

def kSpoofedEmptyProps : List (List Byte) :=
  [ascii "ro.crdroid.version", ascii "ro.lineage.version", ascii "ro.lineage.build.version",
    ascii "ro.cm.build.version", ascii "ro.modversion", ascii "init.svc_debug_pid.adb_root",
    ascii "init.svc.adb_root", ascii "service.adb.root"]

def kSpoofedValueProps : List (List Byte × List Byte) :=
  [(ascii "ro.debuggable", ascii "0"), (ascii "ro.build.type", ascii "user"),
    (ascii "ro.build.tags", ascii "release-keys"), (ascii "ro.secure", ascii "1"),
    (ascii "ro.adb.secure", ascii "1")]

def lowAddress : ℕ := 0x1000000

def shouldHideProp (p : Process) (name : List Byte) (address : ℕ) : Bool :=
  if address < lowAddress then false
  else if !p.isAppProcess then false
  else kSpoofedEmptyProps.contains name

def getPropOverride (p : Process) (name : List Byte) (address : ℕ) : Option (List Byte) :=
  if address < lowAddress then none
  else if !p.isAppProcess then none
  else kSpoofedValueProps.lookup name

/-- The new contents of the value buffer, if it returns true. -/
def shouldSpoofProp (p : Process) (name : List Byte) (address : ℕ) (value : Buffer) :
    Option (List Byte) :=
  if address < lowAddress then none
  else if value.address < lowAddress then none
  else if !p.isAppProcess then none
  else if kSpoofedEmptyProps.contains name then some (overwrite value.bytes [0])
  else (kSpoofedValueProps.lookup name).map fun o => overwrite value.bytes (o ++ [0])

def findIn (p : Process) (name : List Byte) : Option PropInfo :=
  if p.accessible name then p.props.find? fun pi => pi.name == name else none

def Process.find (p : Process) (name : List Byte) : Option PropInfo :=
  if !p.initialized then none
  else if p.useAppcompatOverride then
    (findIn p (appcompatPrefix ++ name)).or (findIn p name)
  else findIn p name

/-- Nobody writes, so the first round is the last. -/
def readMutablePropertyValue (pi : PropInfo) : List Byte :=
  (if serialDirty pi.serial then pi.dirtyBackup else pi.value).take (serialValueLen pi.serial + 1)

def Process.read (pi : PropInfo) (value : Buffer) : Buffer × ℕ :=
  ({ value with bytes := overwrite value.bytes (readMutablePropertyValue pi) },
    serialValueLen pi.serial)

/-- `strlcpy(name, pi->name, PROP_NAME_MAX)`. -/
def copiedName (pi : PropInfo) : List Byte := pi.name.take (propNameMax - 1)

def isLong (pi : PropInfo) : Bool := pi.serial &&& kLongFlag ≠ 0

def readCallbackValue (pi : PropInfo) : List Byte :=
  if isReadOnly pi.name then
    if isLong pi then cstr pi.longValue else cstr pi.value
  else cstr (readMutablePropertyValue pi)

def systemPropertyFind (p : Process) (name : List Byte) (address : ℕ) : Option PropInfo :=
  if shouldHideProp p name address then none else p.find name

/-- The value buffer and the result. `nameBuffer` is the address of the name buffer, if there
is one. -/
def systemPropertyRead (p : Process) (pi : PropInfo) (nameBuffer : Option ℕ) (value : Buffer) :
    Buffer × ℕ :=
  let (value, len) := Process.read pi value
  let spoofed := match nameBuffer with
    | some address => shouldSpoofProp p (copiedName pi) address value
    | none => shouldSpoofProp p pi.name pi.nameAddress value
  match spoofed with
  | some bytes => ({ value with bytes }, (cstr bytes).length)
  | none => (value, len)

/-- For a value replaced by one of `len` bytes. -/
def overrideSerial (isRo : Bool) (serial : BitVec 32) (len : ℕ) : BitVec 32 :=
  if isRo then
    if len < propValueMax then BitVec.ofNat 32 len <<< 24
    else (50#32 <<< 24) ||| (1#32 <<< 16)
  else (serial &&& 0xffffff#32) ||| (BitVec.ofNat 32 len <<< 24)

def hiddenSerial (isRo : Bool) (serial : BitVec 32) : BitVec 32 :=
  if isRo then 0 else serial &&& 0xffffff#32

def systemPropertyReadCallback (p : Process) (pi : PropInfo) :
    List Byte × List Byte × BitVec 32 :=
  if !p.isAppProcess then (pi.name, readCallbackValue pi, pi.serial)
  else if shouldHideProp p pi.name pi.nameAddress then
    (pi.name, [], hiddenSerial (isReadOnly pi.name) pi.serial)
  else match getPropOverride p pi.name pi.nameAddress with
    | some o => (pi.name, o, overrideSerial (isReadOnly pi.name) pi.serial o.length)
    | none => (pi.name, readCallbackValue pi, pi.serial)

def systemPropertyGet (p : Process) (name : List Byte) (address : ℕ) (value : Buffer) :
    Buffer × ℕ :=
  let (value, len) := match p.find name with
    | some pi => Process.read pi value
    | none => ({ value with bytes := overwrite value.bytes [0] }, 0)
  match shouldSpoofProp p name address value with
  | some bytes => ({ value with bytes }, (cstr bytes).length)
  | none => (value, len)

def systemPropertySerial (p : Process) (pi : PropInfo) : BitVec 32 :=
  if !p.isAppProcess then pi.serial
  else if shouldHideProp p pi.name pi.nameAddress then
    hiddenSerial (isReadOnly pi.name) pi.serial
  else match getPropOverride p pi.name pi.nameAddress with
    | some o => overrideSerial (isReadOnly pi.name) pi.serial o.length
    | none => pi.serial

/-- `__system_property_find_nth` counts all properties. -/
def systemPropertyFindNth (p : Process) (n : BitVec 32) : Option PropInfo :=
  if !p.initialized then none else p.props[n.toNat]?

/-- What the callback is handed, and the result. -/
def systemPropertyForeach (p : Process) : List PropInfo × ℤ :=
  if !p.initialized then ([], -1)
  else (p.props.filter fun pi => !shouldHideProp p pi.name pi.nameAddress, 0)

/-- `obtained` are the prop_infos an app has been given, in the order it got them; a call refers to
one of them by its place. -/
inductive Call where
  | find (name : List Byte) (address : ℕ)
  | findNth (n : BitVec 32)
  | foreach
  | read (k : ℕ) (nameBuffer : Option ℕ) (value : Buffer)
  | readCallback (k : ℕ)
  | get (name : List Byte) (address : ℕ) (value : Buffer)
  | serial (k : ℕ)

/-- What an app sees of a call but the prop_info. -/
inductive Result where
  | propInfo (found : Bool)
  | foreach (count : ℕ) (ret : ℤ)
  | read (ret : ℕ) (name : Option (List Byte)) (value : List Byte)
  | callback (name value : List Byte) (serial : BitVec 32)
  | get (ret : ℕ) (value : List Byte)
  | serial (serial : BitVec 32)
  | noSuchPropInfo
  deriving DecidableEq

def call (p : Process) (obtained : List PropInfo) : Call → List PropInfo × Result
  | .find name address =>
    let found := systemPropertyFind p name address
    (obtained ++ found.toList, .propInfo found.isSome)
  | .findNth n =>
    let found := systemPropertyFindNth p n
    (obtained ++ found.toList, .propInfo found.isSome)
  | .foreach =>
    let (given, ret) := systemPropertyForeach p
    (obtained ++ given, .foreach given.length ret)
  | .read k nameBuffer value =>
    match obtained[k]? with
    | none => (obtained, .noSuchPropInfo)
    | some pi =>
      let (buffer, ret) := systemPropertyRead p pi nameBuffer value
      (obtained, .read ret (nameBuffer.map fun _ => copiedName pi) buffer.bytes)
  | .readCallback k =>
    match obtained[k]? with
    | none => (obtained, .noSuchPropInfo)
    | some pi =>
      let (name, value, serial) := systemPropertyReadCallback p pi
      (obtained, .callback name value serial)
  | .get name address value =>
    let (buffer, ret) := systemPropertyGet p name address value
    (obtained, .get ret buffer.bytes)
  | .serial k =>
    match obtained[k]? with
    | none => (obtained, .noSuchPropInfo)
    | some pi => (obtained, .serial (systemPropertySerial p pi))

def results (p : Process) (obtained : List PropInfo) : List Call → List Result
  | [] => []
  | c :: calls => (call p obtained c).2 :: results p (call p obtained c).1 calls

def Hidden (name : List Byte) : Prop := name ∈ kSpoofedEmptyProps

instance (name : List Byte) : Decidable (Hidden name) := inferInstanceAs (Decidable (_ ∈ _))

def Overridden (name : List Byte) : Prop := name ∈ kSpoofedValueProps.map Prod.fst

instance (name : List Byte) : Decidable (Overridden name) := inferInstanceAs (Decidable (_ ∈ _))

/-- The same contents unless the value is replaced. -/
structure SameInfo (pi qi : PropInfo) : Prop where
  name : pi.name = qi.name
  contents : ¬Overridden pi.name → pi.serial = qi.serial ∧ pi.value = qi.value ∧
    pi.dirtyBackup = qi.dirtyBackup ∧ pi.longValue = qi.longValue

/-- The property stores differ only in the hidden properties and in the contents of those with a
replaced value. -/
structure Alike (p q : Process) : Prop where
  isAppProcess : p.isAppProcess = q.isAppProcess
  initialized : p.initialized = q.initialized
  useAppcompatOverride : p.useAppcompatOverride = q.useAppcompatOverride
  accessible : p.accessible = q.accessible
  shown : List.Forall₂ SameInfo (p.props.filter fun pi => ¬Hidden pi.name)
    (q.props.filter fun qi => ¬Hidden qi.name)

/-- What takes the place of the value. -/
def spoofedValue (name : List Byte) : List Byte :=
  if Hidden name then [] else (kSpoofedValueProps.lookup name).getD []

/-- A call that does not get around the interception: no count with `find_nth`, no pointer to a
hidden or replaced name taken for a bad one, and no value copied to a buffer that is longer than its
replacement. -/
def Intercepted (p : Process) (obtained : List PropInfo) : Call → Prop
  | .find name address => Hidden name → lowAddress ≤ address
  | .findNth n => p.props.length ≤ n.toNat ∨
    ∀ i pi, i ≤ n.toNat → p.props[i]? = some pi → ¬Hidden pi.name
  | .foreach => ∀ pi ∈ p.props, Hidden pi.name → lowAddress ≤ pi.nameAddress
  | .read k nameBuffer value => ∀ pi, obtained[k]? = some pi → Overridden pi.name →
    lowAddress ≤ nameBuffer.getD pi.nameAddress ∧ lowAddress ≤ value.address ∧
      serialValueLen pi.serial ≤ (spoofedValue pi.name).length
  | .readCallback k => ∀ pi, obtained[k]? = some pi → Overridden pi.name →
    lowAddress ≤ pi.nameAddress
  | .get name address value => Hidden name ∨ Overridden name →
    lowAddress ≤ address ∧ lowAddress ≤ value.address ∧
      ∀ pi, p.find name = some pi → serialValueLen pi.serial ≤ (spoofedValue name).length
  | .serial k => ∀ pi, obtained[k]? = some pi → Overridden pi.name → lowAddress ≤ pi.nameAddress

/-- Every call of a sequence is intercepted, in the state in which it is made. -/
def AllIntercepted (p : Process) (obtained : List PropInfo) : List Call → Prop
  | [] => True
  | c :: calls => Intercepted p obtained c ∧ AllIntercepted p (call p obtained c).1 calls

variable {name : List Byte} {pi : PropInfo} {l l' : List PropInfo}

theorem isReadOnly_of_overridden (h : Overridden name) : isReadOnly name := by
  have ht : ∀ n ∈ kSpoofedValueProps.map fst, isReadOnly n := by decide +kernel
  exact ht name h

theorem length_special (h : Hidden name ∨ Overridden name) : name.length < propNameMax - 1 := by
  have ht : ∀ n ∈ kSpoofedEmptyProps ++ kSpoofedValueProps.map fst,
      n.length < propNameMax - 1 := by decide +kernel
  exact ht name (List.mem_append.mpr h)

theorem not_special_appcompat (name) :
    ¬(Hidden (appcompatPrefix ++ name) ∨ Overridden (appcompatPrefix ++ name)) := by
  have ht : ∀ n ∈ kSpoofedEmptyProps ++ kSpoofedValueProps.map fst,
      ¬appcompatPrefix.isPrefixOf n := by decide +kernel
  intro h
  refine ht _ (List.mem_append.mpr h) ?_
  exact List.isPrefixOf_iff_prefix.mpr (prefix_append _ _)

theorem override_spec (h : Overridden name) :
    ∃ o, kSpoofedValueProps.lookup name = some o ∧ 0 ∉ o ∧ o.length < propValueMax := by
  have ht : ∀ n ∈ kSpoofedValueProps.map fst,
      ∃ o ∈ kSpoofedValueProps.map snd, kSpoofedValueProps.lookup n = some o ∧ 0 ∉ o ∧
        o.length < propValueMax := by decide +kernel
  obtain ⟨o, -, ho⟩ := ht name h
  exact ⟨o, ho⟩

theorem lookup_of_not_overridden (h : ¬Overridden name) :
    kSpoofedValueProps.lookup name = none := by
  rw [lookup_eq_none_iff]
  intro o ho
  rw [bne_iff_ne]
  rintro rfl
  exact h (mem_map_of_mem ho)

theorem copiedName_special (h : Hidden (copiedName pi) ∨ Overridden (copiedName pi)) :
    copiedName pi = pi.name := by
  have hl := length_special h
  rw [copiedName, length_take] at hl
  exact take_of_length_le (by omega)

theorem copiedName_of_overridden (h : Overridden pi.name) : copiedName pi = pi.name :=
  take_of_length_le (le_of_lt (length_special (.inr h)))

variable {p q : Process} {address : ℕ}

section

theorem contains_of_hidden (h : Hidden name) : kSpoofedEmptyProps.contains name :=
  List.elem_iff.mpr h

theorem contains_of_not_hidden (h : ¬Hidden name) : kSpoofedEmptyProps.contains name = false :=
  Bool.eq_false_iff.mpr fun hcn => h (List.elem_iff.mp hcn)

theorem shouldHideProp_of_not_hidden (h : ¬Hidden name) (address) :
    shouldHideProp p name address = false := by
  rw [shouldHideProp, contains_of_not_hidden h, ite_self, ite_self]

theorem getPropOverride_of_not_overridden (h : ¬Overridden name) (address) :
    getPropOverride p name address = none := by
  rw [getPropOverride, lookup_of_not_overridden h, ite_self, ite_self]

theorem shouldSpoofProp_of_not_special (h : ¬(Hidden name ∨ Overridden name)) (address)
    (value) : shouldSpoofProp p name address value = none := by
  obtain ⟨hh, hov⟩ := not_or.mp h
  rw [shouldSpoofProp, contains_of_not_hidden hh, lookup_of_not_overridden hov]
  simp

theorem cstr_append_zero {o} (h : 0 ∉ o) (rest) : cstr (o ++ 0 :: rest) = o := by
  rw [cstr, takeWhile_append_of_pos]
  · simp
  intro b hb
  rw [bne_iff_ne]
  rintro rfl
  exact h hb

variable (hp : p.isAppProcess)
include hp

theorem shouldHideProp_of_hidden (h : Hidden name)
    (ha : lowAddress ≤ address) : shouldHideProp p name address := by
  rw [shouldHideProp, if_neg (not_lt.mpr ha), hp]
  exact contains_of_hidden h

theorem getPropOverride_of_low_le (ha : lowAddress ≤ address) :
    getPropOverride p name address = kSpoofedValueProps.lookup name := by
  rw [getPropOverride, if_neg (not_lt.mpr ha), hp]
  rfl

theorem shouldSpoofProp_of_special (h : Hidden name ∨ Overridden name)
    (value) (ha : lowAddress ≤ address) (hv : lowAddress ≤ value.address) :
    shouldSpoofProp p name address value = some (overwrite value.bytes (spoofedValue name ++ [0])) ∧
      cstr (overwrite value.bytes (spoofedValue name ++ [0])) = spoofedValue name := by
  rw [shouldSpoofProp, if_neg (not_lt.mpr ha), if_neg (not_lt.mpr hv), hp, spoofedValue]
  by_cases hh : Hidden name
  · rw [contains_of_hidden hh, if_pos hh]
    exact ⟨rfl, cstr_append_zero not_mem_nil _⟩
  obtain ⟨o, ho, hz, -⟩ := override_spec (h.resolve_left hh)
  rw [contains_of_not_hidden hh, if_neg hh, ho]
  refine ⟨rfl, ?_⟩
  rw [overwrite, append_assoc]
  exact cstr_append_zero hz _

omit hp in
theorem overwrite_overwrite {x y : List Byte} (h : x.length ≤ y.length) (buffer) :
    overwrite (overwrite buffer x) y = overwrite buffer y := by
  simp only [overwrite, drop_append, drop_eq_nil_of_le h, drop_drop, nil_append,
    Nat.add_sub_cancel' h]

omit hp in
theorem overwrite_read (h : serialValueLen pi.serial ≤ (spoofedValue name).length) (value) :
    overwrite (Process.read pi value).1.bytes (spoofedValue name ++ [0]) =
      overwrite value.bytes (spoofedValue name ++ [0]) := by
  apply overwrite_overwrite
  rw [readMutablePropertyValue, length_take, length_append]
  exact (Nat.min_le_left _ _).trans (Nat.succ_le_succ h)

end

structure Shown (pi qi : PropInfo) : Prop where
  same : SameInfo pi qi
  visible : ¬Hidden pi.name

theorem SameInfo.eq_except_address {qi : PropInfo} (h : SameInfo pi qi)
    (ho : ¬Overridden pi.name) : { pi with nameAddress := qi.nameAddress } = qi := by
  obtain ⟨hs, hv, hb, hl⟩ := h.contents ho
  cases pi
  cases qi
  simp only [PropInfo.mk.injEq, true_and]
  exact ⟨h.name, hs, hv, hb, hl⟩

theorem rel_find? (h : List.Forall₂ Shown l l') (name) :
    Option.Rel Shown (l.find? fun pi => pi.name == name) (l'.find? fun qi => qi.name == name) := by
  induction h with
  | nil => exact .none
  | @cons pi qi l l' hh _ ih =>
    rw [find?_cons, find?_cons, ← hh.same.name]
    split
    · exact .some hh
    · exact ih

theorem rel_getElem? (h : List.Forall₂ Shown l l') (k : ℕ) : Option.Rel Shown l[k]? l'[k]? := by
  induction h generalizing k with
  | nil => exact .none
  | cons hh _ ih =>
    cases k with
    | zero => exact .some hh
    | succ k => exact ih k

theorem getElem?_filter_shown {props : List PropInfo} {n : ℕ}
    (hn : ∀ i pi, i ≤ n → props[i]? = some pi → ¬Hidden pi.name) :
    props[n]? = (props.filter fun pi => ¬Hidden pi.name)[n]? := by
  induction props generalizing n with
  | nil => rfl
  | cons pi props ih =>
    rw [filter_cons_of_pos (by simpa using hn 0 pi (Nat.zero_le n) rfl)]
    cases n with
    | zero => rfl
    | succ n =>
      rw [getElem?_cons_succ, getElem?_cons_succ]
      exact ih fun i qi hi hg => hn (i + 1) qi (Nat.succ_le_succ hi) hg

theorem getElem?_eq_shown {n : BitVec 32} {obtained} (hc : Intercepted p obtained (.findNth n)) :
    p.props[n.toNat]? = (p.props.filter fun pi => ¬Hidden pi.name)[n.toNat]? := by
  rcases hc with hpt | hs
  · rw [getElem?_eq_none hpt, getElem?_eq_none ((length_filter_le _ _).trans hpt)]
  · exact getElem?_filter_shown hs

theorem Process.find_name (p : Process) (name) :
    ∀ pi, p.find name = some pi → pi.name = name ∨ pi.name = appcompatPrefix ++ name := by
  have hin : ∀ n pi, findIn p n = some pi → pi.name = n := by
    intro n pi hf
    unfold findIn at hf
    split at hf
    · simpa using find?_some hf
    · cases hf
  intro pi hf
  unfold Process.find at hf
  split at hf
  · cases hf
  split at hf
  · rcases Option.or_eq_some_iff.mp hf with hf | ⟨-, hf⟩
    · exact .inr (hin _ pi hf)
    · exact .inl (hin _ pi hf)
  · exact .inl (hin _ pi hf)

section
variable (h : Alike p q)
include h

theorem Alike.forall₂_shown : List.Forall₂ Shown (p.props.filter fun pi => ¬Hidden pi.name)
    (q.props.filter fun qi => ¬Hidden qi.name) := by
  have ha : ∀ pi ∈ p.props.filter fun pi => ¬Hidden pi.name, ¬Hidden (PropInfo.name pi) := by
    intro pi hpi
    simpa using (List.mem_filter.mp hpi).2
  have hb := (forall₂_and_left _ _).mpr ⟨ha, h.shown⟩
  refine hb.imp ?_
  rintro pi qi ⟨hv, hs⟩
  exact ⟨hs, hv⟩

theorem Alike.rel_findIn (hn : ¬Hidden name) :
    Option.Rel Shown (findIn p name) (findIn q name) := by
  have hf : ∀ props : List PropInfo, props.find? (fun pi => pi.name == name) =
      (props.filter fun pi => ¬Hidden pi.name).find? fun pi => pi.name == name := by
    intro props
    rw [find?_filter]
    congr 1
    funext pi
    by_cases heq : pi.name = name
    · simp [heq, hn]
    · simp [heq]
  unfold findIn
  rw [hf p.props, hf q.props, h.accessible]
  split
  · exact rel_find? h.forall₂_shown name
  · exact .none

theorem Alike.rel_find (hn : ¬Hidden name) : Option.Rel Shown (p.find name) (q.find name) := by
  have hm := h.rel_findIn hn
  have ha := h.rel_findIn fun hh => not_special_appcompat name (.inl hh)
  unfold Process.find
  rw [h.initialized, h.useAppcompatOverride]
  split
  · exact .none
  split
  · generalize findIn p (appcompatPrefix ++ name) = a at ha
    generalize findIn q (appcompatPrefix ++ name) = b at ha
    cases ha with
    | none => simpa using hm
    | some hab => exact .some hab
  · exact hm

theorem Alike.rel_systemPropertyFind (hp : p.isAppProcess)
    (hc : Hidden name → lowAddress ≤ address) :
    Option.Rel Shown (systemPropertyFind p name address) (systemPropertyFind q name address) := by
  have hq : q.isAppProcess := h.isAppProcess ▸ hp
  unfold systemPropertyFind
  by_cases hn : Hidden name
  · rw [shouldHideProp_of_hidden hp hn (hc hn), shouldHideProp_of_hidden hq hn (hc hn)]
    exact .none
  · rw [shouldHideProp_of_not_hidden hn, shouldHideProp_of_not_hidden hn]
    exact h.rel_find hn

theorem Alike.rel_foreach (hp : p.isAppProcess)
    (hc : ∀ pi ∈ p.props, Hidden pi.name → lowAddress ≤ pi.nameAddress)
    (hc' : ∀ qi ∈ q.props, Hidden qi.name → lowAddress ≤ qi.nameAddress) :
    List.Forall₂ Shown (systemPropertyForeach p).1 (systemPropertyForeach q).1 ∧
      (systemPropertyForeach p).2 = (systemPropertyForeach q).2 := by
  have hf : ∀ r : Process, r.isAppProcess →
      (∀ ri ∈ r.props, Hidden ri.name → lowAddress ≤ ri.nameAddress) →
      (r.props.filter fun ri => !shouldHideProp r ri.name ri.nameAddress) =
        r.props.filter fun ri => ¬Hidden ri.name := by
    intro r hr hl
    apply filter_congr
    intro ri hri
    by_cases hn : Hidden ri.name
    · rw [shouldHideProp_of_hidden hr hn (hl ri hri hn)]
      simpa using hn
    · rw [shouldHideProp_of_not_hidden hn]
      simpa using hn
  unfold systemPropertyForeach
  rw [hf p hp hc, hf q (h.isAppProcess ▸ hp) hc', h.initialized]
  split
  · exact ⟨.nil, rfl⟩
  · exact ⟨h.forall₂_shown, rfl⟩

theorem Alike.rel_findNth {n obtained obtained'}
    (hc : Intercepted p obtained (.findNth n)) (hc' : Intercepted q obtained' (.findNth n)) :
    Option.Rel Shown (systemPropertyFindNth p n) (systemPropertyFindNth q n) := by
  unfold systemPropertyFindNth
  rw [getElem?_eq_shown hc, getElem?_eq_shown hc', h.initialized]
  split
  · exact .none
  · exact rel_getElem? h.forall₂_shown _

end

variable {value : Buffer}

section
variable {qi : PropInfo}

variable {nameBuffer : Option ℕ}

theorem systemPropertyRead_of_not_overridden (hh : ¬Hidden pi.name) (ho : ¬Overridden pi.name)
    (nameBuffer value) : systemPropertyRead p pi nameBuffer value = Process.read pi value := by
  have hn : ¬(Hidden pi.name ∨ Overridden pi.name) := not_or.mpr ⟨hh, ho⟩
  have hcp : ¬(Hidden (copiedName pi) ∨ Overridden (copiedName pi)) := by
    intro hs
    rw [copiedName_special hs] at hs
    exact hn hs
  unfold systemPropertyRead
  cases nameBuffer with
  | some address =>
    simp only [shouldSpoofProp_of_not_special hcp]
  | none =>
    simp only [shouldSpoofProp_of_not_special hn]

theorem read_eq_of_same (h : SameInfo pi qi) (ho : ¬Overridden pi.name) (value) :
    Process.read pi value = Process.read qi value := by
  rw [← h.eq_except_address ho]
  rfl

variable (hp : p.isAppProcess)
include hp

theorem systemPropertyRead_of_overridden (ho : Overridden pi.name)
    (hn : lowAddress ≤ nameBuffer.getD pi.nameAddress) (hv : lowAddress ≤ value.address)
    (hl : serialValueLen pi.serial ≤ (spoofedValue pi.name).length) :
    systemPropertyRead p pi nameBuffer value = (
      { value with bytes := overwrite value.bytes (spoofedValue pi.name ++ [0]) },
      (spoofedValue pi.name).length) := by
  obtain ⟨hb, hcs⟩ := shouldSpoofProp_of_special hp (.inr ho) (Process.read pi value).1 hn hv
  rw [overwrite_read hl] at hb hcs
  cases nameBuffer with
  | some address =>
    rw [Option.getD_some] at hb
    simp only [systemPropertyRead, copiedName_of_overridden ho, hb, hcs]
    rfl
  | none =>
    rw [Option.getD_none] at hb
    simp only [systemPropertyRead, hb, hcs]
    rfl

variable (hq : q.isAppProcess)
include hq

theorem systemPropertyRead_shown (h : Shown pi qi)
    (hc : Overridden pi.name → lowAddress ≤ nameBuffer.getD pi.nameAddress ∧
      lowAddress ≤ value.address ∧ serialValueLen pi.serial ≤ (spoofedValue pi.name).length)
    (hc' : Overridden qi.name → lowAddress ≤ nameBuffer.getD qi.nameAddress ∧
      lowAddress ≤ value.address ∧ serialValueLen qi.serial ≤ (spoofedValue qi.name).length) :
    systemPropertyRead p pi nameBuffer value = systemPropertyRead q qi nameBuffer value := by
  by_cases ho : Overridden pi.name
  · have ho' : Overridden qi.name := h.same.name ▸ ho
    obtain ⟨hn, hv, hl⟩ := hc ho
    obtain ⟨hn', -, hl'⟩ := hc' ho'
    rw [systemPropertyRead_of_overridden hp ho hn hv hl,
      systemPropertyRead_of_overridden hq ho' hn' hv hl', h.same.name]
  · rw [systemPropertyRead_of_not_overridden h.visible ho,
      systemPropertyRead_of_not_overridden (h.same.name ▸ h.visible) (h.same.name ▸ ho),
      read_eq_of_same h.same ho]

variable (h : Shown pi qi) (hc : Overridden pi.name → lowAddress ≤ pi.nameAddress)
  (hc' : Overridden qi.name → lowAddress ≤ qi.nameAddress)
include h hc hc'

theorem systemPropertyReadCallback_shown :
    systemPropertyReadCallback p pi = systemPropertyReadCallback q qi := by
  unfold systemPropertyReadCallback
  rw [hp, hq, shouldHideProp_of_not_hidden h.visible,
    shouldHideProp_of_not_hidden (h.same.name ▸ h.visible)]
  by_cases ho : Overridden pi.name
  · have ho' : Overridden qi.name := h.same.name ▸ ho
    obtain ⟨o, hl, -⟩ := override_spec ho
    rw [getPropOverride_of_low_le hp (hc ho), getPropOverride_of_low_le hq (hc' ho'),
      ← h.same.name, hl]
    simp only [isReadOnly_of_overridden ho]
    rfl
  · rw [getPropOverride_of_not_overridden ho,
      getPropOverride_of_not_overridden (h.same.name ▸ ho), ← h.same.eq_except_address ho]
    rfl

theorem systemPropertySerial_shown : systemPropertySerial p pi = systemPropertySerial q qi := by
  have hs : ∀ (r : Process) (ri : PropInfo),
      systemPropertySerial r ri = (systemPropertyReadCallback r ri).2.2 := by
    intro r ri
    unfold systemPropertySerial systemPropertyReadCallback
    split
    · rfl
    split
    · rfl
    · split <;> rfl
  rw [hs, hs, systemPropertyReadCallback_shown hp hq h hc hc']

end

variable {obtained obtained' : List PropInfo}

theorem systemPropertyGet_of_special (hp : p.isAppProcess) (h : Hidden name ∨ Overridden name)
    (ha : lowAddress ≤ address) (hv : lowAddress ≤ value.address)
    (hl : ∀ pi, p.find name = some pi → serialValueLen pi.serial ≤ (spoofedValue name).length) :
    systemPropertyGet p name address value = (
      { value with bytes := overwrite value.bytes (spoofedValue name ++ [0]) },
      (spoofedValue name).length) := by
  generalize hr : (match p.find name with
    | some pi => Process.read pi value
    | none => ({ value with bytes := overwrite value.bytes [0] }, 0)) = read
  obtain ⟨had, hby⟩ : read.1.address = value.address ∧
      overwrite read.1.bytes (spoofedValue name ++ [0]) =
        overwrite value.bytes (spoofedValue name ++ [0]) := by
    rw [← hr]
    split
    · rename_i pi hf
      exact ⟨rfl, overwrite_read (hl pi hf) value⟩
    · exact ⟨rfl, overwrite_overwrite (by simp) _⟩
  obtain ⟨hb, hcs⟩ := shouldSpoofProp_of_special hp h read.1 ha (had ▸ hv)
  rw [hby] at hb hcs
  simp only [systemPropertyGet, hr, hb, hcs, had]

theorem systemPropertyGet_alike (h : Alike p q) (hp : p.isAppProcess)
    (hc : Intercepted p obtained (.get name address value))
    (hc' : Intercepted q obtained' (.get name address value)) :
    systemPropertyGet p name address value = systemPropertyGet q name address value := by
  by_cases hs : Hidden name ∨ Overridden name
  · obtain ⟨ha, hv, hl⟩ := hc hs
    obtain ⟨-, -, hl'⟩ := hc' hs
    rw [systemPropertyGet_of_special hp hs ha hv hl,
      systemPropertyGet_of_special (h.isAppProcess ▸ hp : q.isAppProcess) hs ha hv hl']
  unfold systemPropertyGet
  simp only [shouldSpoofProp_of_not_special hs]
  have hr := h.rel_find fun hh => hs (.inl hh)
  have hn := p.find_name name
  generalize p.find name = a at hr hn
  generalize q.find name = b at hr
  cases hr with
  | none => rfl
  | @some pi qi hso =>
    have ho : ¬Overridden pi.name := by
      intro ho
      rcases hn pi rfl with hnm | hnm
      · exact hs (.inr (hnm ▸ ho))
      · exact not_special_appcompat name (.inr (hnm ▸ ho))
    simp only [read_eq_of_same hso.same ho]

theorem forall₂_append_toList (h : List.Forall₂ Shown l l') {a b} (ha : Option.Rel Shown a b) :
    List.Forall₂ Shown (l ++ a.toList) (l' ++ b.toList) ∧ a.isSome = b.isSome := by
  cases ha with
  | none => exact ⟨by simpa using h, rfl⟩
  | some hs => exact ⟨rel_append h (.cons hs .nil), rfl⟩

section
variable (h : Alike p q) (hp : p.isAppProcess) (ho : List.Forall₂ Shown obtained obtained')
include h hp ho

theorem call_alike (c : Call) (hc : Intercepted p obtained c) (hc' : Intercepted q obtained' c) :
    List.Forall₂ Shown (call p obtained c).1 (call q obtained' c).1 ∧
      (call p obtained c).2 = (call q obtained' c).2 := by
  have hq : q.isAppProcess := h.isAppProcess ▸ hp
  cases c with
  | find name address =>
    obtain ⟨hot, hso⟩ := forall₂_append_toList ho (h.rel_systemPropertyFind hp hc)
    exact ⟨hot, congrArg Result.propInfo hso⟩
  | findNth n =>
    obtain ⟨hot, hso⟩ := forall₂_append_toList ho (h.rel_findNth hc hc')
    exact ⟨hot, congrArg Result.propInfo hso⟩
  | foreach =>
    obtain ⟨hg, hr⟩ := h.rel_foreach hp hc hc'
    refine ⟨rel_append ho hg, ?_⟩
    exact congrArg₂ Result.foreach hg.length_eq hr
  | get name address value =>
    refine ⟨ho, ?_⟩
    simp only [call, systemPropertyGet_alike h hp hc hc']
  | read k nameBuffer value =>
    have hk := rel_getElem? ho k
    simp only [Intercepted, call] at hc hc' ⊢
    generalize obtained[k]? = a at hk hc
    generalize obtained'[k]? = b at hk hc'
    cases hk with
    | none => exact ⟨ho, rfl⟩
    | @some pi qi hs =>
      refine ⟨ho, ?_⟩
      simp only [systemPropertyRead_shown hp hq hs (hc pi rfl) (hc' qi rfl), copiedName,
        hs.same.name]
  | readCallback k | serial k =>
    have hk := rel_getElem? ho k
    simp only [Intercepted, call] at hc hc' ⊢
    generalize obtained[k]? = a at hk hc
    generalize obtained'[k]? = b at hk hc'
    cases hk with
    | none => exact ⟨ho, rfl⟩
    | @some pi qi hs =>
      refine ⟨ho, ?_⟩
      simp only [systemPropertyReadCallback_shown hp hq hs (hc pi rfl) (hc' qi rfl),
        systemPropertySerial_shown hp hq hs (hc pi rfl) (hc' qi rfl)]

theorem results_alike (calls) (hc : AllIntercepted p obtained calls)
    (hc' : AllIntercepted q obtained' calls) :
    results p obtained calls = results q obtained' calls := by
  induction calls generalizing obtained obtained' with
  | nil => rfl
  | cons c calls ih =>
    obtain ⟨hn, hr⟩ := call_alike h hp ho c hc.1 hc'.1
    rw [results, results, hr, ih hn hc.2 hc'.2]

end

/-- In an app process, two property stores that differ only in hidden and replaced properties give
the same results to all calls that do not get around the interception. -/
theorem stores_indistinguishable (p q : Process) (h : Alike p q) (hp : p.isAppProcess)
    (calls : List Call) (hc : AllIntercepted p [] calls) (hc' : AllIntercepted q [] calls) :
    results p [] calls = results q [] calls :=
  results_alike h hp .nil calls hc hc'

def info (name value : String) : PropInfo :=
  { name := ascii name
    nameAddress := 0x70000000
    serial := BitVec.ofNat 32 value.length <<< 24
    value := ascii value ++ [0]
    dirtyBackup := []
    longValue := [] }

def processOf (props : List PropInfo) : Process :=
  { isAppProcess := true
    initialized := true
    useAppcompatOverride := false
    accessible := fun _ => true
    props }

def customRom : Process := processOf [info "ro.modversion" "11.0", info "ro.debuggable" "1"]

def stockRom : Process := processOf [info "ro.debuggable" "0"]

theorem processOf_alike {props props'}
    (h : List.Forall₂ SameInfo (props.filter fun pi => ¬Hidden pi.name)
      (props'.filter fun qi => ¬Hidden qi.name)) : Alike (processOf props) (processOf props') :=
  ⟨rfl, rfl, rfl, rfl, h⟩

theorem customRom_alike_stockRom : Alike customRom stockRom := by
  apply processOf_alike
  have hcs : ([info "ro.modversion" "11.0", info "ro.debuggable" "1"].filter fun pi =>
      ¬Hidden pi.name) = [info "ro.debuggable" "1"] := by
    decide +kernel
  have hs : ([info "ro.debuggable" "0"].filter fun pi => ¬Hidden pi.name) =
      [info "ro.debuggable" "0"] := by
    decide +kernel
  have hn : (info "ro.debuggable" "1").name = (info "ro.debuggable" "0").name := by
    rfl
  have hov : Overridden (info "ro.debuggable" "1").name := by decide +kernel
  rw [hcs, hs]
  refine .cons ⟨hn, ?_⟩ .nil
  intro hno
  exact absurd hov hno

/-- All names of a device are mapped high, so `foreach` and then reading what it gave and asking
for a replaced value of the same length are intercepted. -/
theorem stores_indistinguishable_roms :
    results customRom [] [.foreach, .readCallback 0, .get (ascii "ro.debuggable") 0x70000000
        ⟨0x70000000, List.replicate 92 0⟩] =
      results stockRom [] [.foreach, .readCallback 0, .get (ascii "ro.debuggable") 0x70000000
        ⟨0x70000000, List.replicate 92 0⟩] := by
  have hl : lowAddress ≤ 0x70000000 := by decide
  have hm : ∀ r ∈ [customRom, stockRom], ∀ ri ∈ r.props, lowAddress ≤ ri.nameAddress := by
    intro r hr ri hri
    simp only [mem_cons, not_mem_nil, or_false] at hr
    rcases hr with rfl | rfl
    · simp only [customRom, processOf, mem_cons, not_mem_nil, or_false] at hri
      rcases hri with rfl | rfl <;> exact hl
    simp only [stockRom, processOf, mem_cons, not_mem_nil, or_false] at hri
    rcases hri with rfl
    exact hl
  have hg : ∀ r ∈ [customRom, stockRom], ∀ ri, (call r [] .foreach).1[0]? = some ri →
      lowAddress ≤ ri.nameAddress := by
    intro r hr ri hri
    have hin : r.initialized := by
      simp only [mem_cons, not_mem_nil, or_false] at hr
      rcases hr with rfl | rfl <;> rfl
    have hmm := mem_of_getElem? hri
    simp only [call, systemPropertyForeach, hin] at hmm
    have hpo : ri ∈ r.props ∧ shouldHideProp r ri.name ri.nameAddress = false := by
      simpa using hmm
    exact hm r hr ri hpo.1
  have hv : ∀ r ∈ [customRom, stockRom], ∀ ri, r.find (ascii "ro.debuggable") = some ri →
      serialValueLen ri.serial ≤ (spoofedValue (ascii "ro.debuggable")).length := by
    decide +kernel
  apply stores_indistinguishable customRom stockRom customRom_alike_stockRom rfl
  all_goals
    exact ⟨fun pi hpi _ => hm _ (by simp) pi hpi, fun pi hpi _ => hg _ (by simp) pi hpi,
      fun _ => ⟨hl, hl, hv _ (by simp)⟩, trivial⟩

/-- `find_nth` counts the hidden property: its second property exists on one device only. -/
theorem findNth_distinguishes : results customRom [] [.findNth 1] = [.propInfo true] ∧
      results stockRom [] [.findNth 1] = [.propInfo false] := by
  decide +kernel

example : (systemPropertyGet customRom (ascii "ro.modversion") 0x70000000
    ⟨0x70000000, List.replicate 92 0⟩).1.bytes.take 5 = 0 :: ascii "1.0" ++ [0] := by
  decide +kernel

end SystemPropertyApi
