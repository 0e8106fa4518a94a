import Bionic.GrpPwdFile

/-! Users and groups by name and by id, grp_pwd.cpp. Names come from the generated table, from the
files of the partitions, and from rules for OEM ids and for the ids of apps. -/
namespace GrpPwd
open GrpPwdFile DecimalText Option
open List Nat

section

def aidAppStart : ℕ := 10000
def aidAppEnd : ℕ := 19999
def aidCacheGidStart : ℕ := 20000
def aidCacheGidEnd : ℕ := 29999
def aidExtGidStart : ℕ := 30000
def aidExtGidEnd : ℕ := 39999
def aidExtCacheGidStart : ℕ := 40000
def aidExtCacheGidEnd : ℕ := 49999
def aidSharedGidStart : ℕ := 50000
def aidSharedGidEnd : ℕ := 59999
def aidOverflowuid : ℕ := 65534
def aidIsolatedStart : ℕ := 90000
def aidIsolatedEnd : ℕ := 99999
def aidUserOffset : ℕ := 100000
def aidOemReservedStart : ℕ := 2900
def aidOemReservedEnd : ℕ := 2999
def aidOemReserved2Start : ℕ := 5000
def aidOemReserved2End : ℕ := 5999
def aidEverybody : ℕ := 9997

def requiredPrefixes : List Text :=
  [['s', 'y', 's', 't', 'e', 'm', '_'], ['v', 'e', 'n', 'd', 'o', 'r', '_'],
    ['o', 'd', 'm', '_'], ['p', 'r', 'o', 'd', 'u', 'c', 't', '_'],
    ['s', 'y', 's', 't', 'e', 'm', '_', 'e', 'x', 't', '_']]

def oemStart : Text := ['o', 'e', 'm', '_']
def cacheText : Text := ['_', 'c', 'a', 'c', 'h', 'e']
def extText : Text := ['_', 'e', 'x', 't']
def extCacheText : Text := ['_', 'e', 'x', 't', '_', 'c', 'a', 'c', 'h', 'e']

structure AndroidIdInfo where
  name : Text
  aid : ℕ

/-- A name of the table has none of the forms that other names have. -/
structure Platform (name : Text) : Prop where
  nonempty : name ≠ []
  fits : name.length < 32
  ofNoFile : ∀ p ∈ requiredPrefixes, ¬p <+: name
  notOem : ¬oemStart <+: name
  notAll : ¬['a', 'l', 'l', '_'] <+: name
  notApp : ∀ c d rest, name = c :: d :: rest → d.isDigit → c ≠ 'a' ∧ c ≠ 'i' ∧ c ≠ 'u'

/-- `android_ids`, with the ids that secondary users have too. -/
structure AndroidIds where
  infos : List AndroidIdInfo
  secondaryUserPlatformIds : List ℕ
  names : (infos.map (·.name)).Nodup
  aids : (infos.map (·.aid)).Nodup
  platform : ∀ info ∈ infos, Platform info.name
  known : ∀ id ∈ secondaryUserPlatformIds,
    id < aidAppStart ∧ ∃ info ∈ infos, info.aid = id ∧ info.name.length ≤ 25

/-- Its table, the size of `unsigned long`, and whether it is an old one. -/
structure Device where
  ids : AndroidIds
  ulongBits : ℕ
  wide : 32 ≤ ulongBits
  launchedBeforeApi29 : Bool

variable (δ : Device)

def findAndroidIdInfoById (id : ℕ) : Option AndroidIdInfo :=
  δ.ids.infos.find? fun info => info.aid = id

def findAndroidIdInfoByName (name : Text) : Option AndroidIdInfo :=
  δ.ids.infos.find? fun info => info.name = name

structure IdRange where
  first : ℕ
  last : ℕ

def userRanges : List IdRange :=
  [⟨aidAppStart, aidAppEnd⟩, ⟨aidIsolatedStart, aidIsolatedEnd⟩]

def groupRanges : List IdRange :=
  [⟨aidAppStart, aidAppEnd⟩, ⟨aidCacheGidStart, aidCacheGidEnd⟩,
    ⟨aidExtGidStart, aidExtGidEnd⟩, ⟨aidExtCacheGidStart, aidExtCacheGidEnd⟩,
    ⟨aidSharedGidStart, aidSharedGidEnd⟩, ⟨aidIsolatedStart, aidIsolatedEnd⟩]

def platformIdSecondaryUserAllowed (id : ℕ) : Bool := id ∈ δ.ids.secondaryUserPlatformIds

def isValidAppId (id : ℕ) (isGroup : Bool) : Bool :=
  let appid := id % aidUserOffset
  if appid = aidOverflowuid then false
  else if appid < aidAppStart ∧ platformIdSecondaryUserAllowed δ appid then true
  else if aidSharedGidStart ≤ appid ∧ appid ≤ aidSharedGidEnd ∧ appid ≠ id then false
  else (if isGroup then groupRanges else userRanges).any fun r =>
    r.first ≤ appid ∧ appid ≤ r.last

def isOemId (id : ℕ) : Bool :=
  if δ.launchedBeforeApi29 ∧ aidOemReservedStart ≤ id ∧ id < aidEverybody ∧
      findAndroidIdInfoById δ id = none then true
  else (aidOemReservedStart ≤ id ∧ id ≤ aidOemReservedEnd) ∨
    (aidOemReserved2Start ≤ id ∧ id ≤ aidOemReserved2End)

end

section
variable (δ : Device)

def userFromName (name : Text) (isGroup : Bool) : Option (ℕ × Text × Bool) :=
  match name, isGroup with
  | 'a' :: 'l' :: 'l' :: stop, true => some (0, stop, true)
  | 'u' :: d :: rest, _ =>
    if d.isDigit then
      let user := strtoul δ.ulongBits (d :: rest) 10
      some (user.value, user.stop, false)
    else none
  | _, _ => none

def groupSuffix (appid : ℕ) (stop : Text) : ℕ × Text :=
  if stop = extCacheText then
    (appid + aidExtCacheGidStart, [])
  else if stop = extText then (appid + aidExtGidStart, [])
  else if stop = cacheText then (appid + aidCacheGidStart, [])
  else (appid + aidAppStart, stop)

def platformFromName (name : Text) : Option (ℕ × Text) :=
  match findAndroidIdInfoByName δ name with
  | some info =>
    if platformIdSecondaryUserAllowed δ info.aid then some (info.aid, []) else none
  | none => some (0, '_' :: name)

def appFromName (isGroup isSharedGid : Bool) (name : Text) : Option (ℕ × Text) :=
  match name with
  | 'a' :: d :: rest =>
    if d.isDigit then
      let app := strtoul δ.ulongBits (d :: rest) 10
      if isSharedGid then
        let appid := (app.value + aidSharedGidStart) % 2 ^ δ.ulongBits
        if aidSharedGidEnd < appid then none else some (appid, app.stop)
      else if isGroup then
        let (appid, stop) := groupSuffix app.value app.stop
        some (appid % 2 ^ δ.ulongBits, stop)
      else some ((app.value + aidAppStart) % 2 ^ δ.ulongBits, app.stop)
    else platformFromName δ name
  | 'i' :: d :: rest =>
    if d.isDigit then
      let app := strtoul δ.ulongBits (d :: rest) 10
      some ((app.value + aidIsolatedStart) % 2 ^ δ.ulongBits, app.stop)
    else platformFromName δ name
  | _ => platformFromName δ name

def appIdFromName (name : Text) (isGroup : Bool) : ℕ :=
  match userFromName δ name isGroup with
  | none => 0
  | some (userid, stop, isSharedGid) =>
    match stop with
    | '_' :: c :: rest =>
      match appFromName δ isGroup isSharedGid (c :: rest) with
      | none => 0
      | some (appid, stop) =>
        if stop ≠ [] ∨ 1000 < userid ∨ aidUserOffset ≤ appid then 0
        else appid + userid * aidUserOffset
    | _ => 0

def userText (userid : ℕ) (rest : Text) : Text := 'u' :: Nat.toDigits 10 userid ++ '_' :: rest

def printPlatformName (userid appid : ℕ) : Text :=
  match findAndroidIdInfoById δ appid with
  | some info => userText userid info.name
  | none => []

def printAppNameFromUid (uid : ℕ) : Text :=
  let appid := uid % aidUserOffset
  let userid := uid / aidUserOffset
  if aidIsolatedStart ≤ appid then
    userText userid ('i' :: Nat.toDigits 10 (appid - aidIsolatedStart))
  else if appid < aidAppStart then printPlatformName δ userid appid
  else userText userid ('a' :: Nat.toDigits 10 (appid - aidAppStart))

def printAppNameFromGid (gid : ℕ) : Text :=
  let appid := gid % aidUserOffset
  let userid := gid / aidUserOffset
  if aidIsolatedStart ≤ appid then
    userText userid ('i' :: Nat.toDigits 10 (appid - aidIsolatedStart))
  else if userid = 0 ∧ aidSharedGidStart ≤ appid ∧ appid ≤ aidSharedGidEnd then
    'a' :: 'l' :: 'l' :: '_' :: 'a' :: Nat.toDigits 10 (appid - aidSharedGidStart)
  else if aidExtCacheGidStart ≤ appid ∧ appid ≤ aidExtCacheGidEnd then
    userText userid ('a' :: Nat.toDigits 10 (appid - aidExtCacheGidStart) ++ extCacheText)
  else if aidExtGidStart ≤ appid ∧ appid ≤ aidExtGidEnd then
    userText userid ('a' :: Nat.toDigits 10 (appid - aidExtGidStart) ++ extText)
  else if aidCacheGidStart ≤ appid ∧ appid ≤ aidCacheGidEnd then
    userText userid ('a' :: Nat.toDigits 10 (appid - aidCacheGidStart) ++ cacheText)
  else if appid < aidAppStart then printPlatformName δ userid appid
  else userText userid ('a' :: Nat.toDigits 10 (appid - aidAppStart))

def printAppName (isGroup : Bool) (id : ℕ) : Text :=
  if isGroup then printAppNameFromGid δ id else printAppNameFromUid δ id

/-- The width of the buffer in which `sscanf` collects a number. -/
def scanWidth : ℕ := 512

def scanUnsigned (input : Text) : Option ℕ :=
  let p := input.dropWhile isspace
  let (signText, digits) : Text × Text :=
    match p with
    | '-' :: rest => (['-'], (rest.takeWhile (·.isDigit)).take (scanWidth - 1))
    | '+' :: rest => (['+'], (rest.takeWhile (·.isDigit)).take (scanWidth - 1))
    | _ => ([], (p.takeWhile (·.isDigit)).take scanWidth)
  if digits = [] then none
  else some ((strtoul 64 (signText ++ digits) 10).value % 2 ^ 32)

def oemIdFromName (name : Text) : ℕ :=
  match name with
  | 'o' :: 'e' :: 'm' :: '_' :: rest =>
    match scanUnsigned rest with
    | none => 0
    | some id => if isOemId δ id then id else 0
  | _ => 0

end

section

def kGrpPwdBufferSize : ℕ := 32

/-- `snprintf` into a buffer of an entry. -/
def printed (t : Text) : Text := t.take (kGrpPwdBufferSize - 1)

structure Passwd where
  name : Text
  uid : ℕ
  gid : ℕ
  dir : Text
  shell : Text
  deriving DecidableEq

structure Group where
  name : Text
  gid : ℕ
  deriving DecidableEq

def copied (field : Text) : Text := cString (copyFieldToString field kGrpPwdBufferSize)

def toPasswdState (bits : ℕ) (fields : List Text) : Option Passwd := do
  let name ← fields[0]?
  let dir ← fields[5]?
  let shell ← fields[6]?
  let uid ← fieldToUid bits (fields[2]?)
  let gid ← fieldToUid bits (fields[3]?)
  some ⟨copied name, uid, gid, copied dir, copied shell⟩

def toGroupState (bits : ℕ) (fields : List Text) : Option Group := do
  let name ← fields[0]?
  let gid ← fieldToUid bits (fields[2]?)
  some ⟨copied name, gid⟩

def binSh : Text := ['/', 'b', 'i', 'n', '/', 's', 'h']

structure Database (E : Type) where
  isGroup : Bool
  numFields : ℕ
  name : E → Text
  id : E → ℕ
  toState : ℕ → List Text → Option E
  ofIinfo : AndroidIdInfo → E
  ofOem : ℕ → E
  ofApp : Text → ℕ → E
  numFields_pos : 1 ≤ numFields
  toState_spec : ∀ bits fields e, toState bits fields = some e →
    (∃ field, fields[0]? = some field ∧ name e = copied field) ∧
      fieldToUid bits (fields[2]?) = some (id e)
  ofIinfo_spec : ∀ info, name (ofIinfo info) = printed info.name ∧ id (ofIinfo info) = info.aid
  ofOem_spec : ∀ n, name (ofOem n) = printed ('o' :: 'e' :: 'm' :: '_' :: Nat.toDigits 10 n) ∧
    id (ofOem n) = n
  ofApp_spec : ∀ text n, name (ofApp text n) = printed text ∧ id (ofApp text n) = n

def passwdDatabase : Database Passwd where
  isGroup := false
  numFields := 7
  name := Passwd.name
  id := Passwd.uid
  toState := toPasswdState
  ofIinfo := fun info => ⟨printed info.name, info.aid, info.aid, ['/'], binSh⟩
  ofOem := fun uid =>
    ⟨printed ('o' :: 'e' :: 'm' :: '_' :: Nat.toDigits 10 uid), uid, uid, ['/'], binSh⟩
  ofApp := fun text uid =>
    ⟨printed text, uid, uid,
      if uid % aidUserOffset < aidAppStart then ['/'] else ['/', 'd', 'a', 't', 'a'], binSh⟩
  numFields_pos := by decide
  toState_spec := by
    intro bits fields e h
    simp only [toPasswdState, bind_eq_bind, bind_eq_some_iff] at h
    obtain ⟨name, hname, dir, -, shell, -, uid, huid, gid, -, heq⟩ := h
    cases heq
    exact ⟨⟨name, hname, rfl⟩, huid⟩
  ofIinfo_spec := fun _ => ⟨rfl, rfl⟩
  ofOem_spec := fun _ => ⟨rfl, rfl⟩
  ofApp_spec := fun _ _ => ⟨rfl, rfl⟩

def groupDatabase : Database Group where
  isGroup := true
  numFields := 4
  name := Group.name
  id := Group.gid
  toState := toGroupState
  ofIinfo := fun info => ⟨printed info.name, info.aid⟩
  ofOem := fun gid => ⟨printed ('o' :: 'e' :: 'm' :: '_' :: Nat.toDigits 10 gid), gid⟩
  ofApp := fun text gid => ⟨printed text, gid⟩
  numFields_pos := by decide
  toState_spec := by
    intro bits fields e h
    simp only [toGroupState, bind_eq_bind, bind_eq_some_iff] at h
    obtain ⟨name, hname, gid, hgid, heq⟩ := h
    cases heq
    exact ⟨⟨name, hname, rfl⟩, hgid⟩
  ofIinfo_spec := fun _ => ⟨rfl, rfl⟩
  ofOem_spec := fun _ => ⟨rfl, rfl⟩
  ofApp_spec := fun _ _ => ⟨rfl, rfl⟩

variable {E : Type} (db : Database E) (δ : Device) (files : List MmapFile)

def findInFiles (predicate : List Text → Bool) : Option E :=
  files.findSome? fun f => (f.find db.numFields predicate).bind (db.toState δ.ulongBits)

def oemIdTo (id : ℕ) : Option E :=
  match findInFiles db δ files (hasId δ.ulongBits id) with
  | some e => some e
  | none => if isOemId δ id then some (db.ofOem id) else none

def appIdTo (id : ℕ) : Option E :=
  if id < aidAppStart ∨ ¬isValidAppId δ id db.isGroup then none
  else some (db.ofApp (printAppName δ db.isGroup id) id)

def getById (id : ℕ) : Option E :=
  match findAndroidIdInfoById δ id with
  | some info => some (db.ofIinfo info)
  | none =>
    match oemIdTo db δ files id with
    | some e => some e
    | none => appIdTo db δ id

def getByName (name : Text) : Option E :=
  match findAndroidIdInfoByName δ name with
  | some info => some (db.ofIinfo info)
  | none =>
    match findInFiles db δ files (hasName name) with
    | some e => some e
    | none =>
      match oemIdTo db δ files (oemIdFromName δ name) with
      | some e => some e
      | none => appIdTo db δ (appIdFromName δ name db.isGroup)

def filesOf (contents : Fin 5 → Text) : List MmapFile :=
  List.zipWith MmapFile.mk (List.ofFn contents) requiredPrefixes

def getpwuid (contents : Fin 5 → Text) (uid : ℕ) : Option Passwd :=
  getById passwdDatabase δ (filesOf contents) uid

def getpwnam (contents : Fin 5 → Text) (login : Text) : Option Passwd :=
  getByName passwdDatabase δ (filesOf contents) login

def getgrgid (contents : Fin 5 → Text) (gid : ℕ) : Option Group :=
  getById groupDatabase δ (filesOf contents) gid

def getgrnam (contents : Fin 5 → Text) (name : Text) : Option Group :=
  getByName groupDatabase δ (filesOf contents) name

end

variable {δ : Device} {g sh : Bool} {ds es tail rest n : Text} {id : ℕ}

section

structure Numeral (ds : Text) : Prop where
  nonempty : ds ≠ []
  digits : ∀ c ∈ ds, c.isDigit

theorem Numeral.of_toDigits (n) : Numeral (toDigits 10 n) :=
  ⟨(plain_toDigits n).nonempty, (plain_toDigits n).digits⟩

theorem Numeral.cons (h : Numeral ds) : ∃ d ds', ds = d :: ds' ∧ d.isDigit := by
  obtain ⟨d, ds', rfl⟩ := exists_cons_of_ne_nil h.nonempty
  exact ⟨d, ds', rfl, h.digits d mem_cons_self⟩

theorem exists_numeral {d s} (hd : d.isDigit) :
    ∃ ds tail, d :: s = ds ++ tail ∧ Numeral ds ∧ NoDigit tail := by
  refine ⟨(d :: s).takeWhile (·.isDigit), (d :: s).dropWhile (·.isDigit),
    List.takeWhile_append_dropWhile.symm, ⟨?_, fun c hc => ?_⟩, fun c hc => ?_⟩
  · rw [takeWhile_cons_of_pos hd]
    exact cons_ne_nil _ _
  · exact (List.all_eq_true.1 all_takeWhile) c hc
  have := head?_dropWhile_not (fun c => c.isDigit) (d :: s)
  rw [hc] at this
  simpa using this

def readValue (δ : Device) (ds : Text) : ℕ := min (value ds) (2 ^ δ.ulongBits - 1)

theorem two_pow_ulongBits (δ : Device) : 4294967296 ≤ 2 ^ δ.ulongBits :=
  Nat.pow_le_pow_right (by decide : 0 < 2) δ.wide

theorem userFromName_user (hds : Numeral ds) (hr : NoDigit rest) :
    userFromName δ ('u' :: ds ++ rest) g = some (readValue δ ds, rest, false) := by
  obtain ⟨hv, hs⟩ := strtoul_digits δ.ulongBits hds.nonempty hds.digits hr
  obtain ⟨d, ds', rfl, hd⟩ := hds.cons
  rw [cons_append, cons_append, userFromName, if_pos hd, ← cons_append]
  simp only [hv, hs]
  rfl

theorem userFromName_cases {u stop} (h : userFromName δ n g = some (u, stop, sh)) :
    (sh ∧ g ∧ n = 'a' :: 'l' :: 'l' :: stop ∧ u = 0) ∨
      (sh = false ∧ ∃ ds, Numeral ds ∧ NoDigit stop ∧ n = 'u' :: ds ++ stop ∧
        u = readValue δ ds) := by
  unfold userFromName at h
  split at h
  · cases h
    exact .inl ⟨rfl, rfl, rfl, rfl⟩
  · split at h
    case isTrue hd =>
      rename_i d s
      obtain ⟨ds, tail, hs, hds, ht⟩ := exists_numeral (s := s) hd
      obtain ⟨hv, hsp⟩ := strtoul_digits δ.ulongBits hds.nonempty hds.digits ht
      simp only [hs, hv, hsp] at h
      cases h
      exact .inr ⟨rfl, ds, hds, ht, by rw [hs]; rfl, rfl⟩
    case isFalse => cases h
  · cases h

theorem appFromName_a (g sh) (hes : Numeral es) (ht : NoDigit tail) :
    appFromName δ g sh ('a' :: es ++ tail) = if sh then
        if aidSharedGidEnd < (readValue δ es + aidSharedGidStart) % 2 ^ δ.ulongBits then none
        else some ((readValue δ es + aidSharedGidStart) % 2 ^ δ.ulongBits, tail) else if g then
        some ((groupSuffix (readValue δ es) tail).1 % 2 ^ δ.ulongBits,
          (groupSuffix (readValue δ es) tail).2)
      else some ((readValue δ es + aidAppStart) % 2 ^ δ.ulongBits, tail) := by
  obtain ⟨hv, hs⟩ := strtoul_digits δ.ulongBits hes.nonempty hes.digits ht
  obtain ⟨d, es', rfl, hd⟩ := hes.cons
  rw [cons_append, cons_append, appFromName, if_pos hd, ← cons_append]
  simp only [hv, hs]
  rfl

theorem appFromName_i (g sh) (hes : Numeral es) (ht : NoDigit tail) :
    appFromName δ g sh ('i' :: es ++ tail) =
      some ((readValue δ es + aidIsolatedStart) % 2 ^ δ.ulongBits, tail) := by
  obtain ⟨hv, hs⟩ := strtoul_digits δ.ulongBits hes.nonempty hes.digits ht
  obtain ⟨d, es', rfl, hd⟩ := hes.cons
  rw [cons_append, cons_append, appFromName, if_pos hd, ← cons_append]
  simp only [hv, hs]
  rfl

theorem appFromName_cases (δ g sh n) :
    (∃ c es tail, (c = 'a' ∨ c = 'i') ∧ Numeral es ∧ NoDigit tail ∧ n = c :: es ++ tail) ∨
      appFromName δ g sh n = platformFromName δ n := by
  unfold appFromName
  split
  · rename_i d rest
    by_cases hd : d.isDigit
    · obtain ⟨es, tail, hs, hes, ht⟩ := exists_numeral (s := rest) hd
      exact .inl ⟨'a', es, tail, .inl rfl, hes, ht, by rw [hs]; rfl⟩
    · exact .inr (if_neg hd)
  · rename_i d rest
    by_cases hd : d.isDigit
    · obtain ⟨es, tail, hs, hes, ht⟩ := exists_numeral (s := rest) hd
      exact .inl ⟨'i', es, tail, .inr rfl, hes, ht, by rw [hs]; rfl⟩
    · exact .inr (if_neg hd)
  · exact .inr rfl

variable {info : AndroidIdInfo}

theorem find?_key {α β : Type} [DecidableEq β] {key : α → β} {l : List α} {a}
    (hn : (l.map key).Nodup) (ha : a ∈ l) : l.find? (fun b => key b = key a) = some a := by
  have hs : (l.find? fun b => key b = key a).isSome :=
    find?_isSome.2 ⟨a, ha, decide_eq_true rfl⟩
  obtain ⟨b, hb⟩ := isSome_iff_exists.1 hs
  have hk : key b = key a := by simpa using find?_some hb
  rw [hb, inj_on_of_nodup_map hn (mem_of_find?_eq_some hb) ha hk]

theorem findAndroidIdInfoByName_of_mem (h : info ∈ δ.ids.infos) :
    findAndroidIdInfoByName δ info.name = some info :=
  find?_key δ.ids.names h

theorem findAndroidIdInfoById_of_mem (h : info ∈ δ.ids.infos) :
    findAndroidIdInfoById δ info.aid = some info :=
  find?_key δ.ids.aids h

theorem findAndroidIdInfoById_some (h : findAndroidIdInfoById δ id = some info) :
    info ∈ δ.ids.infos ∧ info.aid = id :=
  ⟨mem_of_find?_eq_some h, by simpa using find?_some h⟩

theorem findAndroidIdInfoByName_some (h : findAndroidIdInfoByName δ n = some info) :
    info ∈ δ.ids.infos ∧ info.name = n :=
  ⟨mem_of_find?_eq_some h, by simpa using find?_some h⟩

theorem allowed_known (h : platformIdSecondaryUserAllowed δ id) :
    id < aidAppStart ∧ ∃ info ∈ δ.ids.infos, info.aid = id ∧ info.name.length ≤ 25 :=
  δ.ids.known id (by simpa [platformIdSecondaryUserAllowed] using h)

end

variable {u v : ℕ}

section
variable (h : v < aidUserOffset)
include h

theorem add_user_mod : (v + u * aidUserOffset) % aidUserOffset = v := by
  rw [add_mul_mod_self_right, mod_eq_of_lt h]

theorem add_user_div : (v + u * aidUserOffset) / aidUserOffset = u := by
  rw [add_mul_div_right _ _ (by decide), div_eq_of_lt h, zero_add]

theorem printAppNameFromUid_eq : printAppNameFromUid δ (v + u * aidUserOffset) =
      if 90000 ≤ v then userText u ('i' :: toDigits 10 (v - 90000))
      else if v < 10000 then printPlatformName δ u v
      else userText u ('a' :: toDigits 10 (v - 10000)) := by
  rw [printAppNameFromUid, add_user_mod h, add_user_div h]
  rfl

theorem printAppNameFromGid_eq : printAppNameFromGid δ (v + u * aidUserOffset) =
      if 90000 ≤ v then userText u ('i' :: toDigits 10 (v - 90000))
      else if u = 0 ∧ 50000 ≤ v ∧ v ≤ 59999 then
        'a' :: 'l' :: 'l' :: '_' :: 'a' :: toDigits 10 (v - 50000)
      else if 40000 ≤ v ∧ v ≤ 49999 then userText u ('a' :: toDigits 10 (v - 40000) ++ extCacheText)
      else if 30000 ≤ v ∧ v ≤ 39999 then userText u ('a' :: toDigits 10 (v - 30000) ++ extText)
      else if 20000 ≤ v ∧ v ≤ 29999 then userText u ('a' :: toDigits 10 (v - 20000) ++ cacheText)
      else if v < 10000 then printPlatformName δ u v
      else userText u ('a' :: toDigits 10 (v - 10000)) := by
  rw [printAppNameFromGid, add_user_mod h, add_user_div h]
  rfl

end

def suffixes : List (ℕ × Text) :=
  [(40000, extCacheText), (30000, extText), (20000, cacheText)]

structure NameRange where
  letter : Char
  first : ℕ
  suffix : Text
  deriving DecidableEq

def nameRanges (g : Bool) : List NameRange :=
  ⟨'a', 10000, []⟩ :: ⟨'i', 90000, []⟩ ::
    if g then suffixes.map fun (first, suffix) => ⟨'a', first, suffix⟩ else []

def NameRange.text (ρ : NameRange) (ds : Text) : Text := ρ.letter :: ds ++ ρ.suffix

theorem nameRanges_bounds : ∀ g, ∀ ρ ∈ nameRanges g,
    ρ.first ≤ 90000 ∧ ρ.suffix.length ≤ 10 ∧ ρ.suffix.head?.all (! ·.isDigit) := by
  decide

theorem print_range {ρ} (hρ : ρ ∈ nameRanges g) (hv : v < 10000) :
    printAppName δ g (v + ρ.first + u * aidUserOffset) = userText u (ρ.text (toDigits 10 v)) := by
  have hl : v + ρ.first < aidUserOffset := by
    have := (nameRanges_bounds g ρ hρ).1
    rw [aidUserOffset]
    omega
  cases g with
  | false =>
    rw [printAppName, if_neg nofun, printAppNameFromUid_eq hl]
    simp only [nameRanges, Bool.false_eq_true, if_false, mem_cons, not_mem_nil, or_false] at hρ
    rcases hρ with rfl | rfl <;> dsimp only <;> split_ifs <;>
      first | omega | simp [NameRange.text]
  | true =>
    rw [printAppName, if_pos rfl, printAppNameFromGid_eq hl]
    simp only [nameRanges, suffixes, if_true, map_cons, map_nil, mem_cons,
      not_mem_nil, or_false] at hρ
    rcases hρ with rfl | rfl | rfl | rfl | rfl <;> dsimp only <;> split_ifs <;>
      first | omega | simp [NameRange.text]

theorem print_platform (hv : v < aidAppStart) :
    printAppName δ g (v + u * aidUserOffset) = printPlatformName δ u v := by
  rw [aidAppStart] at hv
  have hl : v < aidUserOffset := by
    rw [aidUserOffset]
    omega
  cases g with
  | false =>
    rw [printAppName, if_neg nofun, printAppNameFromUid_eq hl, if_neg (by omega),
      if_pos hv]
  | true =>
    rw [printAppName, if_pos rfl, printAppNameFromGid_eq hl, if_neg (by omega),
      if_neg (by omega), if_neg (by omega), if_neg (by omega), if_neg (by omega), if_pos hv]

theorem print_shared (hv : v < 10000) : printAppName δ true (v + 50000 + 0 * aidUserOffset) =
      'a' :: 'l' :: 'l' :: '_' :: 'a' :: toDigits 10 v := by
  have hl : v + 50000 < aidUserOffset := by
    rw [aidUserOffset]
    omega
  rw [printAppName, if_pos rfl, printAppNameFromGid_eq hl, if_neg (by omega),
    if_pos ⟨rfl, by omega, by omega⟩, Nat.add_sub_cancel]

variable {appid : ℕ}

/-- The numbers in an app's name are written as printed, with at most four digits. Names of shared
groups are for apps only. -/
structure Spelled (g : Bool) (n : Text) : Prop where
  user : ∀ ds rest, Numeral ds → n = 'u' :: ds ++ '_' :: rest → Plain ds
  app : ∀ ds c es tail, Numeral ds → (c = 'a' ∨ c = 'i') → Numeral es → NoDigit tail →
    n = 'u' :: ds ++ '_' :: (c :: es ++ tail) → Plain es ∧ es.length ≤ 4
  shared : g → ∀ es tail, Numeral es → NoDigit tail →
    n = 'a' :: 'l' :: 'l' :: '_' :: ('a' :: es ++ tail) → Plain es ∧ es.length ≤ 4
  notIsolated : g → ∀ es, Numeral es → n ≠ 'a' :: 'l' :: 'l' :: '_' :: 'i' :: es

theorem appIdFromName_eq (hus : userFromName δ n g = some (u, '_' :: rest, sh))
    (hr : rest ≠ []) (ha : appFromName δ g sh rest = some (appid, [])) (hu : u ≤ 1000)
    (hl : appid < aidUserOffset) : appIdFromName δ n g = appid + u * aidUserOffset := by
  obtain ⟨c, rest, rfl⟩ := exists_cons_of_ne_nil hr
  simp only [appIdFromName, hus, ha]
  exact if_neg (not_or.2 ⟨not_not_intro rfl, by omega⟩)

theorem appIdFromName_cases (h : 0 < appIdFromName δ n g) :
    ∃ u rest sh appid, userFromName δ n g = some (u, '_' :: rest, sh) ∧
      appFromName δ g sh rest = some (appid, []) ∧ u ≤ 1000 ∧ appid < aidUserOffset ∧
      appIdFromName δ n g = appid + u * aidUserOffset := by
  have huf := h
  unfold appIdFromName at huf
  split at huf
  · cases huf
  case _ u stop sh hus =>
    split at huf
    case h_2 => cases huf
    case _ c rest =>
      split at huf
      · cases huf
      case _ appid stop ha =>
        split at huf
        · cases huf
        case _ ho =>
          simp only [not_or, not_not, not_lt, not_le] at ho
          obtain ⟨rfl, hu, hl⟩ := ho
          exact ⟨u, c :: rest, sh, appid, hus, ha, hu, hl,
            appIdFromName_eq hus (cons_ne_nil _ _) ha hu hl⟩

theorem readValue_short (h : Plain es) (hl : es.length ≤ 4) :
    readValue δ es < 10000 ∧ toDigits 10 (readValue δ es) = es := by
  have hlt : value es < 10000 :=
    lt_of_lt_of_le (value_lt h.digits) (Nat.pow_le_pow_right (by decide) hl)
  have hp := two_pow_ulongBits δ
  have hr : readValue δ es = value es := min_eq_left (by omega)
  rw [hr]
  exact ⟨hlt, h.toDigits⟩

theorem readValue_user (h : Plain ds) (hl : readValue δ ds ≤ 1000) :
    toDigits 10 (readValue δ ds) = ds := by
  have hp := two_pow_ulongBits δ
  have hr : readValue δ ds = value ds := by
    rw [readValue] at hl ⊢
    omega
  rw [hr]
  exact h.toDigits

theorem mod_ulong (hv : v < 1000000) : v % 2 ^ δ.ulongBits = v :=
  mod_eq_of_lt (lt_of_lt_of_le (by omega) (two_pow_ulongBits δ))

theorem platformFromName_some (h : platformFromName δ n = some (appid, [])) :
    ∃ info ∈ δ.ids.infos, info.name = n ∧ info.aid = appid ∧ appid < aidAppStart ∧
      n.length ≤ 25 := by
  unfold platformFromName at h
  split at h
  case h_2 => cases h
  case _ info hif =>
    split at h
    case isFalse => cases h
    case isTrue ha =>
      cases h
      obtain ⟨hm, rfl⟩ := findAndroidIdInfoByName_some hif
      obtain ⟨hlt, info', hm', had, hl⟩ := allowed_known ha
      obtain rfl := inj_on_of_nodup_map δ.ids.aids hm' hm had
      exact ⟨info', hm, rfl, rfl, hlt, hl⟩

theorem range_of_app {c} (hc : c = 'a' ∨ c = 'i') (hes : Numeral es) (ht : NoDigit tail)
    (hs : readValue δ es < 10000)
    (ha : appFromName δ g false (c :: es ++ tail) = some (appid, [])) :
    ∃ ρ ∈ nameRanges g, c :: es ++ tail = ρ.text es ∧ appid = readValue δ es + ρ.first := by
  have hm (ρ : NameRange) (hρ : ρ ∈ nameRanges false) : ρ ∈ nameRanges g := by
    revert hρ
    cases g <;> simp only [nameRanges, Bool.false_eq_true, if_false, mem_cons] <;> tauto
  rcases hc with rfl | rfl
  · rw [appFromName_a _ _ hes ht, if_neg nofun] at ha
    cases g with
    | false =>
      cases ha
      exact ⟨⟨'a', 10000, []⟩, by decide, rfl, mod_ulong (by rw [aidAppStart]; omega)⟩
    | true =>
      rw [if_pos rfl, some.injEq, Prod.mk.injEq] at ha
      obtain ⟨rfl, hsp⟩ := ha
      unfold groupSuffix at hsp ⊢
      split_ifs at hsp ⊢ with hec he hc
      · exact ⟨⟨'a', 40000, extCacheText⟩, by decide, by rw [hec]; rfl,
          mod_ulong (by rw [aidExtCacheGidStart]; omega)⟩
      · exact ⟨⟨'a', 30000, extText⟩, by decide, by rw [he]; rfl,
          mod_ulong (by rw [aidExtGidStart]; omega)⟩
      · exact ⟨⟨'a', 20000, cacheText⟩, by decide, by rw [hc]; rfl,
          mod_ulong (by rw [aidCacheGidStart]; omega)⟩
      · exact ⟨⟨'a', 10000, []⟩, by decide, by rw [show tail = [] from hsp]; rfl,
          mod_ulong (by rw [aidAppStart]; omega)⟩
  · rw [appFromName_i _ _ hes ht] at ha
    cases ha
    exact ⟨⟨'i', 90000, []⟩, hm _ (by decide), rfl, mod_ulong (by rw [aidIsolatedStart]; omega)⟩

theorem print_of_app (u) (hs : ∀ c es tail, (c = 'a' ∨ c = 'i') → Numeral es → NoDigit tail →
      rest = c :: es ++ tail → Plain es ∧ es.length ≤ 4)
    (ha : appFromName δ g false rest = some (appid, [])) :
    printAppName δ g (appid + u * aidUserOffset) = userText u rest ∧ rest.length ≤ 25 := by
  rcases appFromName_cases δ g false rest with ⟨c, es, tail, hc, hes, htl, rfl⟩ | hp
  · obtain ⟨hpn, hl⟩ := hs c es tail hc hes htl rfl
    obtain ⟨hlt, hd⟩ := readValue_short (δ := δ) hpn hl
    obtain ⟨ρ, hρ, ht, rfl⟩ := range_of_app hc hes htl hlt ha
    have hb := (nameRanges_bounds g ρ hρ).2.1
    rw [ht, print_range hρ hlt, hd]
    refine ⟨rfl, ?_⟩
    rw [NameRange.text, length_append, length_cons]
    omega
  · rw [hp] at ha
    obtain ⟨info, hm, rfl, rfl, hlt, hl⟩ := platformFromName_some ha
    refine ⟨?_, hl⟩
    rw [print_platform hlt, printPlatformName, findAndroidIdInfoById_of_mem hm]

theorem print_of_name (hs : Spelled g n) (hid : aidAppStart ≤ appIdFromName δ n g) :
    printAppName δ g (appIdFromName δ n g) = n ∧ n.length < 32 := by
  have hps : 0 < appIdFromName δ n g := lt_of_lt_of_le (by decide) hid
  obtain ⟨u, rest, sh, appid, hus, ha, hu, hlt, heq⟩ := appIdFromName_cases hps
  rw [heq] at hid ⊢
  rcases userFromName_cases hus with ⟨rfl, rfl, rfl, rfl⟩ | ⟨rfl, ds, hds, -, rfl, rfl⟩
  · rcases appFromName_cases δ true true rest with
      ⟨c, es, tail, rfl | rfl, hes, ht, rfl⟩ | hpa
    · obtain ⟨hp, hl⟩ := hs.shared rfl es tail hes ht rfl
      obtain ⟨hst, hd⟩ := readValue_short (δ := δ) hp hl
      rw [appFromName_a _ _ hes ht, if_pos rfl, mod_ulong (by rw [aidSharedGidStart]; omega)] at ha
      split at ha
      · cases ha
      cases ha
      rw [append_nil]
      refine ⟨?_, by simp only [length_cons]; omega⟩
      rw [aidSharedGidStart, print_shared hst, hd]
    · rw [appFromName_i _ _ hes ht] at ha
      cases ha
      rw [append_nil] at hs
      exact absurd rfl (hs.notIsolated rfl es hes)
    · rw [hpa] at ha
      obtain ⟨info, -, -, -, hsa, -⟩ := platformFromName_some ha
      omega
  · have hp := hs.user ds rest hds rfl
    have hd := readValue_user hp hu
    obtain ⟨hpi, hl⟩ := print_of_app (readValue δ ds) (fun c es tail hc hes ht hr =>
        hs.app ds c es tail hds hc hes ht (by rw [hr])) ha
    have hlenDs : ds.length ≤ 4 := by
      rw [← hd]
      exact (length_toDigits_le_iff (by decide) (by decide)).2 (by omega)
    rw [hpi, userText, hd]
    refine ⟨rfl, ?_⟩
    rw [length_append, length_cons, length_cons]
    omega

section
variable {ρ : NameRange}

theorem isValidAppId_cases (h : isValidAppId δ id g) :
    platformIdSecondaryUserAllowed δ (id % aidUserOffset) ∨
      (∃ ρ ∈ nameRanges g, ∃ v < 10000, id % aidUserOffset = v + ρ.first) ∨
      (g ∧ id / aidUserOffset = 0 ∧ ∃ v < 10000, id % aidUserOffset = v + 50000) := by
  have hr {first last : ℕ} (h : first ≤ id % aidUserOffset ∧ id % aidUserOffset ≤ last)
      (hl : last < first + 10000) : ∃ v < 10000, id % aidUserOffset = v + first :=
    ⟨id % aidUserOffset - first, by omega, by omega⟩
  simp only [isValidAppId] at h
  split at h
  · cases h
  split at h
  case isTrue ha => exact .inl ha.2
  split at h
  · cases h
  rename_i hs
  right
  cases g with
  | false =>
    simp only [userRanges, any_cons, any_nil, Bool.or_false, Bool.or_eq_true,
      decide_eq_true_eq, Bool.false_eq_true, if_false] at h
    rcases h with hin | hin
    · exact .inl ⟨⟨'a', 10000, []⟩, by decide, hr hin (by decide)⟩
    · exact .inl ⟨⟨'i', 90000, []⟩, by decide, hr hin (by decide)⟩
  | true =>
    simp only [groupRanges, any_cons, any_nil, Bool.or_false, Bool.or_eq_true,
      decide_eq_true_eq, if_true] at h
    rcases h with hin | hin | hin | hin | hin | hin
    · exact .inl ⟨⟨'a', 10000, []⟩, by decide, hr hin (by decide)⟩
    · exact .inl ⟨⟨'a', 20000, cacheText⟩, by decide, hr hin (by decide)⟩
    · exact .inl ⟨⟨'a', 30000, extText⟩, by decide, hr hin (by decide)⟩
    · exact .inl ⟨⟨'a', 40000, extCacheText⟩, by decide, hr hin (by decide)⟩
    · have hid : id % aidUserOffset = id := by
        by_contra hn
        exact hs ⟨hin.1, hin.2, hn⟩
      refine .inr ⟨rfl, div_eq_of_lt ?_, hr hin (by decide)⟩
      rw [← hid]
      exact mod_lt _ (by decide)
    · exact .inl ⟨⟨'i', 90000, []⟩, by decide, hr hin (by decide)⟩

theorem readValue_toDigits (hv : v < 10000) : readValue δ (toDigits 10 v) = v := by
  have hp := two_pow_ulongBits δ
  rw [readValue, value_toDigits]
  omega

theorem noDigit_cons {c} (hc : c.isDigit = false) : NoDigit (c :: rest) := by
  rintro c' ⟨⟩
  exact hc

theorem noDigit_suffix (hρ : ρ ∈ nameRanges g) : NoDigit ρ.suffix := by
  intro c hc
  have ha := (nameRanges_bounds g ρ hρ).2.2
  rw [hc] at ha
  simpa using ha

theorem noDigit_nil : NoDigit [] := nofun

theorem appIdFromName_userText (hu : u ≤ 1000) (hr : rest ≠ [])
    (ha : appFromName δ g false rest = some (appid, [])) (hl : appid < aidUserOffset) :
    appIdFromName δ (userText u rest) g = appid + u * aidUserOffset := by
  have hr' : NoDigit ('_' :: rest) := noDigit_cons (by decide)
  have hus := userFromName_user (δ := δ) (g := g) (Numeral.of_toDigits u) hr'
  rw [readValue_toDigits (by omega)] at hus
  exact appIdFromName_eq hus hr ha hu hl

def AppForm (t : Text) : Prop :=
  (∃ d rest, t = 'u' :: d :: rest ∧ d.isDigit) ∨ ∃ rest, t = 'a' :: 'l' :: 'l' :: '_' :: rest

theorem appForm_userText : AppForm (userText u rest) := by
  obtain ⟨d, ds, hds, hd⟩ := (Numeral.of_toDigits u).cons
  refine .inl ⟨d, ds ++ '_' :: rest, ?_, hd⟩
  rw [userText, hds]
  rfl

theorem length_userText (hu : u ≤ 1000) (hr : rest.length ≤ 25) :
    (userText u rest).length < 32 := by
  have hl : (toDigits 10 u).length ≤ 4 :=
    (length_toDigits_le_iff (by decide) (by decide)).2 (by omega)
  rw [userText, length_append, length_cons, length_cons]
  omega

theorem length_toDigits (hv : v < 10000) : (toDigits 10 v).length ≤ 4 :=
  (length_toDigits_le_iff (by decide) (by decide)).2 hv

theorem read_range (hρ : ρ ∈ nameRanges g) (hv : v < 10000) :
    appFromName δ g false (ρ.text (toDigits 10 v)) = some (v + ρ.first, []) := by
  have ha := appFromName_a (δ := δ) g false (Numeral.of_toDigits v) (noDigit_suffix hρ)
  have hi := appFromName_i (δ := δ) g false (Numeral.of_toDigits v) (noDigit_suffix hρ)
  have hs : some ((v + ρ.first) % 2 ^ δ.ulongBits, ([] : Text)) = some (v + ρ.first, []) := by
    have hb := (nameRanges_bounds g ρ hρ).1
    rw [mod_ulong (by omega)]
  rw [readValue_toDigits hv, if_neg nofun] at ha
  rw [readValue_toDigits hv] at hi
  cases g with
  | false =>
    simp only [nameRanges, Bool.false_eq_true, if_false, mem_cons, not_mem_nil, or_false] at hρ
    rcases hρ with rfl | rfl
    · exact ha.trans hs
    · exact hi.trans hs
  | true =>
    simp only [nameRanges, suffixes, if_true, map_cons, map_nil, mem_cons,
      not_mem_nil, or_false] at hρ
    rcases hρ with rfl | rfl | rfl | rfl | rfl
    · exact ha.trans hs
    · exact hi.trans hs
    all_goals exact ha.trans hs

theorem read_shared (hv : v < 10000) :
    appFromName δ true true ('a' :: toDigits 10 v) = some (v + 50000, []) := by
  have hr := appFromName_a (δ := δ) true true (Numeral.of_toDigits v) noDigit_nil
  rw [append_nil, readValue_toDigits hv, if_pos rfl, aidSharedGidStart, aidSharedGidEnd,
    mod_ulong (by omega), if_neg (by omega)] at hr
  exact hr

theorem name_of_print (hvl : isValidAppId δ id g) (hu : id / aidUserOffset ≤ 1000) :
    appIdFromName δ (printAppName δ g id) g = id ∧ (printAppName δ g id).length < 32 ∧
      AppForm (printAppName δ g id) := by
  have hid : id % aidUserOffset + id / aidUserOffset * aidUserOffset = id := by
    rw [mul_comm]
    exact mod_add_div id aidUserOffset
  have hlt : id % aidUserOffset < aidUserOffset := mod_lt _ (by decide)
  have hus (rest : Text) (hn : rest ≠ []) (hl : rest.length ≤ 25)
      (hp : printAppName δ g id = userText (id / aidUserOffset) rest)
      (hap : appFromName δ g false rest = some (id % aidUserOffset, [])) :
      appIdFromName δ (printAppName δ g id) g = id ∧ (printAppName δ g id).length < 32 ∧
        AppForm (printAppName δ g id) := by
    rw [hp, appIdFromName_userText hu hn hap hlt, hid]
    exact ⟨rfl, length_userText hu hl, appForm_userText⟩
  rcases isValidAppId_cases hvl with ha | ⟨ρ, hρ, v, hv, heq⟩ | ⟨rfl, hz, v, hv, heq⟩
  · obtain ⟨hs, info, hm, had, hl⟩ := allowed_known ha
    refine hus info.name (δ.ids.platform info hm).nonempty hl ?_ ?_
    · rw [← hid, print_platform hs, printPlatformName, ← had,
        findAndroidIdInfoById_of_mem hm, had, hid]
    rw [← had] at ha ⊢
    have hfm := (δ.ids.platform info hm).notApp
    rcases appFromName_cases δ g false info.name with ⟨c, es, tail, hc, hes, -, heq⟩ | heq
    · obtain ⟨d, es', rfl, hd⟩ := hes.cons
      obtain ⟨hca, hci, -⟩ := hfm _ _ _ heq hd
      exact absurd hc (not_or.2 ⟨hca, hci⟩)
    · rw [heq, platformFromName, findAndroidIdInfoByName_of_mem hm]
      exact if_pos ha
  · have hl := length_toDigits hv
    have hsf := (nameRanges_bounds g ρ hρ).2.1
    refine hus (ρ.text (toDigits 10 v)) (cons_ne_nil _ _) ?_ ?_ ?_
    · rw [NameRange.text, length_append, length_cons]
      omega
    · rw [← hid, heq, print_range hρ hv, ← heq, hid]
    · rw [heq, read_range hρ hv]
  · have hl := length_toDigits hv
    have hp : printAppName δ true id = 'a' :: 'l' :: 'l' :: '_' :: 'a' :: toDigits 10 v := by
      rw [← hid, heq, hz, print_shared hv]
    have hnm : appIdFromName δ (printAppName δ true id) true = id := by
      rw [hp, appIdFromName_eq rfl (cons_ne_nil _ _) (read_shared hv) (by decide)
        (by rw [← heq]; exact hlt), ← heq, ← hz, hid]
    refine ⟨hnm, ?_, ?_⟩
    · rw [hp]
      simp only [length_cons]
      omega
    · exact .inr ⟨_, hp⟩

end

variable {files : List MmapFile}

section
variable {E : Type} {db : Database E} {f : MmapFile} {s : Text} {e : E}
  {predicate : List Text → Bool}

def allLines (files : List MmapFile) : List Text := files.flatMap MmapFile.lines

def lineName (s : Text) : Text := s.takeWhile fun c => c ≠ ':' ∧ c ≠ '\n'

def lineId (db : Database E) (δ : Device) (s : Text) : Option ℕ :=
  fieldToUid δ.ulongBits ((parseLine db.numFields s)[2]?)

def Fits (t : Text) : Prop := t.length < kGrpPwdBufferSize ∧ '\x00' ∉ t

theorem copied_eq (h : Fits (lineName s)) : copied s = lineName s := by
  have ht : copyFieldToString s kGrpPwdBufferSize = lineName s :=
    take_of_length_le (le_sub_one_of_lt h.1)
  rw [copied, ht, cString]
  refine List.takeWhile_eq_self_iff.2 fun c hc => decide_eq_true ?_
  rintro rfl
  exact h.2 hc

theorem lineName_of_nameMatches (h : nameMatches s n) : lineName s = n := by
  obtain ⟨⟨rest, rfl⟩, hce⟩ := nameMatches_iff.1 h
  rw [lineName, takeWhile_append_of_pos fun c hc => decide_eq_true (hce c hc),
    takeWhile_cons_of_neg (by simp), append_nil]

theorem nameMatches_lineName (room) (h : fieldsAfter room s ≠ []) : nameMatches s (lineName s) := by
  refine nameMatches_iff.2 ⟨?_, fun c hc => ?_⟩
  · fun_induction fieldsAfter room s with
    | case1 => exact absurd rfl h
    | case2 room d rest hr ih => exact ⟨d :: rest, rfl⟩
    | case3 room c d rest hr hc ih =>
      obtain ⟨tail, ht⟩ := ih h
      refine ⟨tail, ?_⟩
      have hs : decide (c ≠ ':' ∧ c ≠ '\n') :=
        decide_eq_true ⟨hc, fun hn => hr (.inr hn)⟩
      have hcs : lineName (c :: d :: rest) = c :: lineName (d :: rest) :=
        takeWhile_cons_of_pos hs
      rw [hcs, cons_append, ← ht]
    | case4 => exact absurd rfl h
  · have := (List.all_eq_true.1 all_takeWhile) c hc
    simpa using this

theorem nameMatches_of_formed (hf : f.Formed db.numFields) (hk : 2 ≤ db.numFields)
    (hs : s ∈ f.lines) : nameMatches s (lineName s) := by
  have hl := hf s hs
  rw [parseLine, length_cons] at hl
  refine nameMatches_lineName (db.numFields - 1) fun hn => ?_
  rw [hn, length_nil] at hl
  omega

theorem eq_of_mem_of_length_le_one {α : Type} {l : List α} (hl : l.length ≤ 1) {a b}
    (ha : a ∈ l) (hb : b ∈ l) : a = b := by
  match l, hl with
  | [], _ => cases ha
  | [x], _ => rw [List.mem_singleton.1 ha, List.mem_singleton.1 hb]

theorem findInFiles_by_name (hk : 2 ≤ db.numFields) (hfmd : ∀ f ∈ files, f.Formed db.numFields)
    (hu : ∀ s ∈ allLines files, lineId db δ s = some id →
      ((allLines files).filter (lineName · = lineName s)).length ≤ 1)
    (h : findInFiles db δ files (hasId δ.ulongBits id) = some e) :
    ∃ s ∈ allLines files, lineId db δ s = some id ∧
      db.toState δ.ulongBits (parseLine db.numFields s) = some e ∧
      findInFiles db δ files (hasName (lineName s)) = some e := by
  induction files with
  | nil => cases h
  | cons f files ih =>
    have hf := hfmd f mem_cons_self
    have hfd (predicate : List Text → Bool) :
        f.find db.numFields predicate = (f.lines.find? fun s =>
          predicate (parseLine db.numFields s)).map (parseLine db.numFields) :=
      MmapFile.find_formed db.numFields_pos hf
    rw [findInFiles, findSome?_cons, hfd] at h
    split at h
    case _ e' hh =>
      cases h
      obtain ⟨fields, hmp, hst⟩ := bind_eq_some_iff.1 hh
      obtain ⟨s, hs, rfl⟩ := map_eq_some_iff.1 hmp
      have hmm : s ∈ f.lines := mem_of_find?_eq_some hs
      have ha : s ∈ allLines (f :: files) := mem_flatMap.2 ⟨f, mem_cons_self, hmm⟩
      have hp := find?_some hs
      have hid : lineId db δ s = some id := of_decide_eq_true hp
      have hm := nameMatches_of_formed hf hk hmm
      refine ⟨s, ha, hid, hst, ?_⟩
      have hft : f.lines.find? (nameMatches · (lineName s)) = some s := by
        have hso : (f.lines.find? (nameMatches · (lineName s))).isSome :=
          find?_isSome.2 ⟨s, hmm, hm⟩
        obtain ⟨b, hb⟩ := isSome_iff_exists.1 hso
        have hm' := find?_some hb
        have hn := lineName_of_nameMatches hm'
        have hb' : b ∈ allLines (f :: files) :=
          mem_flatMap.2 ⟨f, mem_cons_self, mem_of_find?_eq_some hb⟩
        rw [hb, eq_of_mem_of_length_le_one (hu s ha hid) (mem_filter.2 ⟨hb', decide_eq_true hn⟩)
          (mem_filter.2 ⟨ha, decide_eq_true rfl⟩)]
      have hbyName : f.find db.numFields (hasName (lineName s)) =
          some (parseLine db.numFields s) := by
        rw [hfd]
        exact congrArg (Option.map _) hft
      rw [findInFiles, findSome?_cons, hbyName, bind_some, hst]
    case _ hh =>
      have hsl : allLines (f :: files) = f.lines ++ allLines files := flatMap_cons
      have hfd' : ∀ f ∈ files, f.Formed db.numFields :=
        fun f' hf' => hfmd f' (mem_cons_of_mem _ hf')
      have hu' : ∀ s ∈ allLines files, lineId db δ s = some id →
          ((allLines files).filter (lineName · = lineName s)).length ≤ 1 := by
        intro s hs hid
        have hl := hu s (by rw [hsl]; exact mem_append_right _ hs) hid
        rw [hsl, filter_append, length_append] at hl
        omega
      obtain ⟨s, hs, hid, hst, hr⟩ := ih hfd' hu' h
      have ha : s ∈ allLines (f :: files) := by
        rw [hsl]
        exact mem_append_right _ hs
      refine ⟨s, ha, hid, hst, ?_⟩
      have hno : f.lines.find? (nameMatches · (lineName s)) = none := by
        refine find?_eq_none.2 fun b hb hm => ?_
        have hl := hu s ha hid
        rw [hsl, filter_append, length_append] at hl
        have hps : 0 < (f.lines.filter (lineName · = lineName s)).length :=
          length_pos_of_mem (mem_filter.2 ⟨hb, decide_eq_true (lineName_of_nameMatches hm)⟩)
        have hps' : 0 < ((allLines files).filter (lineName · = lineName s)).length :=
          length_pos_of_mem (mem_filter.2 ⟨hs, decide_eq_true rfl⟩)
        omega
      have hbyName : f.find db.numFields (hasName (lineName s)) = none := by
        rw [hfd]
        exact congrArg (Option.map _) hno
      rw [findInFiles, findSome?_cons, hbyName]
      exact hr

theorem prefix_of_mem_lines (hs : s ∈ f.lines) : f.requiredPrefix <+: s := by
  rw [MmapFile.lines] at hs
  split at hs
  · cases hs
  · exact of_decide_eq_true (mem_filter.1 hs).2

theorem prefix_of_nameMatches {p} (hc : ':' ∉ p) (hp : p <+: s)
    (hn : nameMatches s n) : p <+: n := by
  obtain ⟨⟨rest, rfl⟩, -⟩ := nameMatches_iff.1 hn
  rcases prefix_or_prefix_of_prefix hp (prefix_append n (':' :: rest)) with
    hin | ⟨tail, ht⟩
  · exact hin
  cases tail with
  | nil =>
    rw [append_nil] at ht
    exact ⟨[], by rw [append_nil]; exact ht.symm⟩
  | cons c tail =>
    rw [← ht, prefix_append_right_inj] at hp
    obtain rfl : c = ':' := (List.cons_prefix_cons.1 hp).1
    refine absurd ?_ hc
    rw [← ht]
    exact mem_append_right _ mem_cons_self

variable (hfmd : ∀ f ∈ files, f.Formed db.numFields)
include hfmd

theorem findInFiles_some (h : findInFiles db δ files predicate = some e) :
    ∃ f ∈ files, ∃ s ∈ f.lines, predicate (parseLine db.numFields s) ∧
      db.toState δ.ulongBits (parseLine db.numFields s) = some e := by
  obtain ⟨f, hf, hfd⟩ := exists_of_findSome?_eq_some h
  rw [MmapFile.find_formed db.numFields_pos (hfmd f hf), bind_eq_some_iff] at hfd
  obtain ⟨fields, hm, hst⟩ := hfd
  obtain ⟨s, hs, rfl⟩ := map_eq_some_iff.1 hm
  have hp := find?_some hs
  exact ⟨f, hf, s, mem_of_find?_eq_some hs, hp, hst⟩

theorem findInFiles_by_id_none (h : ∀ s ∈ allLines files, lineId db δ s ≠ some id) :
    findInFiles db δ files (hasId δ.ulongBits id) = none := by
  refine eq_none_iff_forall_ne_some.2 fun e he => ?_
  obtain ⟨f, hf, s, hs, hid, -⟩ := findInFiles_some hfmd he
  exact h s (mem_flatMap.2 ⟨f, hf, hs⟩) (of_decide_eq_true hid)

theorem findInFiles_by_name_none (hc : ∀ f ∈ files, ':' ∉ f.requiredPrefix)
    (h : ∀ f ∈ files, ¬f.requiredPrefix <+: n) : findInFiles db δ files (hasName n) = none := by
  refine eq_none_iff_forall_ne_some.2 fun e he => ?_
  obtain ⟨f, hf, s, hs, hn, -⟩ := findInFiles_some hfmd he
  exact h f hf (prefix_of_nameMatches (hc f hf) (prefix_of_mem_lines hs) hn)

end

def oemText (v : ℕ) : Text := 'o' :: 'e' :: 'm' :: '_' :: Nat.toDigits 10 v

theorem scanUnsigned_toDigits (hv : v < 2 ^ 32) : scanUnsigned (toDigits 10 v) = some v := by
  have hds := Numeral.of_toDigits v
  have hl : (toDigits 10 v).length ≤ scanWidth :=
    le_trans ((length_toDigits_le_iff (by decide) (by decide)).2
      (lt_trans hv (by decide : 2 ^ 32 < 10 ^ 10))) (by decide)
  obtain ⟨hvl, -⟩ := strtoul_digits 64 hds.nonempty hds.digits noDigit_nil
  rw [append_nil, value_toDigits] at hvl
  have ha := List.takeWhile_eq_self_iff.2 hds.digits
  have hsc : scanUnsigned (toDigits 10 v) =
      some ((strtoul 64 (toDigits 10 v) 10).value % 2 ^ 32) := by
    obtain ⟨d, ds, heq, hd⟩ := hds.cons
    rw [heq] at ha hl ⊢
    have hs : (d :: ds).dropWhile isspace = d :: ds := by
      obtain ⟨k, hk, rfl⟩ := exists_digitChar hd
      interval_cases k <;> rfl
    unfold scanUnsigned
    simp only [hs]
    split
    case h_1 hm =>
      cases hm
      exact absurd hd (by decide)
    case h_2 hp =>
      cases hp
      exact absurd hd (by decide)
    · rw [ha, take_of_length_le hl, if_neg (cons_ne_nil _ _), nil_append]
  rw [hsc, hvl]
  exact congrArg some (by omega)

theorem oemIdFromName_oemText (hv : v < 2 ^ 32) :
    oemIdFromName δ (oemText v) = if isOemId δ v then v else 0 := by
  unfold oemText oemIdFromName
  simp only [scanUnsigned_toDigits hv]

theorem oemIdFromName_other (h : ¬oemStart <+: n) : oemIdFromName δ n = 0 := by
  unfold oemIdFromName
  split
  case h_1 rest => exact absurd ⟨rest, rfl⟩ h
  case h_2 => rfl

theorem isOemId_zero : isOemId δ 0 = false := by
  rw [isOemId, if_neg (by simp [aidOemReservedStart])]
  rfl

theorem isOemId_lt (h : isOemId δ v) : v < 10000 := by
  unfold isOemId at h
  split at h
  case isTrue hl => exact lt_trans hl.2.2.1 (by decide)
  case isFalse =>
    rcases of_decide_eq_true h with ⟨-, hla⟩ | ⟨-, hla⟩
    all_goals exact lt_of_le_of_lt hla (by decide)

section
variable {E : Type} {db : Database E} {e : E}

/-- Lines have all their fields, and none has the id zero, which stands for a name that is not
found. -/
structure WellFormed (db : Database E) (δ : Device) (files : List MmapFile) : Prop where
  formed : ∀ f ∈ files, f.Formed db.numFields
  noZero : ∀ s ∈ allLines files, lineId db δ s ≠ some 0

/-- A name whose numbers are written as printed. If it is of an OEM id, no line gives the id another
name; if it is of a line, it fits into a buffer. -/
structure NameOk (db : Database E) (δ : Device) (files : List MmapFile) (n : Text) : Prop where
  noNul : '\x00' ∉ n
  spelled : Spelled db.isGroup n
  oem : oemStart <+: n → ∃ v < 2 ^ 32, n = oemText v ∧ ∀ s ∈ allLines files, lineId db δ s ≠ some v
  fits : (∃ s ∈ allLines files, lineName s = n) → n.length < kGrpPwdBufferSize

/-- The user is one that names can have; a line with the id has a name that fits into a buffer and
is of no other line. -/
structure IdOk (db : Database E) (δ : Device) (files : List MmapFile) (id : ℕ) : Prop where
  user : id / aidUserOffset ≤ 1000
  fits : ∀ s ∈ allLines files, lineId db δ s = some id → Fits (lineName s)
  unique : ∀ s ∈ allLines files, lineId db δ s = some id →
    ((allLines files).filter (lineName · = lineName s)).length ≤ 1

theorem printed_eq {t} (h : t.length < 32) : printed t = t :=
  take_of_length_le (le_sub_one_of_lt h)

def Partitioned (files : List MmapFile) : Prop := ∀ f ∈ files, f.requiredPrefix ∈ requiredPrefixes

theorem colon_not_mem (hp : Partitioned files) : ∀ f ∈ files, ':' ∉ f.requiredPrefix := by
  have ha : ∀ p ∈ requiredPrefixes, ':' ∉ p := by decide
  exact fun f hf => ha _ (hp f hf)

theorem prefix_head {p} (hp : p ∈ requiredPrefixes) (hin : p <+: n) :
    ∃ c d rest, n = c :: d :: rest ∧ (c = 's' ∨ c = 'v' ∨ c = 'p' ∨ (c = 'o' ∧ d = 'd')) := by
  obtain ⟨tail, rfl⟩ := hin
  simp only [requiredPrefixes, mem_cons, not_mem_nil, or_false] at hp
  rcases hp with rfl | rfl | rfl | rfl | rfl
  · exact ⟨_, _, _, rfl, .inl rfl⟩
  · exact ⟨_, _, _, rfl, .inr (.inl rfl)⟩
  · exact ⟨_, _, _, rfl, .inr (.inr (.inr ⟨rfl, rfl⟩))⟩
  · exact ⟨_, _, _, rfl, .inr (.inr (.inl rfl))⟩
  · exact ⟨_, _, _, rfl, .inl rfl⟩

section
variable (hf : WellFormed db δ files)
include hf

theorem oemIdTo_zero : oemIdTo db δ files 0 = none := by
  rw [oemIdTo, findInFiles_by_id_none hf.formed hf.noZero]
  simp only [isOemId_zero, Bool.false_eq_true, if_false]

theorem name_of_getByName (hn : NameOk db δ files n)
    (h : getByName db δ files n = some e) : db.name e = n := by
  unfold getByName at h
  split at h
  case h_1 info hif =>
    cases h
    obtain ⟨hm, rfl⟩ := findAndroidIdInfoByName_some hif
    rw [(db.ofIinfo_spec info).1, printed_eq (δ.ids.platform info hm).fits]
  split at h
  case h_1 e' he =>
    cases h
    obtain ⟨f, hm, s, hs, hnm, hst⟩ := findInFiles_some hf.formed he
    obtain ⟨⟨field, hfe, hc⟩, -⟩ := db.toState_spec _ _ _ hst
    cases hfe
    have hl := lineName_of_nameMatches hnm
    have ha : s ∈ allLines files := mem_flatMap.2 ⟨f, hm, hs⟩
    have hft : Fits (lineName s) := by
      rw [hl]
      exact ⟨hn.fits ⟨s, ha, hl⟩, hn.noNul⟩
    rw [hc, copied_eq hft, hl]
  split at h
  case h_1 e' he =>
    cases h
    by_cases ho : oemStart <+: n
    · obtain ⟨v, hv, rfl, hl⟩ := hn.oem ho
      rw [oemIdFromName_oemText hv] at he
      split at he
      case isFalse => rw [oemIdTo_zero hf] at he; cases he
      case isTrue hid =>
        rw [oemIdTo, findInFiles_by_id_none hf.formed hl] at he
        simp only [hid, if_true] at he
        cases he
        rw [(db.ofOem_spec v).1]
        refine printed_eq ?_
        have := length_toDigits (isOemId_lt hid)
        simp only [length_cons]
        omega
    · rw [oemIdFromName_other ho, oemIdTo_zero hf] at he
      cases he
  · rw [appIdTo] at h
    split at h
    · cases h
    case isFalse hvl =>
      cases h
      obtain ⟨hp, hln⟩ := print_of_name hn.spelled (Nat.le_of_not_lt fun h => hvl (.inl h))
      rw [(db.ofApp_spec _ _).1, hp, printed_eq hln]

theorem getByName_appForm (hp : Partitioned files)
    (hn : AppForm n) : getByName db δ files n = appIdTo db δ (appIdFromName δ n db.isGroup) := by
  have ht : findAndroidIdInfoByName δ n = none := by
    refine eq_none_iff_forall_ne_some.2 fun info hif => ?_
    obtain ⟨hm, rfl⟩ := findAndroidIdInfoByName_some hif
    rcases hn with ⟨d, rest, hnm, hd⟩ | ⟨rest, hnm⟩
    · exact ((δ.ids.platform info hm).notApp _ _ _ hnm hd).2.2 rfl
    · exact (δ.ids.platform info hm).notAll ⟨rest, hnm.symm⟩
  have hfl : findInFiles db δ files (hasName n) = none := by
    refine findInFiles_by_name_none hf.formed (colon_not_mem hp) fun f hm hin => ?_
    obtain ⟨c, d, rest, rfl, hc⟩ := prefix_head (hp f hm) hin
    rcases hn with ⟨d, rest, hnm, -⟩ | ⟨rest, hnm⟩
    all_goals
      cases hnm
      revert hc
      simp
  have ho : oemIdFromName δ n = 0 := by
    refine oemIdFromName_other ?_
    rintro ⟨tail, rfl⟩
    rcases hn with ⟨d, rest, hnm, -⟩ | ⟨rest, hnm⟩ <;> cases hnm
  rw [getByName, ht, hfl, ho, oemIdTo_zero hf]

end

theorem getByName_of_getById (hk : 2 ≤ db.numFields) (hf : WellFormed db δ files)
    (hp : Partitioned files) (hid : IdOk db δ files id) (h : getById db δ files id = some e) :
    ∃ e', getByName db δ files (db.name e) = some e' ∧ db.id e' = id := by
  unfold getById at h
  split at h
  case h_1 info hif =>
    cases h
    obtain ⟨hm, rfl⟩ := findAndroidIdInfoById_some hif
    refine ⟨db.ofIinfo info, ?_, (db.ofIinfo_spec info).2⟩
    rw [(db.ofIinfo_spec info).1, printed_eq (δ.ids.platform info hm).fits, getByName,
      findAndroidIdInfoByName_of_mem hm]
  split at h
  case h_1 e' he =>
    cases h
    rw [oemIdTo] at he
    split at he
    case h_1 e' hfd =>
      cases he
      obtain ⟨s, hs, hl, hst, hn⟩ :=
        findInFiles_by_name hk hf.formed hid.unique hfd
      obtain ⟨⟨field, hfe, hcp⟩, hey⟩ := db.toState_spec _ _ _ hst
      cases hfe
      have hentryId : db.id e = id := some.inj (hey.symm.trans hl)
      refine ⟨e, ?_, hentryId⟩
      rw [hcp, copied_eq (hid.fits s hs hl)]
      obtain ⟨f, hm, hsf⟩ := mem_flatMap.1 hs
      have hmt := nameMatches_of_formed (hf.formed f hm) hk hsf
      have hpe := prefix_of_nameMatches (colon_not_mem hp f hm) (prefix_of_mem_lines hsf) hmt
      have ht : findAndroidIdInfoByName δ (lineName s) = none := by
        refine eq_none_iff_forall_ne_some.2 fun info hif => ?_
        obtain ⟨hio, hn⟩ := findAndroidIdInfoByName_some hif
        rw [← hn] at hpe
        exact (δ.ids.platform info hio).ofNoFile _ (hp f hm) hpe
      rw [getByName, ht, hn]
    case h_2 hno =>
      split at he
      case isFalse => cases he
      case isTrue ho =>
        cases he
        refine ⟨db.ofOem id, ?_, (db.ofOem_spec id).2⟩
        have hsh : (oemText id).length < 32 := by
          have := length_toDigits (isOemId_lt ho)
          simp only [oemText, length_cons]
          omega
        have hpi : db.name (db.ofOem id) = oemText id :=
          (db.ofOem_spec id).1.trans (printed_eq hsh)
        rw [hpi]
        have ht : findAndroidIdInfoByName δ (oemText id) = none := by
          refine eq_none_iff_forall_ne_some.2 fun info hif => ?_
          obtain ⟨hm, hn⟩ := findAndroidIdInfoByName_some hif
          exact (δ.ids.platform info hm).notOem ⟨_, hn.symm⟩
        have hfl : findInFiles db δ files (hasName (oemText id)) = none := by
          refine findInFiles_by_name_none hf.formed (colon_not_mem hp) fun f hm hin => ?_
          obtain ⟨c, d, rest, heq, hc⟩ := prefix_head (hp f hm) hin
          cases heq
          revert hc
          decide
        have hlt : id < 2 ^ 32 := lt_trans (isOemId_lt ho) (by decide)
        rw [getByName, ht, hfl, oemIdFromName_oemText hlt, if_pos ho, oemIdTo, hno]
        simp only [ho, if_true]
  · rw [appIdTo] at h
    split at h
    · cases h
    case isFalse hv =>
      cases h
      rw [not_or, not_not] at hv
      obtain ⟨hn, hln, hfm⟩ := name_of_print hv.2 hid.user
      refine ⟨_, ?_, (db.ofApp_spec (printAppName δ db.isGroup id) id).2⟩
      rw [(db.ofApp_spec _ _).1, printed_eq hln, getByName_appForm hf hp hfm, hn, appIdTo,
        if_neg (by rw [not_or, not_not]; exact hv)]

theorem partitioned_filesOf (contents : Fin 5 → Text) : Partitioned (filesOf contents) := by
  intro f hf
  obtain ⟨i, hi, rfl⟩ := List.mem_iff_getElem.1 hf
  have hl : i < requiredPrefixes.length := by
    rw [filesOf, length_zipWith] at hi
    omega
  simp only [filesOf, getElem_zipWith]
  exact getElem_mem hl

/-- A lookup by name returns an entry with that name, and the name that a lookup by id returns leads
back to the id. -/
theorem lookups_agree (δ : Device) (passwd group : Fin 5 → Text)
    (hpasswd : WellFormed passwdDatabase δ (filesOf passwd))
    (hgroup : WellFormed groupDatabase δ (filesOf group)) :
    (∀ login e, NameOk passwdDatabase δ (filesOf passwd) login →
      getpwnam δ passwd login = some e → e.name = login) ∧
    (∀ name e, NameOk groupDatabase δ (filesOf group) name →
      getgrnam δ group name = some e → e.name = name) ∧
    (∀ uid e, IdOk passwdDatabase δ (filesOf passwd) uid → getpwuid δ passwd uid = some e →
      ∃ e', getpwnam δ passwd e.name = some e' ∧ e'.uid = uid) ∧
    (∀ gid e, IdOk groupDatabase δ (filesOf group) gid → getgrgid δ group gid = some e →
      ∃ e', getgrnam δ group e.name = some e' ∧ e'.gid = gid) := by
  refine ⟨?_, ?_, ?_, ?_⟩
  · intro login e hn h
    exact name_of_getByName hpasswd hn h
  · intro name e hn h
    exact name_of_getByName hgroup hn h
  · intro uid e hid h
    exact getByName_of_getById (by decide) hpasswd (partitioned_filesOf passwd) hid h
  · intro gid e hid h
    exact getByName_of_getById (by decide) hgroup (partitioned_filesOf group) hid h

end

def rootInfo : AndroidIdInfo := ⟨['r', 'o', 'o', 't'], 0⟩
def systemInfo : AndroidIdInfo := ⟨['s', 'y', 's', 't', 'e', 'm'], 1000⟩

def vendorIds : AndroidIds where
  infos := [rootInfo, systemInfo]
  secondaryUserPlatformIds := [1000]
  names := by decide
  aids := by decide
  platform := by
    intro info hinfo
    simp only [List.mem_cons, List.not_mem_nil, or_false] at hinfo
    rcases hinfo with rfl | rfl
    all_goals
      refine ⟨by decide, by decide, by decide, by decide, by decide, ?_⟩
      rintro c d rest ⟨⟩ hd
      exact absurd hd (by decide)
  known := by
    intro id hid
    obtain rfl := List.mem_singleton.1 hid
    exact ⟨by decide, systemInfo, by simp, rfl, by decide⟩

def vendorDevice : Device := ⟨vendorIds, 64, by decide, false⟩

def vendorX : Text := ['v', 'e', 'n', 'd', 'o', 'r', '_', 'x']

/-- `vendor_x:x:2901:2901::/:/bin/sh` in the file of the vendor. -/
def vendorPasswd : Fin 5 → Text := fun i =>
  if i = 1 then vendorX ++ [':', 'x', ':', '2', '9', '0', '1', ':', '2', '9', '0', '1', ':', ':',
    '/', ':', '/', 'b', 'i', 'n', '/', 's', 'h', '\n'] else []

def noGroups : Fin 5 → Text := fun _ => []

def vendorEntry : Passwd := ⟨vendorX, 2901, 2901, ['/'], binSh⟩

theorem getpwnam_vendorX : getpwnam vendorDevice vendorPasswd vendorX = some vendorEntry := by
  decide +kernel

theorem getpwuid_vendorX : getpwuid vendorDevice vendorPasswd 2901 = some vendorEntry := by
  decide +kernel

theorem wellFormed_vendorPasswd :
    WellFormed passwdDatabase vendorDevice (filesOf vendorPasswd) := by
  constructor
  · unfold MmapFile.Formed
    decide +kernel
  · decide +kernel

theorem wellFormed_noGroups : WellFormed groupDatabase vendorDevice (filesOf noGroups) := by
  constructor
  · unfold MmapFile.Formed
    decide +kernel
  · decide +kernel

theorem nameOk_of_head {E : Type} {db : Database E} {c}
    (hc : c ≠ 'u' ∧ c ≠ 'a' ∧ c ≠ 'o') (hn : '\x00' ∉ c :: n)
    (hl : (c :: n).length < kGrpPwdBufferSize) : NameOk db δ files (c :: n) where
  noNul := hn
  spelled :=
    { user := fun _ _ _ h => absurd (List.cons.inj h).1 hc.1
      app := fun _ _ _ _ _ _ _ _ h => absurd (List.cons.inj h).1 hc.1
      shared := fun _ _ _ _ _ h => absurd (List.cons.inj h).1 hc.2.1
      notIsolated := fun _ _ _ h => absurd (List.cons.inj h).1 hc.2.1 }
  oem := fun h => absurd (List.cons_prefix_cons.1 h).1.symm hc.2.2
  fits := fun _ => hl

/-- The user of a vendor under their name and their id, and the group of an app's cache. -/
theorem lookups_agree_vendor :
    (getpwnam vendorDevice vendorPasswd vendorX = some vendorEntry ∧ vendorEntry.name = vendorX) ∧
    (∃ e, getgrnam vendorDevice noGroups systemInfo.name = some e ∧ e.name = systemInfo.name) ∧
    (getpwuid vendorDevice vendorPasswd 2901 = some vendorEntry ∧
      ∃ e', getpwnam vendorDevice vendorPasswd vendorEntry.name = some e' ∧ e'.uid = 2901) ∧
    (∃ e, getgrgid vendorDevice noGroups 120005 = some e ∧
      ∃ e', getgrnam vendorDevice noGroups e.name = some e' ∧ e'.gid = 120005) := by
  obtain ⟨hp, hg, hpu, hgg⟩ := lookups_agree vendorDevice vendorPasswd noGroups
    wellFormed_vendorPasswd wellFormed_noGroups
  refine ⟨⟨getpwnam_vendorX, ?_⟩, ⟨⟨systemInfo.name, 1000⟩, rfl, ?_⟩, ⟨getpwuid_vendorX, ?_⟩,
    ⟨['u', '1', '_', 'a', '5', '_', 'c', 'a', 'c', 'h', 'e'], 120005⟩, ?_, ?_⟩
  · exact hp _ _ (nameOk_of_head (by decide) (by decide) (by decide)) getpwnam_vendorX
  · exact hg _ _ (nameOk_of_head (by decide) (by decide) (by decide)) rfl
  · refine hpu 2901 vendorEntry ⟨by decide, ?_, ?_⟩ getpwuid_vendorX
    · unfold Fits
      decide +kernel
    · decide +kernel
  · decide +kernel
  · refine hgg 120005 _ ⟨by decide, ?_, ?_⟩ (by decide +kernel)
    · unfold Fits
      decide +kernel
    · decide +kernel

/-- An id of the OEM range that a vendor has given a name: the OEM name is found, and the entry has
the vendor's name. -/
theorem oem_name_of_vendor :
    ∃ e, getpwnam vendorDevice vendorPasswd (oemText 2901) = some e ∧ e.name ≠ oemText 2901 :=
  ⟨vendorEntry, by decide +kernel, by decide⟩

end GrpPwd
