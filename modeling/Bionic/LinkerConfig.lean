import Bionic.LinkerNamespaces

/-! The linker's configuration file: `linker_config.cpp`. A file maps directories to sections; the
section of a binary says which namespaces there are, what they may load and how they are linked.
Strings are lists of characters and may contain nulls, which end a string wherever the source hands
out `c_str()`. -/
namespace LinkerConfig

open LinkerSoinfo LinkerNamespaces
open List Option

abbrev Str := Name

def cStr (s : Str) : Str := s.takeWhile (· ≠ '\x00')

abbrev Errno := ℕ

def enoent : Errno := 2

/-- What the linker asks of the system and of `linker_utils.cpp`. -/
structure Environment where
  readFile : Str → Except Errno Str
  strerror : Errno → Str
  access : Str → Except Errno Unit
  realpath : Str → Option Str
  resolvePath : Str → Str
  /-- The system property `ro.vndk.version`. -/
  vndkVersion : Str
  androidApi : ℤ
  kLibPath : Str
  /-- The width of a `long`. -/
  longBits : ℕ

/-- `Trim`, `Split` and `EndsWith` of libbase. The parts have all the characters but delimiters. -/
class Libbase where
  trim : Str → Str
  split : Str → Char → List Str
  endsWith : Str → Str → Bool
  mem_split : ∀ {c delimiter}, c ≠ delimiter → ∀ s,
    (∃ part ∈ split s delimiter, c ∈ part) ↔ c ∈ s

export Libbase (trim split endsWith mem_split)

/-- The text before and behind the first `needle`. -/
def cutAt (needle : Str) : Str → Option (Str × Str)
  | [] => if needle.isEmpty then some ([], []) else none
  | c :: s =>
    if needle.isPrefixOf (c :: s) then some ([], (c :: s).drop needle.length)
    else (cutAt needle s).map fun (before, behind) => (c :: before, behind)

inductive Token where
  | kPropertyAssign (name value : Str)
  | kPropertyAppend (name value : Str)
  | kSection (name : Str)
  | kError (msg : Str)
  deriving DecidableEq

section
variable [Libbase]

def token (line : Str) : Option Token :=
  let line := trim (line.takeWhile (· ≠ '#'))
  if line = [] then none
  else if line.head? = some '[' && line.getLast? = some ']' then
    some (.kSection (line.drop 1).dropLast)
  else match cutAt "+=".toList line with
    | some (name, value) => some (.kPropertyAppend (trim name) (trim value))
    | none => match cutAt ['='] line with
      | some (name, value) => some (.kPropertyAssign (trim name) (trim value))
      | none => some (.kError ("invalid format: ".toList ++ line ++
          ", expected \"name = property\", \"name += property\", or \"[section]\"".toList))

def tokens (content : Str) : List (ℕ × Token) :=
  ((split content '\n').zipIdx 1).filterMap fun (line, lineno) =>
    (token line).map fun t => (lineno, t)

structure PropertyValue where
  value : Str
  lineno : ℕ
  deriving DecidableEq

abbrev PropertyMap := Str → Option PropertyValue

def createErrorMsg (file : Str) (lineno : ℕ) (msg : Str) : Str :=
  (file ++ ":".toList ++ (toString lineno).toList ++ ": error: ".toList ++ cStr msg).take 1023

def dropTrailingSlashes (s : Str) : Str := (s.reverse.dropWhile (· = '/')).reverse

/-- The directory of a mapping as it is compared. -/
def resolvedDir (env : Environment) (value : Str) : Option Str :=
  match env.access (cStr value) with
  | .error e => if e = enoent then none else some value
  | .ok _ => some ((env.realpath (cStr value)).getD value)

def findSection (env : Environment) (binaryRealpath : Str) :
    List (ℕ × Token) → Option (Str × List (ℕ × Token))
  | [] => none
  | (_, .kSection _) :: _ => none
  | (_, .kPropertyAssign name value) :: rest =>
    let value := dropTrailingSlashes value
    if "dir.".toList.isPrefixOf name && value ≠ [] &&
        ((resolvedDir env value).map fun dir => fileIsUnderDir binaryRealpath (cStr dir)).getD
          false then
      some (name.drop 4, rest)
    else findSection env binaryRealpath rest
  | (_, .kPropertyAppend _ _) :: rest => findSection env binaryRealpath rest
  | (_, .kError _) :: rest => findSection env binaryRealpath rest

def skipToSection (sectionName : Str) : List (ℕ × Token) → Option (List (ℕ × Token))
  | [] => none
  | (_, .kSection name) :: rest =>
    if name = sectionName then some rest else skipToSection sectionName rest
  | _ :: rest => skipToSection sectionName rest

/-- What `+=` puts between values; `none` if it is not allowed. -/
def appendDelimiter (name : Str) : Option Char :=
  if endsWith name ".links".toList || endsWith name ".namespaces".toList then some ','
  else if endsWith name ".paths".toList || endsWith name ".shared_libs".toList ||
      endsWith name ".whitelisted".toList || endsWith name ".allowed_libs".toList then some ':'
  else none

def parseProperties (properties : PropertyMap) : List (ℕ × Token) → PropertyMap
  | [] => properties
  | (_, .kSection _) :: _ => properties
  | (lineno, .kPropertyAssign name value) :: rest =>
    parseProperties (Function.update properties name (some ⟨value, lineno⟩)) rest
  | (lineno, .kPropertyAppend name value) :: rest =>
    match properties name with
    | none => parseProperties (Function.update properties name (some ⟨value, lineno⟩)) rest
    | some old =>
      match appendDelimiter name with
      | some c =>
        let value := old.value ++ c :: value
        parseProperties (Function.update properties name (some { old with value })) rest
      | none => parseProperties properties rest
  | (_, .kError _) :: rest => parseProperties properties rest

def parseConfigFile (env : Environment) (ldConfigFilePath binaryRealpath : Str) :
    Except Str PropertyMap :=
  match env.readFile ldConfigFilePath with
  | .error e =>
    if e ≠ enoent then .error ("error reading file \"".toList ++ ldConfigFilePath ++
      "\": ".toList ++ env.strerror e)
    else .error []
  | .ok content =>
    match findSection env binaryRealpath (tokens content) with
    | none => .error []
    | some (sectionName, rest) =>
      match skipToSection sectionName rest with
      | none => .error (createErrorMsg ldConfigFilePath (split content '\n').length
          ("section \"".toList ++ sectionName ++ "\" not found".toList))
      | some rest => .ok (parseProperties (fun _ => none) rest)

def findLineno (properties : PropertyMap) (name : Str) (lineno : ℕ) : ℕ :=
  match properties name with
  | some v => v.lineno
  | none => lineno

def getStrings (properties : PropertyMap) (name : Str) : List Str :=
  match properties name with
  | some v => (split v.value ',').map trim
  | none => []

def getBool (properties : PropertyMap) (name : Str) : Bool :=
  match properties name with
  | some v => v.value = "true".toList
  | none => false

def getString (properties : PropertyMap) (name : Str) : Str :=
  match properties name with
  | some v => v.value
  | none => []

/-- What a text behind a `$` asks for: its length and its replacement. -/
def findParam (s : Str) : List (Str × Str) → Option (ℕ × Str)
  | [] => none
  | (name, replacement) :: params =>
    if name.isPrefixOf s then some (name.length, replacement)
    else if ('\x7b' :: name ++ ['\x7d']).isPrefixOf s then some (name.length + 2, replacement)
    else findParam s params

/-- The substituted text, `skip` characters being replaced already. -/
def formatFrom (params : List (Str × Str)) (skip : ℕ) : Str → Str
  | [] => []
  | c :: s =>
    match skip with
    | skip + 1 => formatFrom params skip s
    | 0 =>
      if c = '$' then
        match findParam s params with
        | some (length, replacement) => replacement ++ formatFrom params length s
        | none => c :: formatFrom params 0 s
      else c :: formatFrom params 0 s

def formatString (s : Str) (params : List (Str × Str)) : Str := formatFrom params 0 s

def getVndkVersionString (env : Environment) (delimiter : Char) : Str :=
  if env.vndkVersion ≠ [] ∧ env.vndkVersion ≠ "current".toList then delimiter :: env.vndkVersion
  else []

def pathParams (env : Environment) (targetSdkVersion : ℤ) : List (Str × Str) :=
  ("LIB".toList, env.kLibPath) ::
    (if targetSdkVersion ≠ 0 then
      [("SDK_VER".toList, (toString targetSdkVersion).toList.take 15)] else []) ++
    [("VNDK_VER".toList, getVndkVersionString env '-'),
      ("VNDK_APEX_VER".toList, getVndkVersionString env 'v')]

def splitPath (path : Str) (delimiter : Char) : List Str :=
  if path = [] then [] else split path delimiter

def getPaths (env : Environment) (properties : PropertyMap) (targetSdkVersion : ℤ) (name : Str)
    (resolve : Bool) : List Str :=
  let paths := (splitPath (cStr (getString properties name)) ':').map
    (formatString · (pathParams env targetSdkVersion))
  if resolve then ((paths.filter (· ≠ [])).map env.resolvePath).filter (· ≠ []) else paths

structure NamespaceLinkConfig where
  nsName : Str
  sharedLibs : Str
  allowAllSharedLibs : Bool
  deriving DecidableEq

structure NamespaceConfig where
  name : Str
  isolated : Bool
  visible : Bool
  searchPaths : List Str
  permittedPaths : List Str
  allowedLibs : List Str
  links : List NamespaceLinkConfig
  deriving DecidableEq

def NamespaceConfig.new (name : Str) : NamespaceConfig := ⟨name, false, false, [], [], [], []⟩

/-- `namespace_configs_map_` leads to places in `namespace_configs_`. -/
structure Config where
  namespaceConfigs : List NamespaceConfig
  namespaceConfigsMap : Str → Option ℕ
  targetSdkVersion : ℤ

def Config.createNamespaceConfig (config : Config) (name : Str) : Config :=
  { config with
    namespaceConfigs := config.namespaceConfigs ++ [.new name]
    namespaceConfigsMap :=
      Function.update config.namespaceConfigsMap name (some config.namespaceConfigs.length) }

def kDefaultConfigName : Str := "default".toList

def Config.find (config : Config) (name : Str) : Option (ℕ × NamespaceConfig) := do
  let i ← config.namespaceConfigsMap name
  let nsConfig ← config.namespaceConfigs[i]?
  some (i, nsConfig)

def Config.defaultNamespaceConfig (config : Config) : Option NamespaceConfig :=
  (config.find kDefaultConfigName).map Prod.snd

/-- `strtol` into an `int`; `none` unless it is positive. -/
def parseVersion (env : Environment) (content : Str) : Option ℤ :=
  let s := cStr content
  let (negative, digits) := match s with
    | '-' :: rest => (true, rest)
    | '+' :: rest => (false, rest)
    | _ => (false, s)
  if digits = [] ∨ !digits.all Char.isDigit then none
  else
    let magnitude := digits.foldl (fun n c => 10 * n + (c.toNat - '0'.toNat)) 0
    let value : ℤ := if negative then -magnitude else magnitude
    if value < -2 ^ (env.longBits - 1) ∨ 2 ^ (env.longBits - 1) ≤ value then none
    else
      let result := value.bmod (2 ^ 32)
      if 0 < result then some result else none

/-- The version in the file beside the binary, if it is asked for. -/
def readVersion (env : Environment) (properties : PropertyMap) (binaryRealpath : Str) :
    Except Str (Option ℤ) :=
  if getBool properties "enable.target.sdk.version".toList then
    let versionFile := dirname binaryRealpath ++ "/.version".toList
    match env.readFile versionFile with
    | .error e =>
      if e ≠ enoent then .error ("error reading version file \"".toList ++ versionFile ++
        "\": ".toList ++ env.strerror e)
      else .ok none
    | .ok content =>
      match parseVersion env (trim content) with
      | some version => .ok (some version)
      | none => .error ("invalid version \"".toList ++ versionFile ++ "\": \"".toList ++
          trim content ++ "\"".toList)
  else .ok none

def propertyName (name : Str) (rest : String) : Str :=
  "namespace.".toList ++ name ++ rest.toList

def linkPropertyName (name linked : Str) (rest : String) : Str :=
  propertyName name ".link." ++ linked ++ rest.toList

/-- `lineno` is the line that an error names. -/
def readLinks (properties : PropertyMap) (ldConfigFilePath : Str) (known : Str → Bool) (name : Str)
    (lineno : ℕ) : List Str → Except Str (List NamespaceLinkConfig)
  | [] => .ok []
  | linkedNsName :: rest =>
    if !known linkedNsName then
      .error (createErrorMsg ldConfigFilePath lineno
        ("undefined namespace: ".toList ++ linkedNsName))
    else
      let allowAllSharedLibs :=
        getBool properties (linkPropertyName name linkedNsName ".allow_all_shared_libs")
      let sharedLibs := getString properties (linkPropertyName name linkedNsName ".shared_libs")
      let lineno := findLineno properties (linkPropertyName name linkedNsName ".shared_libs") lineno
      if !allowAllSharedLibs && sharedLibs.isEmpty then
        .error (createErrorMsg ldConfigFilePath lineno ("list of shared_libs for ".toList ++ name ++
          "->".toList ++ linkedNsName ++ " link is not specified or is empty.".toList))
      else if allowAllSharedLibs && !sharedLibs.isEmpty then
        .error (createErrorMsg ldConfigFilePath lineno
          ("both shared_libs and allow_all_shared_libs are set for ".toList ++ name ++
          "->".toList ++ linkedNsName ++ " link.".toList))
      else do
        let links ← readLinks properties ldConfigFilePath known name lineno rest
        .ok (⟨linkedNsName, sharedLibs, allowAllSharedLibs⟩ :: links)

def readAllowedLibs (properties : PropertyMap) (name : Str) : List Str :=
  let allowedLibs := getString properties (propertyName name ".whitelisted")
  let libs := getString properties (propertyName name ".allowed_libs")
  let allowedLibs := allowedLibs ++ (if allowedLibs ≠ [] ∧ libs ≠ [] then [':'] else []) ++ libs
  if allowedLibs ≠ [] then split allowedLibs ':' else []

def sanitizer (isAsan isHwasan : Bool) : String :=
  if isAsan then ".asan" else if isHwasan then ".hwasan" else ""

def fillNamespaceConfig (env : Environment) (properties : PropertyMap) (ldConfigFilePath : Str)
    (isAsan isHwasan : Bool) (targetSdkVersion : ℤ) (known : Str → Bool)
    (nsConfig : NamespaceConfig) (name : Str) : Except Str NamespaceConfig := do
  let lineno := findLineno properties (propertyName name ".links") 0
  let links ← readLinks properties ldConfigFilePath known name lineno
    (getStrings properties (propertyName name ".links"))
  let san := sanitizer isAsan isHwasan
  .ok { nsConfig with
    links := nsConfig.links ++ links
    isolated := getBool properties (propertyName name ".isolated")
    visible := getBool properties (propertyName name ".visible")
    allowedLibs := readAllowedLibs properties name
    searchPaths := getPaths env properties targetSdkVersion
      (propertyName name (san ++ ".search.paths")) true
    permittedPaths := getPaths env properties targetSdkVersion
      (propertyName name (san ++ ".permitted.paths")) false }

def fillAll (fill : NamespaceConfig → Str → Except Str NamespaceConfig) (config : Config) :
    List Str → Except Str Config
  | [] => .ok config
  | name :: rest =>
    match config.find name with
    | none => fillAll fill config rest
    | some (i, nsConfig) => do
      let nsConfig ← fill nsConfig name
      fillAll fill { config with namespaceConfigs := config.namespaceConfigs.set i nsConfig } rest

def sectionNames (properties : PropertyMap) : List Str :=
  kDefaultConfigName :: getStrings properties "additional.namespaces".toList

/-- `iterate` is the order of an `unordered_map` with some keys. -/
def readConfigForBinary (env : Environment) (iterate : List Str → List Str)
    (ldConfigFilePath binaryRealpath : Str) (isAsan isHwasan : Bool) : Except Str Config := do
  let properties ← parseConfigFile env ldConfigFilePath binaryRealpath
  let names := sectionNames properties
  let config := names.foldl Config.createNamespaceConfig ⟨[], fun _ => none, env.androidApi⟩
  let version ← readVersion env properties binaryRealpath
  let targetSdkVersion := version.getD env.androidApi
  let config := { config with targetSdkVersion }
  fillAll (fillNamespaceConfig env properties ldConfigFilePath isAsan isHwasan targetSdkVersion
    fun name => (config.namespaceConfigsMap name).isSome) config (iterate names.dedup)

def configured (env : Environment) (properties : PropertyMap) (isAsan isHwasan : Bool)
    (targetSdkVersion : ℤ) (name : Str) : NamespaceConfig where
  name := name
  isolated := getBool properties (propertyName name ".isolated")
  visible := getBool properties (propertyName name ".visible")
  searchPaths := getPaths env properties targetSdkVersion
    (propertyName name (sanitizer isAsan isHwasan ++ ".search.paths")) true
  permittedPaths := getPaths env properties targetSdkVersion
    (propertyName name (sanitizer isAsan isHwasan ++ ".permitted.paths")) false
  allowedLibs := readAllowedLibs properties name
  links := (getStrings properties (propertyName name ".links")).map fun linked =>
    ⟨linked, getString properties (linkPropertyName name linked ".shared_libs"),
      getBool properties (linkPropertyName name linked ".allow_all_shared_libs")⟩

end

/-- To a known namespace, with either a list of libraries or the flag. -/
structure LinkAccepted (known : Str → Bool) (link : NamespaceLinkConfig) : Prop where
  known : known link.nsName
  libs : link.allowAllSharedLibs ↔ link.sharedLibs = []

theorem ok_of_bind {α β : Type} {x} {f : α → Except Str β} {b}
    (h : x >>= f = .ok b) : ∃ a, x = .ok a ∧ f a = .ok b := by
  cases x with
  | error e => cases h
  | ok a => exact ⟨a, rfl, h⟩

variable {isAsan isHwasan : Bool} {config : Config} {env : Environment} {names : List Str}
  {nsConfig : NamespaceConfig} {properties : PropertyMap} {file name : Str} {known : Str → Bool}

theorem readLinks_ok {lineno} {linked : List Str} {links}
    (h : readLinks properties file known name lineno linked = .ok links) :
    links = linked.map (fun linked =>
        ⟨linked, getString properties (linkPropertyName name linked ".shared_libs"),
          getBool properties (linkPropertyName name linked ".allow_all_shared_libs")⟩) ∧
      ∀ link ∈ links, LinkAccepted known link := by
  induction linked generalizing lineno links with
  | nil =>
    cases h
    exact ⟨rfl, nofun⟩
  | cons first rest ih =>
    unfold readLinks at h
    split at h
    · cases h
    rename_i hk
    dsimp only at h
    split at h
    · cases h
    rename_i hm
    split at h
    · cases h
    rename_i hb
    obtain ⟨more, hr, hl⟩ := ok_of_bind h
    cases hl
    obtain ⟨rfl, hac⟩ := ih hr
    refine ⟨rfl, ?_⟩
    intro link hlk
    rcases List.mem_cons.mp hlk with rfl | hlk
    · refine ⟨by simpa using hk, ?_⟩
      cases ha : getBool properties
        (linkPropertyName name first ".allow_all_shared_libs") with
      | false => simpa [ha] using hm
      | true => simpa [ha] using hb
    · exact hac link hlk

theorem fillNamespaceConfig_ok [Libbase] {sdk : ℤ}
    (h : fillNamespaceConfig env properties file isAsan isHwasan sdk known (.new name) name =
      .ok nsConfig) : nsConfig = configured env properties isAsan isHwasan sdk name ∧
      ∀ link ∈ nsConfig.links, LinkAccepted known link := by
  obtain ⟨links, hl, hf⟩ := ok_of_bind h
  cases hf
  obtain ⟨rfl, ha⟩ := readLinks_ok hl
  exact ⟨rfl, ha⟩

def configsOf (conf : Str → NamespaceConfig) : List Str → List NamespaceConfig
  | [] => []
  | name :: names => (if name ∈ names then .new name else conf name) :: configsOf conf names

def LastAt (names : List Str) (name : Str) (i : ℕ) : Prop :=
  names[i]? = some name ∧ name ∉ names.drop (i + 1)

theorem LastAt.name_eq {name' i} (h : LastAt names name i)
    (h' : LastAt names name' i) : name = name' :=
  Option.some.inj (h.1.symm.trans h'.1)

theorem exists_lastAt (h : name ∈ names) : ∃ i, LastAt names name i := by
  induction names with
  | nil => cases h
  | cons first names ih =>
    by_cases hl : name ∈ names
    · obtain ⟨i, hi⟩ := ih hl
      exact ⟨i + 1, hi⟩
    rcases List.mem_cons.mp h with rfl | h
    · exact ⟨0, rfl, hl⟩
    · exact absurd h hl

theorem configsOf_getElem? (conf : Str → NamespaceConfig) (names i) :
    (configsOf conf names)[i]? = (names[i]?).map fun name =>
      if name ∈ names.drop (i + 1) then .new name else conf name := by
  induction names generalizing i with
  | nil => rfl
  | cons first names ih =>
    cases i with
    | zero => rfl
    | succ i => exact ih i

theorem created_configs (names : List Str) (config) :
    (names.foldl Config.createNamespaceConfig config).namespaceConfigs =
      config.namespaceConfigs ++ names.map .new := by
  induction names generalizing config with
  | nil => simp
  | cons name names ih => simp [ih, Config.createNamespaceConfig]

theorem created_map (sdk) (names : List Str) (name : Str) (i : ℕ) :
    (names.foldl Config.createNamespaceConfig ⟨[], fun _ => none, sdk⟩).namespaceConfigsMap name =
      some i ↔ LastAt names name i := by
  induction names using List.reverseRecOn generalizing i with
  | nil => simp [LastAt]
  | append_singleton names last ih =>
    have hl := congrArg List.length (created_configs names ⟨[], fun _ => none, sdk⟩)
    rw [foldl_append, foldl_cons, foldl_nil]
    generalize names.foldl Config.createNamespaceConfig ⟨[], fun _ => none, sdk⟩ = config at *
    simp only [nil_append, length_map] at hl
    simp only [Config.createNamespaceConfig, hl]
    by_cases hn : name = last
    · subst hn
      rw [Function.update_self, Option.some.injEq]
      constructor
      · rintro rfl
        simp [LastAt]
      rintro ⟨hi, hla⟩
      have hlt : i < (names ++ [name]).length := (List.getElem?_eq_some_iff.mp hi).1
      rw [length_append, length_singleton] at hlt
      by_contra hne
      rw [drop_append_of_le_length (by omega)] at hla
      exact hla (by simp)
    · rw [Function.update_of_ne hn, ih i]
      unfold LastAt
      by_cases hi : i < names.length
      · rw [List.getElem?_append_left hi, drop_append_of_le_length hi]
        simp [hn]
      have hno : names[i]? = none := List.getElem?_eq_none (not_lt.mp hi)
      rw [hno, List.getElem?_append_right (not_lt.mp hi)]
      simp only [reduceCtorEq, false_and, false_iff, not_and]
      intro hs
      have hm := mem_of_getElem? hs
      rw [mem_singleton] at hm
      exact absurd hm hn

theorem Config.find_eq_some {i} : config.find name = some (i, nsConfig) ↔
      config.namespaceConfigsMap name = some i ∧ config.namespaceConfigs[i]? = some nsConfig := by
  unfold Config.find
  cases hm : config.namespaceConfigsMap name with
  | none => simp
  | some j =>
    cases hj : config.namespaceConfigs[j]? with
    | none =>
      simp only [bind_eq_bind, bind_some, hj, bind_none, Option.some.injEq,
        reduceCtorEq, false_iff, not_and]
      rintro rfl
      simp [hj]
    | some found =>
      simp only [bind_eq_bind, bind_some, hj, Option.some.injEq, Prod.mk.injEq]
      constructor
      · rintro ⟨rfl, rfl⟩
        exact ⟨rfl, hj⟩
      · rintro ⟨rfl, hf⟩
        exact ⟨rfl, Option.some.inj (hj.symm.trans hf)⟩

theorem fillAll_ok {fill} {order : List Str}
    {config'} (h : fillAll fill config order = .ok config') (hnd : order.Nodup)
    (hin : ∀ name name' i, config.namespaceConfigsMap name = some i →
      config.namespaceConfigsMap name' = some i → name = name') :
    config'.namespaceConfigsMap = config.namespaceConfigsMap ∧
      config'.targetSdkVersion = config.targetSdkVersion ∧
      config'.namespaceConfigs.length = config.namespaceConfigs.length ∧
      ∀ i nsConfig, config.namespaceConfigs[i]? = some nsConfig →
        ((∀ name ∈ order, config.namespaceConfigsMap name ≠ some i) →
          config'.namespaceConfigs[i]? = some nsConfig) ∧
        ∀ name ∈ order, config.namespaceConfigsMap name = some i →
          ∃ filled, fill nsConfig name = .ok filled ∧
            config'.namespaceConfigs[i]? = some filled := by
  induction order generalizing config with
  | nil =>
    cases h
    exact ⟨rfl, rfl, rfl, fun i nsConfig hi => ⟨fun _ => hi, nofun⟩⟩
  | cons name order ih =>
    obtain ⟨hn, hnd⟩ := List.nodup_cons.mp hnd
    unfold fillAll at h
    split at h
    · rename_i hno
      obtain ⟨hm, hsk, hl, hc⟩ := ih h hnd hin
      refine ⟨hm, hsk, hl, fun i nsConfig hi => ⟨fun hne => ?_, fun name' hn' hp => ?_⟩⟩
      · exact (hc i nsConfig hi).1 fun name' hn' => hne name' (mem_cons_of_mem _ hn')
      rcases List.mem_cons.mp hn' with rfl | hn'
      · cases hno.symm.trans (Config.find_eq_some.mpr ⟨hp, hi⟩)
      · exact (hc i nsConfig hi).2 name' hn' hp
    rename_i j old hf
    obtain ⟨hj, ho⟩ := Config.find_eq_some.mp hf
    obtain ⟨filled, hfl, hr⟩ := ok_of_bind h
    obtain ⟨hm, hsk, hl, hc⟩ := ih hr hnd hin
    rw [length_set] at hl
    refine ⟨hm, hsk, hl, fun i nsConfig hi => ?_⟩
    by_cases hij : j = i
    · subst hij
      cases ho.symm.trans hi
      have hs : (config.namespaceConfigs.set j filled)[j]? = some filled :=
        List.getElem?_set_self (List.getElem?_eq_some_iff.mp hi).1
      have hk := (hc j filled hs).1 fun name' hn' hp =>
        hn (hin name name' j hj hp ▸ hn')
      refine ⟨fun hne => absurd hj (hne name mem_cons_self), fun name' hn' hp => ?_⟩
      rw [hin name' name j hp hj]
      exact ⟨filled, hfl, hk⟩
    · have hs : (config.namespaceConfigs.set j filled)[i]? = some nsConfig := by
        rw [List.getElem?_set_ne hij, hi]
      refine ⟨fun hne => (hc i nsConfig hs).1
        fun name' hn' => hne name' (mem_cons_of_mem _ hn'), ?_⟩
      intro name' hn' hp
      rcases List.mem_cons.mp hn' with rfl | hn'
      · exact absurd (Option.some.inj (hj.symm.trans hp)) hij
      · exact (hc i nsConfig hs).2 name' hn' hp

structure Config.Holds (conf : Str → NamespaceConfig) (names : List Str) (config : Config) :
    Prop where
  name : ∀ name, (conf name).name = name
  sameLink : ∀ name, ∀ link ∈ (conf name).links, ∀ link' ∈ (conf name).links,
    link.nsName = link'.nsName → link = link'
  configs : config.namespaceConfigs = configsOf conf names
  default : config.defaultNamespaceConfig = some (conf kDefaultConfigName)
  links : ∀ name ∈ names, ∀ link ∈ (conf name).links, link.nsName ∈ names ∧
    (link.allowAllSharedLibs ↔ link.sharedLibs = [])

theorem readConfigForBinary_ok [Libbase] {iterate} {binary : Str}
    (hie : ∀ keys, (iterate keys).Perm keys)
    (hp : parseConfigFile env file binary = .ok properties)
    (hr : readConfigForBinary env iterate file binary isAsan isHwasan = .ok config) :
    config.Holds (configured env properties isAsan isHwasan config.targetSdkVersion)
      (sectionNames properties) := by
  obtain ⟨properties', hp', hr⟩ := ok_of_bind hr
  cases hp.symm.trans hp'
  obtain ⟨version, -, hfl⟩ := ok_of_bind hr
  have hm := created_map env.androidApi (sectionNames properties)
  have hc := created_configs (sectionNames properties) ⟨[], fun _ => none, env.androidApi⟩
  generalize (sectionNames properties).foldl Config.createNamespaceConfig
    ⟨[], fun _ => none, env.androidApi⟩ = created at *
  generalize hna : sectionNames properties = names at *
  have hk : ∀ name, (created.namespaceConfigsMap name).isSome → name ∈ names := by
    intro name hso
    obtain ⟨i, hi⟩ := Option.isSome_iff_exists.mp hso
    exact mem_of_getElem? ((hm name i).mp hi).1
  have ho : ∀ name, name ∈ iterate names.dedup ↔ name ∈ names := fun name =>
    (hie names.dedup).mem_iff.trans mem_dedup
  obtain ⟨hm', hs, hl, hf⟩ := fillAll_ok hfl
    ((hie names.dedup).nodup_iff.mpr names.nodup_dedup) fun name name' i hi hi' =>
      ((hm name i).mp hi).name_eq ((hm name' i).mp hi')
  dsimp only at hm' hs hl hf
  rw [← hs] at hf
  have hn : ∀ (name : Str) (i : ℕ), names[i]? = some name →
      created.namespaceConfigs[i]? = some (NamespaceConfig.new name) := by
    intro name i hi
    rw [hc, nil_append, List.getElem?_map, hi]
    rfl
  have hla : ∀ name i, LastAt names name i → config.namespaceConfigs[i]? =
        some (configured env properties isAsan isHwasan config.targetSdkVersion name) ∧
      ∀ link ∈ (configured env properties isAsan isHwasan config.targetSdkVersion name).links,
        link.nsName ∈ names ∧ (link.allowAllSharedLibs ↔ link.sharedLibs = []) := by
    intro name i hi
    obtain ⟨filled, hfl, hg⟩ := (hf i _ (hn name i hi.1)).2 name
      ((ho name).mpr (mem_of_getElem? hi.1)) ((hm name i).mpr hi)
    obtain ⟨rfl, ha⟩ := fillNamespaceConfig_ok hfl
    exact ⟨hg, fun link hlk =>
      ⟨hk _ (ha link hlk).known, (ha link hlk).libs⟩⟩
  refine ⟨fun _ => rfl, ?_, ?_, ?_, ?_⟩
  · rintro name link hlk link' hlk' heq
    obtain ⟨linked, -, rfl⟩ := List.mem_map.mp hlk
    obtain ⟨linked', -, rfl⟩ := List.mem_map.mp hlk'
    rw [show linked = linked' from heq]
  · apply ext_getElem?
    intro i
    rw [configsOf_getElem?]
    cases hi : names[i]? with
    | none =>
      have hot := List.getElem?_eq_none_iff.mp hi
      refine List.getElem?_eq_none ?_
      rw [hl, hc, nil_append, length_map]
      exact hot
    | some name =>
      rw [map_some]
      split <;> rename_i hlt
      · refine (hf i _ (hn name i hi)).1 ?_
        intro name' _ hpc
        have hat := (hm name' i).mp hpc
        cases hi.symm.trans hat.1
        exact hat.2 hlt
      · exact (hla name i ⟨hi, hlt⟩).1
  · have hmm : kDefaultConfigName ∈ names := by
      rw [← hna]
      exact mem_cons_self
    obtain ⟨i, hi⟩ := exists_lastAt hmm
    have hfd := Config.find_eq_some.mpr
      ⟨(congrFun hm' _).trans ((hm kDefaultConfigName i).mpr hi), (hla _ i hi).1⟩
    rw [Config.defaultNamespaceConfig, hfd]
    rfl
  · intro name hnm
    obtain ⟨i, hi⟩ := exists_lastAt hnm
    exact (hla name i hi).2

end LinkerConfig
